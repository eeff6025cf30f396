import MetaExchange.Options.Basic

/-!
Reading a command line, word by word. Options and other arguments may stand in any order, until two
dashes alone end the options. An option takes its value from the same word or from the next, unless
that looks like an option.

An option without a value in its word is held back. It is settled by whatever comes after its value,
and only then is it found out that it lacks a value, comes a second time, or has no number for one. A
word that cannot be read at all goes before that.
-/

namespace MetaExchange.Options

structure Draft where
  target : Option String
  peer : Option String
  settings : Setting → Option Binary64
  switches : Switch → Bool
  held : Option (Setting × Option String)
  ended : Bool

namespace Draft

def empty : Draft where
  target := none
  peer := none
  settings _ := none
  switches _ := false
  held := none
  ended := false

def give (draft : Draft) (setting : Setting) (text : String) : Except Refusal Draft :=
  if (draft.settings setting).isSome then .error .conflict
  else
    match Binary64.ofText? text with
    | none => .error .invalidValue
    | some value =>
      .ok { draft with
        settings := fun other => if other = setting then some value else draft.settings other }

def settle (draft : Draft) : Except Refusal Draft :=
  match draft.held with
  | none => .ok draft
  | some (_, none) => .error .missingValue
  | some (setting, some text) => ({ draft with held := none } : Draft).give setting text

def turnOn (draft : Draft) (switch : Switch) : Except Refusal Draft :=
  match draft.settle with
  | .error refusal => .error refusal
  | .ok draft =>
    if switch = .help then .error .help
    else if draft.switches switch then .error .conflict
    else .ok { draft with switches := fun other => other = switch || draft.switches other }

def take (draft : Draft) (setting : Setting) (attached : Option String) : Except Refusal Draft :=
  match draft.settle, attached with
  | .error refusal, _ => .error refusal
  | .ok draft, some text => draft.give setting text
  | .ok draft, none => .ok { draft with held := some (setting, none) }

def takePlain (draft : Draft) (word : String) : Except Refusal Draft :=
  match draft.target, draft.peer with
  | none, _ => draft.settle.map fun draft => { draft with target := some word }
  | some _, none => draft.settle.map fun draft => { draft with peer := some word }
  | some _, some _ => .error .unknownArgument

def takeLong (draft : Draft) (text : List Char) : Except Refusal Draft :=
  let (name, rest) := text.span (· ≠ '=')
  let attached := if rest.isEmpty then none else some (String.ofList (rest.drop 1))
  match Named.ofLong? (String.ofList name) with
  | none => .error .unknownArgument
  | some (.setting setting) => draft.take setting attached
  | some (.switch switch) =>
    match attached with
    | none => draft.turnOn switch
    | some _ => .error .unwantedValue

/-- Takes the letters of a word with one dash. What follows an option with a value is its value; an
equals sign in front of it does not count. -/
def takeShort (draft : Draft) : List Char → Except Refusal Draft
  | [] => .ok draft
  | letter :: rest =>
    match Named.ofShort? letter with
    | none => .error .unknownArgument
    | some (.switch switch) =>
      match draft.turnOn switch with
      | .error refusal => .error refusal
      | .ok draft => draft.takeShort rest
    | some (.setting setting) =>
      draft.take setting <|
        match rest with
        | [] => none
        | '=' :: text => some (String.ofList text)
        | text => some (String.ofList text)

def takeWord (draft : Draft) (word : String) : Except Refusal Draft :=
  if draft.ended then draft.takePlain word
  else
    match word.toList with
    | ['-', '-'] => .ok { draft with ended := true }
    | '-' :: '-' :: text => draft.takeLong text
    | '-' :: letter :: rest => draft.takeShort (letter :: rest)
    | _ =>
      match draft.held with
      | some (setting, none) => .ok { draft with held := some (setting, some word) }
      | _ => draft.takePlain word

def options (draft : Draft) (target peer : String) : Options :=
  let seconds (setting : Setting) := (draft.settings setting).getD setting.byDefault
  { target, peer
    connectTimeout := seconds .connectTimeout
    idleTimeout := seconds .idleTimeout
    attemptTimeout := seconds .attemptTimeout
    noVerify := draft.switches .noVerify
    json := draft.switches .json
    verbose := draft.switches .verbose
    quiet := draft.switches .quiet }

/-- The options, once all words are read. That two of them exclude each other goes before that an
argument is missing. -/
def finish (draft : Draft) : Except Refusal Options :=
  match draft.settle with
  | .error refusal => .error refusal
  | .ok draft =>
    if draft.switches .verbose && draft.switches .quiet then .error .conflict
    else
      match draft.target, draft.peer with
      | some target, some peer => .ok (draft.options target peer)
      | _, _ => .error .missingArgument

end Draft

def parse (words : List String) : Except Refusal Options := do
  (← words.foldlM Draft.takeWord .empty).finish

end MetaExchange.Options
