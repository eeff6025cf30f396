import MetaExchange.Bytes.Basic

/-!
Reading values from the front of a byte string. A reading carries the proof that less is left than
there was, so that reading again and again ends, and no budget has to be counted.
-/

namespace MetaExchange

structure Reading (α : Type) (input : Bytes) where
  value : α
  rest : Bytes
  shorter : rest.length < input.length

abbrev Reader (ε α : Type) := (input : Bytes) → Except ε (Reading α input)

namespace Reading

variable {α β : Type} {input : Bytes}

def withValue (reading : Reading α input) (value : β) : Reading β input :=
  ⟨value, reading.rest, reading.shorter⟩

def widen (outer : Reading α input) (inner : Reading β outer.rest) : Reading β input :=
  ⟨inner.value, inner.rest, Nat.lt_trans inner.shorter outer.shorter⟩

def behind {byte : UInt8} (reading : Reading α input) : Reading α (byte :: input) :=
  ⟨reading.value, reading.rest, Nat.lt_succ_of_lt reading.shorter⟩

end Reading

namespace Reader

variable {ε α β σ : Type}

def fail (e : ε) : Reader ε α := fun _ => .error e

def map (f : α → β) (reader : Reader ε α) : Reader ε β := fun input =>
  match reader input with
  | .error e => .error e
  | .ok reading => .ok (reading.withValue (f reading.value))

def tryMap (f : α → Except ε β) (reader : Reader ε α) : Reader ε β := fun input =>
  match reader input with
  | .error e => .error e
  | .ok reading => (f reading.value).map reading.withValue

def andThen (first : Reader ε α) (second : α → Reader ε β) : Reader ε β := fun input =>
  match first input with
  | .error e => .error e
  | .ok reading =>
    match second reading.value reading.rest with
    | .error e => .error e
    | .ok last => .ok (reading.widen last)

/-- What follows from the start of a value: it was all there is, or more has to be read. -/
inductive Next (ε β : Type) where
  | done (value : β)
  | more (reader : Reader ε β)

def follow (first : Reader ε α) (next : α → Except ε (Next ε β)) : Reader ε β := fun input =>
  match first input with
  | .error e => .error e
  | .ok reading =>
    match next reading.value with
    | .error e => .error e
    | .ok (.done value) => .ok (reading.withValue value)
    | .ok (.more reader) => (reader reading.rest).map reading.widen

def upTo (stop : UInt8) (missing : ε) : Reader ε Bytes := fun input =>
  go input input [] (Nat.le_refl _)
where
  /-- Looks for the stop in `bytes`, the end of `input` behind the reverse of `passed`. -/
  go (input : Bytes) : (bytes passed : Bytes) → bytes.length ≤ input.length →
      Except ε (Reading Bytes input)
    | [], _, _ => .error missing
    | byte :: rest, passed, within =>
      if byte = stop then .ok ⟨passed.reverse, rest, within⟩
      else go input rest (byte :: passed) (Nat.le_of_succ_le within)

/-- Reads items up to the byte `stop`, which is taken away too. Each item is read by the reader that
the state names, and gives the next state. -/
def foldUntil (stop : UInt8) (missing : ε) (item : σ → Reader ε σ) (state : σ) : Reader ε σ :=
  fun input => go input state input (Nat.le_refl _)
where
  go (input : Bytes) (state : σ) (bytes : Bytes) (within : bytes.length ≤ input.length) :
      Except ε (Reading σ input) :=
    match bytes, within with
    | [], _ => .error missing
    | byte :: rest, within =>
      if byte = stop then .ok ⟨state, rest, within⟩
      else
        match item state (byte :: rest) with
        | .error e => .error e
        | .ok reading =>
          go input reading.value reading.rest (Nat.le_trans (Nat.le_of_lt reading.shorter) within)
  termination_by bytes.length
  decreasing_by exact reading.shorter

def many (stop : UInt8) (missing : ε) (item : Reader ε α) : Reader ε (List α) :=
  (foldUntil stop missing (fun items => item.map (· :: items)) []).map List.reverse

/-- Reads exactly `count` bytes behind the reading. -/
def takeBehind {input : Bytes} (reading : Reading α input) (count : Nat) :
    Option (Reading Bytes input) :=
  match split : Bytes.splitAt? count reading.rest with
  | none => none
  | some (taken, rest) =>
    some ⟨taken, rest, by
      have := (Bytes.length_of_splitAt? split).2
      have := reading.shorter
      omega⟩

end Reader

end MetaExchange
