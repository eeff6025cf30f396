import MetaExchange.Bencode.Decoder
import MetaExchange.Proofs.Bytes.Checked

/-!
The decoder as a walk through the data: a place that moves, and loops that go on until they meet the end of
their container. Every range and every sum is checked, and nothing here says that a loop ends: a walk gives
nothing where a range reaches past the data, a number leaves 64 bits, more calls are open than there may
be, or a loop runs for ever. What it counts it keeps also where it fails.
-/

namespace MetaExchange.Bencode

/-- How far a walk has come: the place of the next byte, and how often loops have run. -/
structure Progress where
  offset : Nat
  loopRuns : Nat

abbrev Walk (α : Type) := ExceptT Error (StateT Progress Option) α

namespace Walk

variable {α β : Type}

def runFrom (walk : Walk α) (before : Progress) : Option (Except Error α × Progress) :=
  StateT.run (ExceptT.run walk) before

/-- Goes on with what is there; there is no going on without. -/
def require (found : Option α) : Walk α := liftM found

def place : Walk Nat := return (← get).offset

def moveTo (offset : Nat) : Walk Unit := do
  let offset ← require (word? offset)
  modify fun progress => { progress with offset }

def countRun : Walk Unit :=
  modify fun progress => { progress with loopRuns := progress.loopRuns + 1 }

def find (data : Bytes) (start : Nat) (byte : UInt8) (missing : Error) : Walk Nat := do
  let rest ← require (data.range? start data.length)
  match rest.idxOf? byte with
  | none => throw missing
  | some index => require (word? (index + start))

/-- Walks over items up to the byte that ends a container. Those found so far are newest first. -/
def loop (data : Bytes) (missing : Error) (item : Walk α) (found : List α) : Walk (List α) := do
  countRun
  let start ← place
  match data[start]? with
  | none => throw missing
  | some byte =>
    if byte = terminator then
      moveTo (start + 1)
      return found.reverse
    else
      let value ← item
      item |>.loop data missing (value :: found)
partial_fixpoint

def integer (data : Bytes) : Walk Value := do
  let start ← place
  let stop ← find data start terminator .unterminatedInteger
  let digits ← require (data.range? start stop)
  match Numeral.int64? digits with
  | none => throw (.invalidInteger digits)
  | some number =>
    moveTo (stop + 1)
    return .int number

/-- The only sum that may leave 64 bits is that of a place and a length, which is then too long. -/
def byteString (data : Bytes) : Walk Value := do
  let start ← place
  let colon ← find data start ':'.toUInt8 .unterminatedLength
  let digits ← require (data.range? start colon)
  match Numeral.unsigned? Numeral.maxUInt64 digits with
  | none => throw (.invalidLength digits)
  | some length =>
    let start ← require (word? (colon + 1))
    match (word? (start + length)).filter (· ≤ data.length) with
    | none => throw (.stringTooLong length (data.length - start))
    | some stop =>
      moveTo stop
      return .bytes (← require (data.range? start stop))

def entry (value : Walk Value) : Walk (Bytes × Value) := do
  match ← value with
  | .bytes key => return (key, ← value)
  | _ => throw .keyNotString

def deeper (depth : Nat) (value : Nat → Walk α) : Walk α := do
  value (← require (word? (depth + 1)))

/-- A value in `depth` containers, where `calls` calls may be open at once. -/
def value (data : Bytes) : (calls depth : Nat) → Walk Value
  | 0, _ => require none
  | calls + 1, depth => do
    if maxDepth < depth then throw .tooDeep
    let start ← place
    match data[start]? with
    | none => throw .endOfData
    | some byte =>
      let inner := deeper depth (value data calls)
      if byte = 'i'.toUInt8 then
        moveTo (start + 1)
        integer data
      else if byte = 'l'.toUInt8 then
        moveTo (start + 1)
        return .list (← loop data .unterminatedList inner [])
      else if byte = 'd'.toUInt8 then
        moveTo (start + 1)
        return .dict (entriesOf (← loop data .unterminatedDictionary (entry inner) []))
      else if (Numeral.digit? byte).isSome then byteString data
      else throw (.unknownType byte start)

variable {walk : Walk α} {next : α → Walk β} {before after : Progress} {found : α} {cause : Error}

@[simp]
theorem runFrom_pure (found : α) (before : Progress) :
    (pure found : Walk α).runFrom before = some (.ok found, before) := rfl

@[simp]
theorem runFrom_throw (cause : Error) (before : Progress) :
    (throw cause : Walk α).runFrom before = some (.error cause, before) := rfl

theorem runFrom_bind_of_ok (first : walk.runFrom before = some (.ok found, after)) :
    (walk >>= next).runFrom before = (next found).runFrom after := by
  unfold runFrom at first ⊢
  rw [ExceptT.run_bind, StateT.run_bind, first]
  rfl

theorem runFrom_bind_of_error (failed : walk.runFrom before = some (.error cause, after)) :
    (walk >>= next).runFrom before = some (.error cause, after) := by
  unfold runFrom at failed ⊢
  rw [ExceptT.run_bind, StateT.run_bind, failed]
  rfl

@[simp]
theorem runFrom_require_bind (found : α) (next : α → Walk β) (before : Progress) :
    (require (some found) >>= next).runFrom before = (next found).runFrom before := rfl

@[simp]
theorem runFrom_place_bind (next : Nat → Walk β) (before : Progress) :
    (place >>= next).runFrom before = (next before.offset).runFrom before := rfl

@[simp]
theorem runFrom_countRun_bind (next : Unit → Walk β) (before : Progress) :
    (countRun >>= next).runFrom before =
      (next ()).runFrom { before with loopRuns := before.loopRuns + 1 } := rfl

theorem runFrom_moveTo_bind {offset : Nat} (fits : offset < UInt64.size) (next : Unit → Walk β)
    (before : Progress) :
    (moveTo offset >>= next).runFrom before = (next ()).runFrom { before with offset } := by
  unfold moveTo
  rw [word?_eq fits]
  rfl

variable {data : Bytes} {missing : Error} {item : Walk α} {items : List α} {byte : UInt8}

theorem loop_missing (ended : data[before.offset]? = none) :
    (loop data missing item items).runFrom before =
      some (.error missing, { before with loopRuns := before.loopRuns + 1 }) := by
  rw [loop]
  simp [ended]

theorem loop_done (fits : before.offset + 1 < UInt64.size)
    (stop : data[before.offset]? = some terminator) :
    (loop data missing item items).runFrom before =
      some (.ok items.reverse, ⟨before.offset + 1, before.loopRuns + 1⟩) := by
  rw [loop]
  simp only [runFrom_countRun_bind, runFrom_place_bind, stop, ↓reduceIte, runFrom_moveTo_bind fits,
    runFrom_pure]

theorem loop_failed (here : data[before.offset]? = some byte) (other : byte ≠ terminator)
    (failed : item.runFrom { before with loopRuns := before.loopRuns + 1 } = some (.error cause, after)) :
    (loop data missing item items).runFrom before = some (.error cause, after) := by
  rw [loop]
  simp [here, other, runFrom_bind_of_error failed]

theorem loop_step (here : data[before.offset]? = some byte) (other : byte ≠ terminator)
    (walked : item.runFrom { before with loopRuns := before.loopRuns + 1 } = some (.ok found, after)) :
    (loop data missing item items).runFrom before =
      (loop data missing item (found :: items)).runFrom after := by
  conv => lhs; rw [loop]
  simp [here, other, runFrom_bind_of_ok walked]

end Walk

end MetaExchange.Bencode
