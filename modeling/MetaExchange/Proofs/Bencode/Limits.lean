import MetaExchange.Proofs.Bencode.Grammar
import MetaExchange.Proofs.Bencode.Walk
import MetaExchange.Proofs.Outcome

/-!
The limits that the decoder keeps whatever it is given: its walk through the data never reaches past them,
ends, has no more than 66 calls open, and runs its loops no more often than there are bytes
(`value_within_limits`). What is counted is carried along with the proof that the walk finds what the reader
finds.
-/

namespace MetaExchange.Bencode

variable {α β : Type} {data : Bytes} {spare : Nat} {before after : Progress}

/-- A walk from a place gave what a reader finds in the bytes behind it. Its loops ran `spare` times fewer at
least than it passed bytes; a walk that fails counts as if it had passed all bytes and one more. -/
def Agrees (data : Bytes) (spare : Nat) (before : Progress) {input : Bytes} :
    Except Error (Reading α input) → Option (Except Error α × Progress) → Prop
  | .error cause, outcome => ∃ after, outcome = some (.error (cause.fromEnd data.length), after) ∧
      after.loopRuns + before.offset + spare ≤ before.loopRuns + data.length + 1
  | .ok reading, outcome => ∃ after, outcome = some (.ok reading.value, after) ∧
      after.offset ≤ data.length ∧ reading.rest = data.drop after.offset ∧
      after.loopRuns + before.offset + spare ≤ before.loopRuns + after.offset

-- What was passed up to a place pays for the runs of loops up to there.
theorem Agrees.later {input : Bytes} {read : Except Error (Reading α input)}
    {outcome : Option (Except Error α × Progress)} {middle : Progress} {total : Nat}
    (agrees : Agrees data spare middle read outcome)
    (paid : middle.loopRuns + before.offset + total ≤ before.loopRuns + middle.offset + spare) :
    Agrees data total before read outcome := by
  cases read with
  | error cause =>
      obtain ⟨after, walked, few⟩ := agrees
      exact ⟨after, walked, by omega⟩
  | ok reading =>
      obtain ⟨after, walked, inside, rest, few⟩ := agrees
      exact ⟨after, walked, inside, rest, by omega⟩

theorem Agrees.map {input whole : Bytes} {read : Except Error (Reading α input)}
    {outcome : Option (Except Error α × Progress)} {extend : Reading α input → Reading α whole}
    (agrees : Agrees data spare before read outcome)
    (value : ∀ reading, (extend reading).value = reading.value)
    (rest : ∀ reading, (extend reading).rest = reading.rest) :
    Agrees data spare before (read.map extend) outcome := by
  cases read with
  | error cause => exact agrees
  | ok reading =>
      obtain ⟨after, walked, inside, behind, few⟩ := agrees
      exact ⟨after, value reading ▸ walked, inside, rest reading ▸ behind, few⟩

/-- From every place a walk gives what a reader finds there. -/
def Follows (data : Bytes) (spare : Nat) (walk : Walk α) (reader : Reader Error α) : Prop :=
  ∀ before, before.offset ≤ data.length →
    Agrees data spare before (reader (data.drop before.offset)) (walk.runFrom before)

theorem Follows.agrees {walk : Walk α} {reader : Reader Error α} (follows : Follows data spare walk reader)
    {bytes : Bytes} (within : before.offset ≤ data.length) (here : bytes = data.drop before.offset) :
    Agrees data spare before (reader bytes) (walk.runFrom before) := by
  rw [here]
  exact follows before within

theorem of_drop_eq_cons {start : Nat} {byte : UInt8} {rest : Bytes} (here : data.drop start = byte :: rest) :
    data[start]? = some byte ∧ rest = data.drop (start + 1) ∧ start + 1 ≤ data.length := by
  have length := congrArg List.length here
  rw [List.length_drop, List.length_cons] at length
  refine ⟨?_, ?_, by omega⟩
  · rw [← List.head?_drop, here]
    rfl
  · rw [← List.drop_drop, here]
    rfl

theorem find_cases (fits : data.length < UInt64.size) {start : Nat} (within : start ≤ data.length)
    (byte : UInt8) (missing : Error) (before : Progress) :
    Reader.upTo byte missing (data.drop start) = .error missing ∧
        (Walk.find data start byte missing).runFrom before = some (.error missing, before) ∨
      ∃ reading stop, Reader.upTo byte missing (data.drop start) = .ok reading ∧
        (Walk.find data start byte missing).runFrom before = some (.ok stop, before) ∧
        start ≤ stop ∧ stop < data.length ∧ data.range? start stop = some reading.value ∧
        reading.rest = data.drop (stop + 1) := by
  have whole : data.range? start data.length = some (data.drop start) := by
    rw [Bytes.range?_eq within (Nat.le_refl _), List.take_of_length_le (by simp)]
  unfold Walk.find
  rw [whole, Walk.runFrom_require_bind]
  cases found : (data.drop start).idxOf? byte with
  | none =>
      left
      have absent : byte ∉ data.drop start := List.idxOf?_eq_none_iff.mp found
      exact ⟨Reader.upTo_eq_error_iff.mpr ⟨rfl, absent⟩, rfl⟩
  | some index =>
      right
      obtain ⟨inside, here, first⟩ := List.idxOf?_eq_some_iff.mp found
      have short : index + start < data.length := by
        rw [List.length_drop] at inside
        omega
      have parts : data.drop start = (data.drop start).take index ++ byte :: data.drop (index + start + 1) := by
        rw [← here, show index + start + 1 = start + (index + 1) by omega, ← List.drop_drop,
          ← List.drop_eq_getElem_cons inside, List.take_append_drop]
      have absent : byte ∉ (data.drop start).take index := by
        intro member
        obtain ⟨earlier, before, same⟩ := List.mem_take_iff_getElem.mp member
        exact first earlier (by omega) same
      obtain ⟨reading, reads, value, rest⟩ := Reader.reads_upTo_iff.mpr ⟨parts, absent⟩
      refine ⟨reading, index + start, reads, ?_, Nat.le_add_left _ _, short, ?_, rest⟩
      · dsimp only
        rw [word?_eq (Nat.lt_trans short fits)]
        rfl
      · rw [Bytes.range?_eq (Nat.le_add_left _ _) (Nat.le_of_lt short), Nat.add_sub_cancel, value]

theorem Follows.map {walk : Walk α} {reader : Reader Error α} (follows : Follows data spare walk reader)
    (f : α → β) : Follows data spare (walk >>= fun found => pure (f found)) (reader.map f) := by
  intro before within
  have agrees := follows before within
  rw [Reader.map_eq]
  cases read : reader (data.drop before.offset) with
  | error cause =>
      rw [read] at agrees
      obtain ⟨after, walked, few⟩ := agrees
      exact ⟨after, Walk.runFrom_bind_of_error walked, few⟩
  | ok reading =>
      rw [read] at agrees
      obtain ⟨after, walked, rest⟩ := agrees
      exact ⟨after, Walk.runFrom_bind_of_ok walked, rest⟩

theorem follows_integer (fits : data.length < UInt64.size) :
    Follows data 0 (Walk.integer data) integer := by
  intro before within
  unfold Walk.integer integer Reader.tryMap
  rw [Walk.runFrom_place_bind]
  rcases find_cases fits within terminator .unterminatedInteger before with
    ⟨read, walked⟩ | ⟨reading, stop, read, walked, ordered, inside, digits, rest⟩
  · rw [read, Walk.runFrom_bind_of_error walked]
    exact ⟨before, rfl, by omega⟩
  · rw [read, Walk.runFrom_bind_of_ok walked, digits, Walk.runFrom_require_bind]
    dsimp only
    cases Numeral.int64? reading.value with
    | none => exact ⟨before, rfl, by omega⟩
    | some number =>
        refine ⟨{ before with offset := stop + 1 }, ?_, inside, rest, ?_⟩
        · exact Walk.runFrom_moveTo_bind (by omega) _ _
        · dsimp only
          omega

theorem follows_byteString (fits : data.length < UInt64.size) :
    Follows data 1 (Walk.byteString data) byteString := by
  intro before within
  unfold Walk.byteString byteString stringLength Reader.tryMap
  rw [Walk.runFrom_place_bind]
  rcases find_cases fits within ':'.toUInt8 .unterminatedLength before with
    ⟨read, walked⟩ | ⟨reading, colon, read, walked, ordered, inside, digits, rest⟩
  · rw [read, Walk.runFrom_bind_of_error walked]
    exact ⟨before, rfl, by omega⟩
  · rw [read, Walk.runFrom_bind_of_ok walked, digits, Walk.runFrom_require_bind]
    dsimp only
    cases Numeral.unsigned? Numeral.maxUInt64 reading.value with
    | none => exact ⟨before, rfl, by omega⟩
    | some length =>
        have left : reading.rest.length = data.length - (colon + 1) := by rw [rest, List.length_drop]
        dsimp only [Except.map]
        rw [word?_eq (by omega : colon + 1 < UInt64.size), Walk.runFrom_require_bind]
        rw [filter_word?_eq fits]
        cases taken : Reader.takeBehind (reading.withValue length) (reading.withValue length).value with
        | none =>
            have few : reading.rest.length < length := Reader.takeBehind_eq_none_iff.mp taken
            rw [if_neg (by omega)]
            refine ⟨before, ?_, by omega⟩
            rw [← left]
            rfl
        | some content =>
            obtain ⟨parts, sized⟩ := Reader.takeBehind_iff.mp ⟨content, taken, rfl, rfl⟩
            have sized : content.value.length = length := sized
            have parts : data.drop (colon + 1) = content.value ++ content.rest := rest ▸ parts
            have total := congrArg List.length parts
            rw [List.length_drop, List.length_append] at total
            have cut : data.range? (colon + 1) (colon + 1 + length) = some content.value := by
              rw [Bytes.range?_eq (Nat.le_add_right _ _) (by omega), Nat.add_sub_cancel_left, parts,
                List.take_left' sized]
            rw [if_pos (by omega)]
            refine ⟨{ before with offset := colon + 1 + length }, ?_, ?_, ?_, ?_⟩
            · dsimp only
              rw [Walk.runFrom_moveTo_bind (by omega), cut]
              rfl
            · dsimp only
              omega
            · dsimp only [Reading.withValue]
              rw [← List.drop_drop, parts, List.drop_left' sized]
            · dsimp only
              omega

theorem follows_entry {value : Walk Value} {reader : Reader Error Value}
    (follows : Follows data 1 value reader) :
    Follows data 1 (Walk.entry value)
      ((reader.tryMap keyOf).andThen fun key => reader.map (key, ·)) := by
  intro before within
  have agrees := follows before within
  rw [Reader.andThen_eq]
  unfold Walk.entry Reader.tryMap
  cases read : reader (data.drop before.offset) with
  | error cause =>
      rw [read] at agrees
      obtain ⟨after, walked, few⟩ := agrees
      exact ⟨after, Walk.runFrom_bind_of_error walked, few⟩
  | ok reading =>
      rw [read] at agrees
      obtain ⟨after, walked, inside, rest, few⟩ := agrees
      rw [Walk.runFrom_bind_of_ok walked]
      dsimp only
      cases reading.value with
      | bytes key =>
          have further := (follows.map (key, ·)).agrees inside rest
          have paid : after.loopRuns + before.offset + 1 ≤ before.loopRuns + after.offset + 1 := by omega
          exact (further.later paid).map (fun _ => rfl) (fun _ => rfl)
      | int | list | dict => exact ⟨after, rfl, by omega⟩

theorem agrees_loop {item : Walk α} {reader : Reader Error α} {missing : Error}
    (fits : data.length < UInt64.size) (follows : Follows data 1 item reader)
    (fixed : missing.fromEnd data.length = missing) {input bytes : Bytes} (items : List α)
    (inside : bytes.length ≤ input.length) (within : before.offset ≤ data.length)
    (here : bytes = data.drop before.offset) :
    Agrees data 0 before
      ((Reader.foldUntil.go terminator missing (fun items => reader.map (· :: items)) input items bytes
        inside).map fun reading => reading.withValue reading.value.reverse)
      ((Walk.loop data missing item items).runFrom before) := by
  -- The loop runs once for each look at a byte: the item that begins there pays for it, or the byte that ends
  -- the container, and where neither is there the byte that a failed walk counts beyond the data.
  fun_induction Reader.foldUntil.go terminator missing (fun items => reader.map (· :: items)) input items
    bytes inside generalizing before with
  | case1 items inside =>
      have ended : data[before.offset]? = none := List.getElem?_eq_none (List.drop_eq_nil_iff.mp here.symm)
      refine ⟨{ before with loopRuns := before.loopRuns + 1 }, ?_, ?_⟩
      · rw [Walk.loop_missing ended, fixed]
      · dsimp only
        omega
  | case2 items rest inside =>
      obtain ⟨stop, behind, short⟩ := of_drop_eq_cons here.symm
      refine ⟨⟨before.offset + 1, before.loopRuns + 1⟩, ?_, short, behind, ?_⟩
      · exact Walk.loop_done (by omega) stop
      · dsimp only
        omega
  | case3 items byte more inside other cause failed =>
      obtain ⟨current, _, _⟩ := of_drop_eq_cons here.symm
      have agrees : Agrees data 1 { before with loopRuns := before.loopRuns + 1 } (reader (byte :: more)) _ :=
        follows.agrees within here
      rw [Reader.map_eq, Except.map_eq_error_iff] at failed
      rw [failed] at agrees
      obtain ⟨after, walked, few⟩ := agrees
      refine ⟨after, Walk.loop_failed current other walked, ?_⟩
      dsimp only at few
      omega
  | case4 items byte more inside other reading found _ ih =>
      obtain ⟨current, _, _⟩ := of_drop_eq_cons here.symm
      have agrees : Agrees data 1 { before with loopRuns := before.loopRuns + 1 } (reader (byte :: more)) _ :=
        follows.agrees within here
      rw [Reader.map_eq, Except.map_eq_ok_iff] at found
      obtain ⟨last, read, rfl⟩ := found
      rw [read] at agrees
      obtain ⟨after, walked, inside, rest, few⟩ := agrees
      rw [Walk.loop_step current other walked]
      apply (ih inside rest).later
      dsimp only at few
      omega

theorem follows_loop {item : Walk α} {reader : Reader Error α} {missing : Error}
    (fits : data.length < UInt64.size) (follows : Follows data 1 item reader)
    (fixed : missing.fromEnd data.length = missing) :
    Follows data 0 (Walk.loop data missing item []) (Reader.many terminator missing reader) := by
  intro before within
  rw [Reader.many, Reader.map_eq]
  exact agrees_loop fits follows fixed [] (Nat.le_refl _) within rfl

-- The byte in front of a container pays for the run of its loop that ends it.
theorem Follows.agrees_behind {body : Walk α} {reader : Reader Error α} (follows : Follows data 0 body reader)
    (fits : data.length < UInt64.size) {byte : UInt8} {rest : Bytes}
    (here : data.drop before.offset = byte :: rest) :
    Agrees data 1 before ((reader rest).map Reading.behind : Except Error (Reading α (byte :: rest)))
      ((Walk.moveTo (before.offset + 1) >>= fun _ => body).runFrom before) := by
  obtain ⟨_, behind, short⟩ := of_drop_eq_cons here
  have agrees : Agrees data 0 { before with offset := before.offset + 1 } (reader rest) _ :=
    follows.agrees short behind
  rw [Walk.runFrom_moveTo_bind (by omega)]
  refine (agrees.later ?_).map (fun _ => rfl) (fun _ => rfl)
  dsimp only
  omega

theorem deeper_eq (walk : Nat → Walk α) {depth : Nat} (shallow : depth ≤ maxDepth) :
    Walk.deeper depth walk = walk (depth + 1) := by
  have fits : depth + 1 < UInt64.size := by
    rw [UInt64.size]
    simp only [maxDepth] at shallow
    omega
  unfold Walk.deeper
  rw [word?_eq fits]
  rfl

theorem follows_value_succ (fits : data.length < UInt64.size) {calls depth levels : Nat}
    (shallow : depth ≤ maxDepth)
    (nested : Follows data 1 (Walk.value data calls (depth + 1)) (value levels)) :
    Follows data 1 (Walk.value data (calls + 1) depth) (value (levels + 1)) := by
  intro before within
  unfold Walk.value
  rw [if_neg (Nat.not_lt.mpr shallow), deeper_eq _ shallow]
  cases here : data.drop before.offset with
  | nil =>
      have ended : data[before.offset]? = none := List.getElem?_eq_none (List.drop_eq_nil_iff.mp here)
      refine ⟨before, ?_, by omega⟩
      simp only [Walk.runFrom_place_bind, ended]
      rfl
  | cons byte rest =>
      obtain ⟨current, _, _⟩ := of_drop_eq_cons here
      simp only [Walk.runFrom_place_bind, current]
      rw [value]
      by_cases isInt : byte = 'i'.toUInt8
      · rw [if_pos isInt, if_pos isInt]
        exact (follows_integer fits).agrees_behind fits here
      rw [if_neg isInt, if_neg isInt]
      by_cases isList : byte = 'l'.toUInt8
      · rw [if_pos isList, if_pos isList]
        exact ((follows_loop fits nested rfl).map Value.list).agrees_behind fits here
      rw [if_neg isList, if_neg isList]
      by_cases isDict : byte = 'd'.toUInt8
      · rw [if_pos isDict, if_pos isDict]
        have entries : Follows data 0
            (Walk.loop data .unterminatedDictionary (Walk.entry (Walk.value data calls (depth + 1))) [])
            (Reader.many terminator .unterminatedDictionary (entry levels)) :=
          follows_loop fits (follows_entry nested) rfl
        exact (entries.map (Value.dict ∘ entriesOf)).agrees_behind fits here
      rw [if_neg isDict, if_neg isDict]
      by_cases isDigit : (Numeral.digit? byte).isSome = true
      · rw [if_pos isDigit, if_pos isDigit, ← here]
        exact follows_byteString fits before within
      · rw [if_neg isDigit, if_neg isDigit]
        have length := congrArg List.length here
        rw [List.length_drop, List.length_cons] at length
        have place : data.length - (rest.length + 1) = before.offset := by omega
        refine ⟨before, ?_, by omega⟩
        rw [Error.fromEnd, place]
        rfl

/-- Calls enough are one for each level that is left, and one that only finds that there is none. -/
theorem follows_value (fits : data.length < UInt64.size) {calls depth : Nat}
    (enough : maxDepth + 1 - depth < calls) :
    Follows data 1 (Walk.value data calls depth) (value (maxDepth + 1 - depth)) := by
  induction calls generalizing depth with
  | zero => exact absurd enough (Nat.not_lt_zero _)
  | succ calls ih =>
      by_cases shallow : depth ≤ maxDepth
      · have nested := ih (show maxDepth + 1 - (depth + 1) < calls by omega)
        have follows := follows_value_succ fits shallow nested
        rwa [show maxDepth + 1 - (depth + 1) + 1 = maxDepth + 1 - depth by omega] at follows
      · intro before within
        unfold Walk.value
        rw [if_pos (Nat.lt_of_not_le shallow), show maxDepth + 1 - depth = 0 by omega]
        exact ⟨before, rfl, by omega⟩

theorem two_le_length_of_derives {around : Nat} {front : Bytes} {found : Value}
    (derives : Derives around front found) : 2 ≤ front.length := by
  cases derives with
  | int shallow isDecimal same =>
      simp
      omega
  | bytes shallow isDecimal measured short =>
      obtain ⟨code, digits, rfl, _⟩ := isDecimal.exists_eq_cons
      simp
      omega
  | list shallow items => simp
  | dict shallow keys values ascending last => simp

theorem length_of_reads_value {levels : Nat} (few : levels ≤ maxDepth + 1) {input rest : Bytes}
    {found : Value} (reads : (value levels).Reads input found rest) : rest.length + 2 ≤ input.length := by
  obtain ⟨front, rfl, derives⟩ :=
    sound_of_add_eq (show maxDepth + 1 - levels + levels = maxDepth + 1 by omega) _ _ _ reads
  have two := two_le_length_of_derives derives
  rw [List.length_append]
  omega

/-- From any place in any depth the decoder comes to an end without reaching past the data or 64 bits, with
one call open for each level that is left and one more: 66 from the start. It finds what the reader of values
finds there, two bytes further on at least and within the data. Found or not, its loops have run no more
often than there are bytes behind the place. -/
theorem value_within_limits {offset depth calls : Nat} (fits : data.length < UInt64.size)
    (within : offset ≤ data.length) (enough : maxDepth + 1 - depth < calls) :
    ∃ result after, (Walk.value data calls depth).runFrom ⟨offset, 0⟩ = some (result, after) ∧
      (∀ cause, value (maxDepth + 1 - depth) (data.drop offset) = .error cause →
        result = .error (cause.fromEnd data.length)) ∧
      (∀ reading, value (maxDepth + 1 - depth) (data.drop offset) = .ok reading →
        result = .ok reading.value ∧ reading.rest = data.drop after.offset) ∧
      (∀ found, result = .ok found → offset + 2 ≤ after.offset ∧ after.offset ≤ data.length) ∧
      after.loopRuns ≤ data.length - offset := by
  have agrees := follows_value fits enough ⟨offset, 0⟩ within
  dsimp only at agrees
  cases read : value (maxDepth + 1 - depth) (data.drop offset) with
  | error cause =>
      rw [read] at agrees
      obtain ⟨after, walked, few⟩ := agrees
      dsimp only at few
      refine ⟨_, after, walked, ?_, ?_, ?_, by omega⟩
      · intro other same
        cases same
        rfl
      · intro reading impossible
        cases impossible
      · intro found impossible
        cases impossible
  | ok reading =>
      rw [read] at agrees
      obtain ⟨after, walked, inside, rest, few⟩ := agrees
      dsimp only at few
      have further := length_of_reads_value (Nat.sub_le _ _) ⟨reading, read, rfl, rfl⟩
      rw [rest, List.length_drop, List.length_drop] at further
      refine ⟨_, after, walked, ?_, ?_, ?_, by omega⟩
      · intro cause impossible
        cases impossible
      · intro other same
        cases same
        exact ⟨rfl, rest⟩
      · intro found same
        exact ⟨by omega, inside⟩

/-- A byte string inside a list that declares the largest length there is. -/
theorem value_within_limits_longest :
    (Bytes.ofString "l18446744073709551615:").length < UInt64.size ∧
      1 ≤ (Bytes.ofString "l18446744073709551615:").length ∧ maxDepth + 1 - 1 < 65 ∧
      ∃ after, (Walk.value (Bytes.ofString "l18446744073709551615:") 65 1).runFrom ⟨1, 0⟩ =
          some (.error (.stringTooLong 18446744073709551615 0), after) ∧
        after.loopRuns ≤ (Bytes.ofString "l18446744073709551615:").length - 1 := by
  have fits : (Bytes.ofString "l18446744073709551615:").length < UInt64.size := by decide
  have within : 1 ≤ (Bytes.ofString "l18446744073709551615:").length := by decide
  have enough : maxDepth + 1 - 1 < 65 := by decide
  obtain ⟨result, after, walked, failed, _, _, few⟩ := value_within_limits fits within enough
  have refused := failed (.stringTooLong 18446744073709551615 0) rfl
  exact ⟨fits, within, enough, after, refused ▸ walked, few⟩

/-- The decoder is this walk from the start of the data. -/
theorem exists_walk_decode (fits : data.length < UInt64.size) :
    ∃ result after, (Walk.value data 66 0).runFrom ⟨0, 0⟩ = some (result, after) ∧
      decode data = result.map (·, data.drop after.offset) := by
  have follows := follows_value fits (show maxDepth + 1 - 0 < 66 by decide)
  have agrees : Agrees data 1 ⟨0, 0⟩ (value (maxDepth + 1) data) _ := follows.agrees (Nat.zero_le _) rfl
  unfold decode
  cases read : value (maxDepth + 1) data with
  | error cause =>
      rw [read] at agrees
      obtain ⟨after, walked, _⟩ := agrees
      exact ⟨_, after, walked, rfl⟩
  | ok reading =>
      rw [read] at agrees
      obtain ⟨after, walked, _, rest, _⟩ := agrees
      refine ⟨_, after, walked, ?_⟩
      dsimp only [Except.map]
      rw [rest]

end MetaExchange.Bencode
