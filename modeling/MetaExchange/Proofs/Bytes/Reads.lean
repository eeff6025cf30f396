import MetaExchange.Bytes.Reader

/-!
What a reader finds at the front of a byte string, and what it leaves. Each way to build a reader has
one law, which says when the reader that it builds finds a value.
-/

namespace MetaExchange.Reader

variable {ε α β σ : Type} {input rest : Bytes} {stop : UInt8} {missing : ε}

/-- The reader finds a value at the front of the input, and leaves the rest. -/
def Reads (reader : Reader ε α) (input : Bytes) (value : α) (rest : Bytes) : Prop :=
  ∃ reading, reader input = .ok reading ∧ reading.value = value ∧ reading.rest = rest

/-- A reader that only looks past the first byte. -/
theorem reads_behind_iff {whole part : Reader ε α} {byte : UInt8} {value : α}
    (same : whole (byte :: input) = (part input).map Reading.behind) :
    whole.Reads (byte :: input) value rest ↔ part.Reads input value rest := by
  unfold Reads
  rw [same]
  cases part input with
  | error e => simp [Except.map]
  | ok reading =>
      constructor
      · intro given
        obtain ⟨_, ⟨rfl⟩, rfl, rfl⟩ := given
        exact ⟨reading, rfl, rfl, rfl⟩
      · intro given
        obtain ⟨_, ⟨rfl⟩, rfl, rfl⟩ := given
        exact ⟨reading.behind, rfl, rfl, rfl⟩

theorem map_eq (f : α → β) (reader : Reader ε α) (input : Bytes) :
    reader.map f input = (reader input).map fun reading => reading.withValue (f reading.value) := by
  unfold map
  cases reader input <;> rfl

theorem andThen_eq (first : Reader ε α) (second : α → Reader ε β) (input : Bytes) :
    first.andThen second input = first input >>= fun reading =>
      (second reading.value reading.rest).map reading.widen := by
  unfold andThen
  cases first input with
  | error e => rfl
  | ok reading =>
      dsimp only [bind, Except.bind]
      cases second reading.value reading.rest <;> rfl

theorem reads_map_iff {f : α → β} {reader : Reader ε α} {value : β} :
    (reader.map f).Reads input value rest ↔ ∃ found, reader.Reads input found rest ∧ f found = value := by
  unfold Reads map
  cases reader input with
  | error e => simp
  | ok reading =>
      constructor
      · intro given
        obtain ⟨_, ⟨rfl⟩, rfl, rfl⟩ := given
        exact ⟨reading.value, ⟨reading, rfl, rfl, rfl⟩, rfl⟩
      · intro given
        obtain ⟨_, ⟨_, ⟨rfl⟩, rfl, rfl⟩, rfl⟩ := given
        exact ⟨_, rfl, rfl, rfl⟩

theorem reads_tryMap_iff {f : α → Except ε β} {reader : Reader ε α} {value : β} :
    (reader.tryMap f).Reads input value rest ↔
      ∃ found, reader.Reads input found rest ∧ f found = .ok value := by
  unfold Reads tryMap
  cases reader input with
  | error e => simp
  | ok reading =>
      constructor
      · intro given
        obtain ⟨mapped, accepted, rfl, rfl⟩ := given
        cases allowed : f reading.value with
        | error e => simp [allowed, Except.map] at accepted
        | ok value =>
            simp only [allowed, Except.map] at accepted
            cases accepted
            exact ⟨reading.value, ⟨reading, rfl, rfl, rfl⟩, allowed⟩
      · intro given
        obtain ⟨_, ⟨_, ⟨rfl⟩, rfl, rfl⟩, allowed⟩ := given
        exact ⟨reading.withValue value, by simp [allowed, Except.map], rfl, rfl⟩

theorem reads_andThen_iff {first : Reader ε α} {second : α → Reader ε β} {value : β} :
    (first.andThen second).Reads input value rest ↔
      ∃ found middle, first.Reads input found middle ∧ (second found).Reads middle value rest := by
  unfold Reads andThen
  cases first input with
  | error e => simp
  | ok reading =>
      constructor
      · intro given
        obtain ⟨_, accepted, rfl, rfl⟩ := given
        cases last : second reading.value reading.rest with
        | error e => simp [last] at accepted
        | ok final =>
            simp only [last] at accepted
            cases accepted
            exact ⟨reading.value, reading.rest, ⟨reading, rfl, rfl, rfl⟩, final, last, rfl, rfl⟩
      · intro given
        obtain ⟨_, _, ⟨_, ⟨rfl⟩, rfl, rfl⟩, final, last, rfl, rfl⟩ := given
        exact ⟨reading.widen final, by simp [last], rfl, rfl⟩

theorem reads_follow_iff {first : Reader ε α} {next : α → Except ε (Next ε β)} {value : β} :
    (first.follow next).Reads input value rest ↔
      ∃ found middle, first.Reads input found middle ∧
        (next found = .ok (.done value) ∧ middle = rest ∨
          ∃ reader, next found = .ok (.more reader) ∧ reader.Reads middle value rest) := by
  unfold Reads follow
  cases first input with
  | error e => simp
  | ok reading =>
      constructor
      · intro given
        obtain ⟨_, accepted, rfl, rfl⟩ := given
        refine ⟨reading.value, reading.rest, ⟨reading, rfl, rfl, rfl⟩, ?_⟩
        cases goesOn : next reading.value with
        | error e => simp [goesOn] at accepted
        | ok further =>
            cases further with
            | done value =>
                simp only [goesOn] at accepted
                cases accepted
                exact .inl ⟨rfl, rfl⟩
            | more reader =>
                cases last : reader reading.rest with
                | error e => simp [goesOn, last, Except.map] at accepted
                | ok final =>
                    simp only [goesOn, last, Except.map] at accepted
                    cases accepted
                    exact .inr ⟨reader, rfl, final, last, rfl, rfl⟩
      · intro given
        obtain ⟨_, _, ⟨_, ⟨rfl⟩, rfl, rfl⟩, ⟨ends, rfl⟩ | ⟨reader, goesOn, final, last, rfl, rfl⟩⟩ := given
        · exact ⟨reading.withValue value, by simp [ends], rfl, rfl⟩
        · exact ⟨reading.widen final, by simp [goesOn, last, Except.map], rfl, rfl⟩

theorem upTo_go_iff {whole bytes passed value : Bytes} {within : bytes.length ≤ whole.length} :
    (∃ reading, upTo.go stop missing whole bytes passed within = .ok reading ∧
        reading.value = value ∧ reading.rest = rest) ↔
      ∃ front, bytes = front ++ stop :: rest ∧ stop ∉ front ∧ value = passed.reverse ++ front := by
  induction bytes generalizing passed with
  | nil => simp [upTo.go]
  | cons byte more ih =>
      unfold upTo.go
      split
      · next found =>
          rw [found]
          constructor
          · intro given
            obtain ⟨_, ⟨rfl⟩, rfl, rfl⟩ := given
            exact ⟨[], rfl, by simp, by simp⟩
          · intro given
            obtain ⟨front, parts, absent, rfl⟩ := given
            cases front with
            | nil =>
                cases parts
                exact ⟨_, rfl, by simp, rfl⟩
            | cons head front =>
                cases parts
                simp at absent
      · next other =>
          rw [ih]
          constructor
          · intro given
            obtain ⟨front, rfl, absent, rfl⟩ := given
            exact ⟨byte :: front, rfl, by simp [absent, Ne.symm other], by simp⟩
          · intro given
            obtain ⟨front, parts, absent, rfl⟩ := given
            cases front with
            | nil =>
                cases parts
                exact absurd rfl other
            | cons head front =>
                cases parts
                exact ⟨front, rfl, fun member => absent (List.mem_cons_of_mem _ member), by simp⟩

theorem reads_upTo_iff {value : Bytes} :
    (upTo stop missing).Reads input value rest ↔ input = value ++ stop :: rest ∧ stop ∉ value := by
  unfold Reads upTo
  rw [upTo_go_iff]
  constructor
  · intro given
    obtain ⟨front, rfl, absent, rfl⟩ := given
    exact ⟨by simp, by simpa using absent⟩
  · intro given
    obtain ⟨rfl, absent⟩ := given
    exact ⟨value, rfl, absent, by simp⟩

theorem upTo_go_eq_error_iff {whole bytes passed : Bytes} {within : bytes.length ≤ whole.length}
    {cause : ε} :
    upTo.go stop missing whole bytes passed within = .error cause ↔ missing = cause ∧ stop ∉ bytes := by
  induction bytes generalizing passed with
  | nil => simp [upTo.go]
  | cons byte more ih =>
      unfold upTo.go
      split
      · next found => simp [found]
      · next other =>
          rw [ih, List.mem_cons]
          simp [Ne.symm other]

theorem upTo_eq_error_iff {cause : ε} :
    upTo stop missing input = .error cause ↔ missing = cause ∧ stop ∉ input :=
  upTo_go_eq_error_iff

/-- Items are read up to the stop, each from the state that the one before it left. -/
inductive Folds (stop : UInt8) (item : σ → Reader ε σ) : σ → Bytes → σ → Bytes → Prop where
  | stop {state : σ} {rest : Bytes} : Folds stop item state (stop :: rest) state rest
  | item {state next last : σ} {byte : UInt8} {more middle rest : Bytes} (other : byte ≠ stop)
      (read : (item state).Reads (byte :: more) next middle)
      (further : Folds stop item next middle last rest) :
      Folds stop item state (byte :: more) last rest

theorem foldUntil_go_iff {item : σ → Reader ε σ} {state last : σ} {whole bytes : Bytes}
    {within : bytes.length ≤ whole.length} :
    (∃ reading, foldUntil.go stop missing item whole state bytes within = .ok reading ∧
        reading.value = last ∧ reading.rest = rest) ↔
      Folds stop item state bytes last rest := by
  fun_induction foldUntil.go stop missing item whole state bytes within with
  | case1 state within =>
      constructor
      · intro given
        obtain ⟨_, impossible, _⟩ := given
        cases impossible
      · intro impossible
        cases impossible
  | case2 state more within =>
      constructor
      · intro given
        obtain ⟨_, ⟨rfl⟩, rfl, rfl⟩ := given
        exact .stop
      · intro folds
        cases folds with
        | stop => exact ⟨_, rfl, rfl, rfl⟩
        | item other read further => exact absurd rfl other
  | case3 state byte more within other e failed =>
      constructor
      · intro given
        obtain ⟨_, impossible, _⟩ := given
        cases impossible
      · intro folds
        cases folds with
        | stop => exact absurd rfl other
        | item _ read further =>
            obtain ⟨reading, found, _⟩ := read
            rw [failed] at found
            cases found
  | case4 state byte more within other reading found _ ih =>
      rw [ih]
      constructor
      · intro further
        exact .item other ⟨reading, found, rfl, rfl⟩ further
      · intro folds
        cases folds with
        | stop => exact absurd rfl other
        | item _ read further =>
            obtain ⟨again, same, rfl, rfl⟩ := read
            rw [found] at same
            cases same
            exact further

theorem reads_foldUntil_iff {item : σ → Reader ε σ} {state last : σ} :
    (foldUntil stop missing item state).Reads input last rest ↔ Folds stop item state input last rest :=
  foldUntil_go_iff

/-- One item after the other is read, up to the stop. -/
inductive ReadsEach (stop : UInt8) (item : Reader ε α) : Bytes → List α → Bytes → Prop where
  | stop {rest : Bytes} : ReadsEach stop item (stop :: rest) [] rest
  | item {value : α} {values : List α} {byte : UInt8} {more middle rest : Bytes} (other : byte ≠ stop)
      (read : item.Reads (byte :: more) value middle)
      (further : ReadsEach stop item middle values rest) :
      ReadsEach stop item (byte :: more) (value :: values) rest

/-- Parts that are read one after the other, whatever follows, are read together. -/
theorem readsEach_flatMap {item : Reader ε α} {text : β → Bytes} {result : β → α} {parts : List β}
    (starts : ∀ {input : Bytes} {value : α} {rest : Bytes}, item.Reads input value rest →
      ∃ byte more, input = byte :: more ∧ byte ≠ stop)
    (each : ∀ part ∈ parts, ∀ rest, item.Reads (text part ++ rest) (result part) rest) (rest : Bytes) :
    ReadsEach stop item (parts.flatMap text ++ stop :: rest) (parts.map result) rest := by
  induction parts with
  | nil => exact .stop
  | cons part parts ih =>
      have first := each part (by simp) (parts.flatMap text ++ stop :: rest)
      obtain ⟨byte, more, parted, other⟩ := starts first
      have further := ih fun part member => each part (by simp [member])
      rw [List.flatMap_cons, List.append_assoc, List.map_cons, parted]
      rw [parted] at first
      exact .item other first further

/-- What is read item by item can be cut into parts, one for each item. -/
theorem ReadsEach.exists_parts (text : β → Bytes) (result : β → α) (Valid : β → Prop)
    {item : Reader ε α} {values : List α}
    (sound : ∀ {input : Bytes} {value : α} {rest : Bytes}, item.Reads input value rest →
      ∃ part, Valid part ∧ value = result part ∧ input = text part ++ rest)
    (each : ReadsEach stop item input values rest) :
    ∃ parts : List β, (∀ part ∈ parts, Valid part) ∧ values = parts.map result ∧
      input = parts.flatMap text ++ stop :: rest := by
  induction each with
  | stop => exact ⟨[], by simp⟩
  | item other read further ih =>
      obtain ⟨part, valid, rfl, parted⟩ := sound read
      obtain ⟨parts, valids, rfl, rfl⟩ := ih
      refine ⟨part :: parts, ?_, rfl, ?_⟩
      · simpa using ⟨valid, valids⟩
      · simpa using parted

theorem folds_cons_iff {item : Reader ε α} {found last : List α} :
    Folds stop (fun items => item.map (· :: items)) found input last rest ↔
      ∃ values, ReadsEach stop item input values rest ∧ last = values.reverse ++ found := by
  constructor
  · intro folds
    induction folds with
    | stop => exact ⟨[], .stop, rfl⟩
    | item other read further ih =>
        obtain ⟨values, each, rfl⟩ := ih
        obtain ⟨value, found, rfl⟩ := reads_map_iff.mp read
        exact ⟨value :: values, .item other found each, by simp⟩
  · intro given
    obtain ⟨values, each, rfl⟩ := given
    induction each generalizing found with
    | stop => exact .stop
    | item other read further ih =>
        refine .item other (reads_map_iff.mpr ⟨_, read, rfl⟩) ?_
        simpa using ih

theorem reads_many_iff {item : Reader ε α} {values : List α} :
    (many stop missing item).Reads input values rest ↔ ReadsEach stop item input values rest := by
  unfold many
  rw [reads_map_iff]
  constructor
  · intro given
    obtain ⟨found, folds, rfl⟩ := given
    obtain ⟨values, each, rfl⟩ := folds_cons_iff.mp (reads_foldUntil_iff.mp folds)
    simpa using each
  · intro each
    exact ⟨values.reverse, reads_foldUntil_iff.mpr (folds_cons_iff.mpr ⟨values, each, by simp⟩),
      by simp⟩

theorem takeBehind_iff {whole : Bytes} {reading : Reading α whole} {count : Nat} {taken : Bytes} :
    (∃ found, takeBehind reading count = some found ∧ found.value = taken ∧ found.rest = rest) ↔
      reading.rest = taken ++ rest ∧ taken.length = count := by
  unfold takeBehind
  split
  · next few =>
      rw [Bytes.splitAt?_eq] at few
      split at few
      · cases few
      · next short =>
          constructor
          · intro given
            obtain ⟨_, impossible, _⟩ := given
            cases impossible
          · intro given
            obtain ⟨parts, rfl⟩ := given
            simp [parts] at short
  · next front back cut =>
      rw [Bytes.splitAt?_eq] at cut
      split at cut
      · next enough =>
          cases cut
          constructor
          · intro given
            obtain ⟨_, ⟨rfl⟩, rfl, rfl⟩ := given
            exact ⟨(List.take_append_drop count _).symm, List.length_take_of_le enough⟩
          · intro given
            obtain ⟨parts, rfl⟩ := given
            exact ⟨_, rfl, by simp [parts], by simp [parts]⟩
      · cases cut

theorem takeBehind_eq_none_iff {whole : Bytes} {reading : Reading α whole} {count : Nat} :
    takeBehind reading count = none ↔ reading.rest.length < count := by
  constructor
  · intro nothing
    apply Nat.lt_of_not_le
    intro enough
    have parts := List.take_append_drop count reading.rest
    have sized : (reading.rest.take count).length = count := List.length_take_of_le enough
    obtain ⟨found, taken, _⟩ := takeBehind_iff.mpr ⟨parts.symm, sized⟩
    rw [nothing] at taken
    cases taken
  · intro few
    cases taken : takeBehind reading count with
    | none => rfl
    | some found =>
        obtain ⟨parts, sized⟩ := takeBehind_iff.mp ⟨found, taken, rfl, rfl⟩
        have total := congrArg List.length parts
        rw [List.length_append] at total
        omega

end MetaExchange.Reader
