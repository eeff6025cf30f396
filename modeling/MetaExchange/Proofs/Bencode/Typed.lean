import MetaExchange.Bencode.Typed
import MetaExchange.Proofs.Bencode.ReadBack
import MetaExchange.Proofs.Text.Utf8

/-!
How values of a certain type are written, without a limit to nesting, and that each is read back whatever
follows it. Where no value is called for, all of a value that is well formed is skipped, and no more.
-/

namespace MetaExchange.Bencode.Typed

open Numeral (IsDecimal decimal Sign)
open Reader (Reads ReadsEach Folds)

variable {α β σ : Type} {held : Int64} {content front input middle rest : Bytes}

inductive WritesInt : Int64 → Bytes → Prop where
  | int {sign : Sign} {digits : Bytes} {number : Int64} (isDecimal : IsDecimal digits)
      (same : number.toInt = sign.apply (decimal digits)) :
      WritesInt number ('i'.toUInt8 :: (sign.text ++ digits ++ ['e'.toUInt8]))

inductive WritesBytes : Bytes → Bytes → Prop where
  | bytes {digits content : Bytes} (isDecimal : IsDecimal digits)
      (measured : decimal digits = content.length) (short : content.length ≤ Numeral.maxUInt64) :
      WritesBytes content (digits ++ ':'.toUInt8 :: content)

/-- A list of values, each with the bytes that it is written in. -/
inductive WritesList (Writes : α → Bytes → Prop) : List α → Bytes → Prop where
  | list {parts : List (α × Bytes)} (items : ∀ part ∈ parts, Writes part.1 part.2) :
      WritesList Writes (parts.map Prod.fst) ('l'.toUInt8 :: (parts.flatMap Prod.snd ++ ['e'.toUInt8]))

/-- The bytes of any value. -/
inductive WellFormed : Bytes → Prop where
  | int {number : Int64} {text : Bytes} (writes : WritesInt number text) : WellFormed text
  | bytes {content text : Bytes} (writes : WritesBytes content text) : WellFormed text
  | list {items : List Bytes} (each : ∀ item ∈ items, WellFormed item) :
      WellFormed ('l'.toUInt8 :: (items.flatten ++ ['e'.toUInt8]))
  | dict {entries : List (Bytes × Bytes)} (keys : ∀ entry ∈ entries, ∃ key, WritesBytes key entry.1)
      (values : ∀ entry ∈ entries, WellFormed entry.2) :
      WellFormed ('d'.toUInt8 :: (entries.flatMap (fun entry => entry.1 ++ entry.2) ++ ['e'.toUInt8]))

/-- An item as it stands in a record, behind its key. -/
structure WrittenItem (α : Type) where
  keyText : Bytes
  item : α
  valueText : Bytes

def WrittenItem.text (written : WrittenItem α) : Bytes := written.keyText ++ written.valueText

/-- A dictionary of items, each written under its key. -/
inductive WritesRecord (key : α → String) (Writes : α → Bytes → Prop) : List α → Bytes → Prop where
  | dict {entries : List (WrittenItem α)}
      (keys : ∀ entry ∈ entries, WritesBytes (Bytes.ofString (key entry.item)) entry.keyText)
      (values : ∀ entry ∈ entries, Writes entry.item entry.valueText) :
      WritesRecord key Writes (entries.map WrittenItem.item)
        ('d'.toUInt8 :: (entries.flatMap WrittenItem.text ++ ['e'.toUInt8]))

/-! ### Scalars -/

theorem writesBytes_of_encodeBytes (short : content.length ≤ Numeral.maxUInt64)
    (same : encodeBytes content = front) : WritesBytes content front := by
  obtain ⟨isDecimal, measured, _⟩ := Numeral.natural?_eq_some_iff.mp (Numeral.natural?_ofNat short)
  subst same
  exact .bytes isDecimal measured short

theorem writesInt_of_encode (same : (Value.int held).encode = front) : WritesInt held front := by
  obtain ⟨sign, digits, parts, isDecimal, known⟩ :=
    Numeral.int64?_eq_some_iff.mp (Numeral.int64?_ofInt held)
  rw [Value.encode, parts] at same
  subst same
  exact .int isDecimal known

theorem writesList_encode {Writes : α → Bytes → Prop} {items : List α} {toValue : α → Value}
    (each : ∀ item ∈ items, Writes item (toValue item).encode) :
    WritesList Writes items (Value.list (items.map toValue)).encode := by
  have parts : ∀ part ∈ items.map fun item => (item, (toValue item).encode), Writes part.1 part.2 :=
    List.forall_mem_map.mpr each
  simpa [Value.encode, encodeItems_eq_flatMap, List.flatMap_map, Function.comp_def] using WritesList.list parts

theorem writesRecord_encode {key : α → String} {Writes : α → Bytes → Prop} {items : List (α × Value)}
    (short : ∀ item ∈ items, (Bytes.ofString (key item.1)).length ≤ Numeral.maxUInt64)
    (each : ∀ item ∈ items, Writes item.1 item.2.encode) :
    WritesRecord key Writes (items.map Prod.fst)
      (Value.dict (items.map fun item => (Bytes.ofString (key item.1), item.2))).encode := by
  let written (item : α × Value) : WrittenItem α :=
    ⟨encodeBytes (Bytes.ofString (key item.1)), item.1, item.2.encode⟩
  have keys : ∀ entry ∈ items.map written, WritesBytes (Bytes.ofString (key entry.item)) entry.keyText :=
    List.forall_mem_map.mpr fun item member => writesBytes_of_encodeBytes (short item member) rfl
  have values : ∀ entry ∈ items.map written, Writes entry.item entry.valueText :=
    List.forall_mem_map.mpr each
  simpa [Value.encode, encodeEntries_eq_flatMap, List.flatMap_map, written, WrittenItem.text,
    Function.comp_def] using WritesRecord.dict keys values

theorem reads_number {stop : UInt8} {parse : Bytes → Option α} (invalid : String → Error)
    {digits : Bytes} {value : α} (absent : stop ∉ digits) (ascii : ∀ code ∈ digits, code < 0x80)
    (known : parse digits = some value) (rest : Bytes) :
    (number stop parse invalid).Reads (digits ++ stop :: rest) value rest := by
  obtain ⟨text, decoded⟩ := Option.isSome_iff_exists.mp (Utf8.isSome_decode?_of_ascii ascii)
  refine Reader.reads_tryMap_iff.mpr ⟨digits, Reader.reads_upTo_iff.mpr ⟨rfl, absent⟩, ?_⟩
  simp [decoded, known]

theorem lt_of_isDigit {code : UInt8} (isDigit : Numeral.IsDigit code) : code < 0x80 :=
  UInt8.lt_of_le_of_lt isDigit.2 (by decide)

theorem lt_of_mem_signed {sign : Sign} {digits : Bytes} (isDecimal : IsDecimal digits) :
    ∀ code ∈ sign.text ++ digits, code < 0x80 := by
  intro code member
  rcases List.mem_append.mp member with before | behind
  · cases sign with
    | absent => cases before
    | plus =>
        rw [List.mem_singleton.mp before]
        decide
    | minus =>
        rw [List.mem_singleton.mp before]
        decide
  · exact lt_of_isDigit (isDecimal.2 code behind)

theorem reads_opening_int (writes : WritesInt held front) (rest : Bytes) :
    opening.Reads (front ++ rest) (.int held) rest := by
  cases writes with
  | @int sign digits _ isDecimal same =>
      have known : Numeral.int64? (sign.text ++ digits) = some held :=
        Numeral.int64?_eq_some_iff.mpr ⟨sign, digits, rfl, isDecimal, same⟩
      have behind : opening.Reads ('i'.toUInt8 :: (sign.text ++ digits ++ terminator :: rest)) (.int held)
          rest := by
        refine (Reader.reads_behind_iff rfl).mpr (Reader.reads_map_iff.mpr ⟨held, ?_, rfl⟩)
        exact reads_number .invalidInteger (terminator_not_mem_signed sign isDecimal)
          (lt_of_mem_signed isDecimal) known rest
      simpa [terminator] using behind

theorem reads_content_iff :
    Typed.content.Reads input content rest ↔
      (number ':'.toUInt8 (Numeral.unsigned? Numeral.maxUInt64) .invalidLength).Reads input content.length
        (content ++ rest) := by
  constructor
  · intro given
    obtain ⟨reading, accepted, rfl, rfl⟩ := given
    unfold Typed.content at accepted
    split at accepted
    · cases accepted
    · next length measured =>
        split at accepted
        · cases accepted
        · next taken enough =>
            cases accepted
            obtain ⟨parts, sized⟩ := Reader.takeBehind_iff.mp ⟨_, enough, rfl, rfl⟩
            exact ⟨length, measured, sized.symm, parts⟩
  · intro given
    obtain ⟨length, measured, sized, parts⟩ := given
    obtain ⟨taken, enough, value, behind⟩ := Reader.takeBehind_iff.mpr ⟨parts, sized.symm⟩
    exact ⟨taken, by simp [Typed.content, measured, enough], value, behind⟩

theorem reads_opening_digit {byte : UInt8} {start : Opening} (isDigit : Numeral.IsDigit byte) :
    opening.Reads (byte :: input) start rest ↔ (Typed.content.map .bytes).Reads (byte :: input) start rest := by
  have known := Numeral.isSome_digit?_iff.mpr isDigit
  have noInt : byte ≠ 'i'.toUInt8 := Numeral.ne_of_digit? known (by decide)
  have noList : byte ≠ 'l'.toUInt8 := Numeral.ne_of_digit? known (by decide)
  have noDict : byte ≠ 'd'.toUInt8 := Numeral.ne_of_digit? known (by decide)
  have noEnd : byte ≠ terminator := Numeral.ne_of_digit? known (by decide)
  unfold Reads
  simp only [opening, noInt, noList, noDict, noEnd, known, ↓reduceIte]

theorem reads_opening_bytes (writes : WritesBytes content front) (rest : Bytes) :
    opening.Reads (front ++ rest) (.bytes content) rest := by
  cases writes with
  | bytes isDecimal measured short =>
      have ends : ':'.toUInt8 ∉ _ := isDecimal.not_mem (by decide)
      have ascii := fun code member => lt_of_isDigit (isDecimal.2 code member)
      obtain ⟨byte, more, rfl, isDigit⟩ := isDecimal.exists_eq_cons
      have known := (Numeral.unsigned?_eq_some_iff isDigit).mpr ⟨isDecimal, measured, short⟩
      have read := reads_content_iff.mpr (reads_number .invalidLength ends ascii known (content ++ rest))
      rw [List.append_assoc, List.cons_append, List.cons_append, reads_opening_digit isDigit]
      exact Reader.reads_map_iff.mpr ⟨content, read, rfl⟩

theorem reads_opening_list (rest : Bytes) : opening.Reads ('l'.toUInt8 :: rest) .list rest :=
  ⟨_, rfl, rfl, rfl⟩

theorem reads_opening_dict (rest : Bytes) : opening.Reads ('d'.toUInt8 :: rest) .dict rest :=
  ⟨_, rfl, rfl, rfl⟩

theorem exists_eq_cons_of_reads_opening {start : Opening} (reads : opening.Reads input start rest) :
    ∃ byte more, input = byte :: more ∧ byte ≠ terminator := by
  obtain ⟨reading, accepted, _⟩ := reads
  cases input with
  | nil => cases accepted
  | cons byte more =>
      refine ⟨byte, more, rfl, ?_⟩
      intro same
      subst same
      cases accepted

theorem exists_eq_cons_of_reads_follow {next : Opening → Except Error (Reader.Next Error α)} {value : α}
    (reads : (opening.follow next).Reads input value rest) :
    ∃ byte more, input = byte :: more ∧ byte ≠ terminator := by
  obtain ⟨start, middle, opens, _⟩ := Reader.reads_follow_iff.mp reads
  exact exists_eq_cons_of_reads_opening opens

theorem reads_integer (writes : WritesInt held front) (rest : Bytes) :
    integer.Reads (front ++ rest) held rest :=
  Reader.reads_tryMap_iff.mpr ⟨.int held, reads_opening_int writes rest, rfl⟩

theorem reads_byteArray (writes : WritesBytes content front) (rest : Bytes) :
    byteArray.Reads (front ++ rest) content rest :=
  Reader.reads_follow_iff.mpr ⟨.bytes content, rest, reads_opening_bytes writes rest, .inl ⟨rfl, rfl⟩⟩

theorem reads_key {name : String} (writes : WritesBytes (Bytes.ofString name) front) (rest : Bytes) :
    key.Reads (front ++ rest) name rest := by
  refine Reader.reads_tryMap_iff.mpr ⟨.bytes (Bytes.ofString name), reads_opening_bytes writes rest, ?_⟩
  simp [Utf8.decode?_ofString]

/-! ### Values that are not called for -/

/-- What is skipped until no container is open: from the places to go on at, up to the rest. -/
inductive Skips : List Place → Bytes → Bytes → Prop where
  | done {rest : Bytes} : Skips [] rest rest
  | stop {place : Place} {outer : List Place} {more rest : Bytes} (closes : place ≠ .entryValue)
      (further : Skips outer more rest) : Skips (place :: outer) (terminator :: more) rest
  | start {place : Place} {outer : List Place} {input middle rest : Bytes} {start : Opening}
      (opens : opening.Reads input start middle)
      (further : Skips (start.enter (place.next :: outer)) middle rest) : Skips (place :: outer) input rest

theorem exists_go_of_skips {places : List Place} {whole : Bytes} (skips : Skips places input rest)
    (within : input.length < whole.length) :
    ∃ reading, skip.go whole places input within = .ok reading ∧ reading.rest = rest := by
  induction skips with
  | done => exact ⟨_, by rw [skip.go], rfl⟩
  | stop closes _ ih =>
      obtain ⟨reading, found, left⟩ := ih (Nat.lt_of_succ_lt within)
      exact ⟨reading, by simp [skip.go, closes, found], left⟩
  | start opens _ ih =>
      obtain ⟨byte, more, rfl, other⟩ := exists_eq_cons_of_reads_opening opens
      obtain ⟨first, opened, rfl, rfl⟩ := opens
      obtain ⟨reading, found, left⟩ := ih (Nat.lt_trans first.shorter within)
      exact ⟨reading, by simp [skip.go, other, opened, found], left⟩

/-- The value is opened, and what it holds is skipped before what is behind it. -/
def Passes (front : Bytes) : Prop :=
  ∀ rest, ∃ start middle, opening.Reads (front ++ rest) start middle ∧
    ∀ places final, Skips places rest final → Skips (start.enter places) middle final

theorem Passes.skips (passes : Passes front) {place : Place} {outer : List Place}
    (further : Skips (place.next :: outer) middle rest) : Skips (place :: outer) (front ++ middle) rest := by
  obtain ⟨start, inside, opens, skips⟩ := passes middle
  exact .start opens (skips _ _ further)

theorem passes_bytes (writes : WritesBytes content front) : Passes front :=
  fun rest => ⟨_, rest, reads_opening_bytes writes rest, fun _ _ further => further⟩

theorem passes_list {items : List Bytes} (each : ∀ item ∈ items, Passes item) :
    Passes ('l'.toUInt8 :: (items.flatten ++ ['e'.toUInt8])) := by
  intro rest
  refine ⟨.list, items.flatten ++ terminator :: rest, ?_, fun places final further => ?_⟩
  · simpa [terminator] using reads_opening_list (items.flatten ++ terminator :: rest)
  · show Skips (.item :: places) _ final
    induction items with
    | nil => exact .stop (by decide) further
    | cons item items ih =>
        rw [List.flatten_cons, List.append_assoc]
        exact (each item (by simp)).skips (ih fun item member => each item (by simp [member]))

theorem passes_dict {entries : List (Bytes × Bytes)}
    (keys : ∀ entry ∈ entries, ∃ key, WritesBytes key entry.1)
    (values : ∀ entry ∈ entries, Passes entry.2) :
    Passes ('d'.toUInt8 :: (entries.flatMap (fun entry => entry.1 ++ entry.2) ++ ['e'.toUInt8])) := by
  intro rest
  refine ⟨.dict, entries.flatMap (fun entry => entry.1 ++ entry.2) ++ terminator :: rest, ?_,
    fun places final further => ?_⟩
  · simpa [terminator] using
      reads_opening_dict (entries.flatMap (fun entry => entry.1 ++ entry.2) ++ terminator :: rest)
  · show Skips (.entryKey :: places) _ final
    induction entries with
    | nil => exact .stop (by decide) further
    | cons entry entries ih =>
        obtain ⟨key, named⟩ := keys entry (by simp)
        have behind := ih (fun entry member => keys entry (by simp [member]))
          (fun entry member => values entry (by simp [member]))
        rw [List.flatMap_cons, List.append_assoc, List.append_assoc]
        exact (passes_bytes named).skips ((values entry (by simp)).skips behind)

theorem passes_of_wellFormed (wellFormed : WellFormed front) : Passes front := by
  induction wellFormed with
  | int writes => exact fun rest => ⟨_, rest, reads_opening_int writes rest, fun _ _ further => further⟩
  | bytes writes => exact passes_bytes writes
  | list _ each => exact passes_list each
  | dict keys _ values => exact passes_dict keys values

/-- All of a value is skipped, and nothing behind it. -/
theorem reads_skip (wellFormed : WellFormed front) (rest : Bytes) : skip.Reads (front ++ rest) () rest := by
  obtain ⟨start, middle, opens, skips⟩ := passes_of_wellFormed wellFormed rest
  obtain ⟨first, opened, rfl, rfl⟩ := opens
  obtain ⟨reading, found, left⟩ := exists_go_of_skips (skips [] rest .done) first.shorter
  exact ⟨reading, by simp [skip, opened, found], rfl, left⟩

/-! ### Lists and records -/

/-- A list is read if each of its items is. -/
theorem reads_sequence {Writes : α → Bytes → Prop} {next : Opening → Except Error (Reader.Next Error α)}
    {values : List α} (writes : WritesList Writes values front)
    (each : ∀ value text rest, Writes value text → (opening.follow next).Reads (text ++ rest) value rest)
    (rest : Bytes) : (sequence (opening.follow next)).Reads (front ++ rest) values rest := by
  cases writes with
  | @list parts items =>
      have read : ReadsEach terminator (opening.follow next)
          (parts.flatMap Prod.snd ++ terminator :: rest) (parts.map Prod.fst) rest :=
        Reader.readsEach_flatMap exists_eq_cons_of_reads_follow
          (fun part member rest => each part.1 part.2 rest (items part member)) rest
      refine Reader.reads_follow_iff.mpr ⟨.list, _, ?_, .inr ⟨_, rfl, Reader.reads_many_iff.mpr read⟩⟩
      simpa [terminator] using reads_opening_list (parts.flatMap Prod.snd ++ terminator :: rest)

section records

variable {key : α → String} {Writes : α → Bytes → Prop} {put : σ → α → Option σ}
  {field : String → σ → Reader Error σ} {start last : σ}

theorem reads_once {name : String} {given : Option α} {reader : Reader Error α} {set : α → σ} {value : α}
    {next : σ} (puts : (if given.isSome then none else some (set value)) = some next)
    (reads : reader.Reads input value rest) :
    ((once name given reader).map set).Reads input next rest := by
  obtain ⟨free, filled⟩ := Option.ite_none_left_eq_some.mp puts
  cases filled
  rw [once, if_neg free]
  exact Reader.reads_map_iff.mpr ⟨value, reads, rfl⟩

theorem reads_ignored {draft : σ} {reader : Reader Error σ} (ignored : reader = skip.map fun _ => draft)
    (wellFormed : WellFormed front) (rest : Bytes) : reader.Reads (front ++ rest) draft rest := by
  rw [ignored]
  exact Reader.reads_map_iff.mpr ⟨(), reads_skip wellFormed rest, rfl⟩

/-- Fields are read one after the other, each putting in what it writes. -/
theorem folds_entries
    (reads : ∀ draft item next text, Writes item text → put draft item = some next →
      ∀ rest, (field (key item) draft).Reads (text ++ rest) next rest)
    {entries : List (WrittenItem α)}
    (keys : ∀ entry ∈ entries, WritesBytes (Bytes.ofString (key entry.item)) entry.keyText)
    (values : ∀ entry ∈ entries, Writes entry.item entry.valueText)
    (puts : (entries.map WrittenItem.item).foldlM put start = some last) (rest : Bytes) :
    Folds terminator (fun found => Typed.key.andThen fun name => field name found) start
      (entries.flatMap WrittenItem.text ++ terminator :: rest) last rest := by
  induction entries generalizing start with
  | nil =>
      cases puts
      exact .stop
  | cons entry entries ih =>
      rw [List.map_cons, List.foldlM_cons, Option.bind_eq_bind, Option.bind_eq_some_iff] at puts
      obtain ⟨next, first, further⟩ := puts
      have behind := ih (fun entry member => keys entry (by simp [member]))
        (fun entry member => values entry (by simp [member])) further
      have named := reads_key (keys entry (by simp))
        (entry.valueText ++ (entries.flatMap WrittenItem.text ++ terminator :: rest))
      have given := reads _ _ _ _ (values entry (by simp)) first
        (entries.flatMap WrittenItem.text ++ terminator :: rest)
      have both : (Typed.key.andThen fun name => field name start).Reads _ next _ :=
        Reader.reads_andThen_iff.mpr ⟨_, _, named, given⟩
      obtain ⟨byte, more, parted, other⟩ :=
        exists_eq_cons_of_reads_opening (reads_opening_bytes (keys entry (by simp))
          (entry.valueText ++ (entries.flatMap WrittenItem.text ++ terminator :: rest)))
      rw [List.flatMap_cons, WrittenItem.text, List.append_assoc, List.append_assoc, parted]
      rw [parted] at both
      exact .item other both behind

/-- A record is read if what it writes can be put in, and makes a value in the end. -/
theorem reads_record {next : Opening → Except Error (Reader.Next Error β)}
    {ofDraft : σ → Except Error β} {items : List α} {value : β}
    (enters : next .dict = .ok (.more ((fields field start).tryMap ofDraft)))
    (reads : ∀ draft item next text, Writes item text → put draft item = some next →
      ∀ rest, (field (key item) draft).Reads (text ++ rest) next rest)
    (writes : WritesRecord key Writes items front) (puts : items.foldlM put start = some last)
    (makes : ofDraft last = .ok value) (rest : Bytes) :
    (opening.follow next).Reads (front ++ rest) value rest := by
  cases writes with
  | @dict entries keys values =>
      have folds := folds_entries reads keys values puts rest
      have read : ((fields field start).tryMap ofDraft).Reads _ value rest :=
        Reader.reads_tryMap_iff.mpr ⟨last, Reader.reads_foldUntil_iff.mpr folds, makes⟩
      refine Reader.reads_follow_iff.mpr ⟨.dict, _, ?_, .inr ⟨_, enters, read⟩⟩
      simpa [terminator] using reads_opening_dict (entries.flatMap WrittenItem.text ++ terminator :: rest)

theorem foldlM_put_eq_self {items : List α} (idle : ∀ item ∈ items, put start item = some start) :
    items.foldlM put start = some start := by
  induction items with
  | nil => rfl
  | cons item items ih =>
      rw [List.foldlM_cons, idle item (by simp)]
      exact ih fun item member => idle item (by simp [member])

/-- Of two values under one key, the second is refused. -/
theorem bind_put_again {taken taken' : Prop} [Decidable taken] [Decidable taken'] {filled filled' : σ}
    {again again' : σ → Option σ} (full : again filled = none) (full' : again' filled' = none) :
    (if taken then none else some filled).bind again =
      (if taken' then none else some filled').bind again' := by
  by_cases here : taken <;> by_cases there : taken' <;> simp [here, there, full, full']

/-- Values under two keys do not touch each other. -/
theorem bind_put_comm {taken taken' : Prop} [Decidable taken] [Decidable taken'] {filled filled' both : σ}
    {other other' : σ → Option σ} (behind : other filled = if taken' then none else some both)
    (behind' : other' filled' = if taken then none else some both) :
    (if taken then none else some filled).bind other =
      (if taken' then none else some filled').bind other' := by
  by_cases here : taken <;> by_cases there : taken' <;> simp [here, there, behind, behind']

/-- Items may come in any order if it does not matter in which order two of them are put in. -/
theorem foldlM_put_eq_of_perm
    (commutes : ∀ draft item other, (put draft item).bind (put · other) = (put draft other).bind (put · item))
    {items others : List α} (perm : items.Perm others) (start : σ) :
    items.foldlM put start = others.foldlM put start := by
  induction perm generalizing start with
  | nil => rfl
  | cons item _ ih => simp [List.foldlM_cons, ih]
  | swap item other items =>
      simp only [List.foldlM_cons, Option.bind_eq_bind, ← Option.bind_assoc, commutes]
  | trans _ _ ih ih' => rw [ih, ih']

end records

end MetaExchange.Bencode.Typed
