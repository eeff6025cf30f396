import MetaExchange.Proofs.Bencode.Entries
import MetaExchange.Proofs.Bencode.Reads
import MetaExchange.Proofs.Text.Decimal

namespace MetaExchange.Bencode

open Numeral (IsDecimal decimal Sign)
open Reader (ReadsEach)

variable {around levels : Nat} {input front rest : Bytes} {found : Value}

/-- A key and a value as they stand in a dictionary, each with the bytes that it is written in. -/
structure WrittenEntry where
  keyText : Bytes
  key : Bytes
  valueText : Bytes
  value : Value

def WrittenEntry.text (entry : WrittenEntry) : Bytes := entry.keyText ++ entry.valueText

def WrittenEntry.pair (entry : WrittenEntry) : Bytes × Value := (entry.key, entry.value)

/-- Bytes that write a value which stands in so many containers. There may be no more of them than
`maxDepth`, around keys too. Of entries with one key, a dictionary holds the last. -/
inductive Derives : (around : Nat) → Bytes → Value → Prop where
  | int {around : Nat} {sign : Sign} {digits : Bytes} {number : Int64} (shallow : around ≤ maxDepth)
      (isDecimal : IsDecimal digits) (same : number.toInt = sign.apply (decimal digits)) :
      Derives around ('i'.toUInt8 :: (sign.text ++ digits ++ ['e'.toUInt8])) (.int number)
  | bytes {around : Nat} {digits content : Bytes} (shallow : around ≤ maxDepth)
      (isDecimal : IsDecimal digits) (measured : decimal digits = content.length)
      (short : content.length ≤ Numeral.maxUInt64) :
      Derives around (digits ++ ':'.toUInt8 :: content) (.bytes content)
  | list {around : Nat} {parts : List (Bytes × Value)} (shallow : around ≤ maxDepth)
      (items : ∀ part ∈ parts, Derives (around + 1) part.1 part.2) :
      Derives around ('l'.toUInt8 :: (parts.flatMap Prod.fst ++ ['e'.toUInt8]))
        (.list (parts.map Prod.snd))
  | dict {around : Nat} {written : List WrittenEntry} {held : List (Bytes × Value)}
      (shallow : around ≤ maxDepth)
      (keys : ∀ entry ∈ written, Derives (around + 1) entry.keyText (.bytes entry.key))
      (values : ∀ entry ∈ written, Derives (around + 1) entry.valueText entry.value)
      (ascending : Ascending held)
      (last : ∀ key, held.lookup key = (written.map WrittenEntry.pair).reverse.lookup key) :
      Derives around ('d'.toUInt8 :: (written.flatMap WrittenEntry.text ++ ['e'.toUInt8])) (.dict held)

theorem exists_derives_of_reads_integer (shallow : around ≤ maxDepth)
    (reads : integer.Reads input found rest) :
    ∃ front, 'i'.toUInt8 :: input = front ++ rest ∧ Derives around front found := by
  obtain ⟨text, number, rfl, _, known, rfl⟩ := reads_integer_iff.mp reads
  obtain ⟨sign, digits, rfl, isDecimal, same⟩ := Numeral.int64?_eq_some_iff.mp known
  exact ⟨_, by simp [terminator], .int shallow isDecimal same⟩

theorem exists_derives_of_reads_byteString {byte : UInt8} {more : Bytes} (shallow : around ≤ maxDepth)
    (isDigit : Numeral.IsDigit byte) (reads : byteString.Reads (byte :: more) found rest) :
    ∃ front, byte :: more = front ++ rest ∧ Derives around front found := by
  obtain ⟨content, measured, rfl⟩ := reads_byteString_iff.mp reads
  obtain ⟨digits, parted, _, known⟩ := reads_stringLength_iff.mp measured
  cases digits with
  | nil => cases known
  | cons code digits =>
      obtain ⟨rfl, rfl⟩ := List.cons.inj parted
      obtain ⟨isDecimal, measured, short⟩ := (Numeral.unsigned?_eq_some_iff isDigit).mp known
      exact ⟨_, by simp, .bytes shallow isDecimal measured short⟩

/-- What the reader of values finds at one level is derived. -/
def Sound (around levels : Nat) : Prop :=
  ∀ input found rest, (value levels).Reads input found rest →
    ∃ front, input = front ++ rest ∧ Derives around front found

theorem exists_derives_of_readsEach {items : List Value} (shallow : around ≤ maxDepth)
    (sound : Sound (around + 1) levels) (each : ReadsEach terminator (value levels) input items rest) :
    ∃ front, 'l'.toUInt8 :: input = front ++ rest ∧ Derives around front (.list items) := by
  have cut {input : Bytes} {found : Value} {rest : Bytes}
      (reads : (value levels).Reads input found rest) :
      ∃ part : Bytes × Value, Derives (around + 1) part.1 part.2 ∧ found = part.2 ∧
        input = part.1 ++ rest := by
    obtain ⟨front, parted, derives⟩ := sound _ _ _ reads
    exact ⟨(front, found), derives, rfl, parted⟩
  obtain ⟨parts, derives, rfl, rfl⟩ := each.exists_parts Prod.fst Prod.snd _ cut
  exact ⟨_, by simp [terminator], .list shallow derives⟩

theorem exists_derives_of_readsEach_entry {written : List (Bytes × Value)}
    (shallow : around ≤ maxDepth) (sound : Sound (around + 1) levels)
    (each : ReadsEach terminator (entry levels) input written rest) :
    ∃ front, 'd'.toUInt8 :: input = front ++ rest ∧
      Derives around front (.dict (entriesOf written)) := by
  have cut {input : Bytes} {found : Bytes × Value} {rest : Bytes}
      (reads : (entry levels).Reads input found rest) :
      ∃ part : WrittenEntry,
        (Derives (around + 1) part.keyText (.bytes part.key) ∧
          Derives (around + 1) part.valueText part.value) ∧
        found = part.pair ∧ input = part.text ++ rest := by
    obtain ⟨middle, readsKey, readsValue⟩ := reads_entry_iff.mp reads
    obtain ⟨keyText, rfl, derivesKey⟩ := sound _ _ _ readsKey
    obtain ⟨valueText, rfl, derivesValue⟩ := sound _ _ _ readsValue
    exact ⟨⟨keyText, found.1, valueText, found.2⟩, ⟨derivesKey, derivesValue⟩, rfl,
      by simp [WrittenEntry.text]⟩
  obtain ⟨parts, derives, rfl, rfl⟩ := each.exists_parts WrittenEntry.text WrittenEntry.pair _ cut
  refine ⟨_, ?_, .dict shallow (fun entry member => (derives entry member).1)
    (fun entry member => (derives entry member).2) (ascending_entriesOf _) (lookup_entriesOf _)⟩
  simp [terminator]

theorem sound_of_add_eq (left : around + levels = maxDepth + 1) : Sound around levels := by
  intro input found rest reads
  induction levels generalizing around input found rest with
  | zero =>
      obtain ⟨_, impossible, _⟩ := reads
      cases impossible
  | succ levels ih =>
      have shallow : around ≤ maxDepth := by omega
      have below : around + 1 + levels = maxDepth + 1 := by omega
      have sound : Sound (around + 1) levels := ih below
      obtain ⟨byte, more, rfl, _⟩ := exists_eq_cons_of_reads_value reads
      by_cases isInt : byte = 'i'.toUInt8
      · subst isInt
        exact exists_derives_of_reads_integer shallow (reads_value_int_iff.mp reads)
      by_cases isList : byte = 'l'.toUInt8
      · subst isList
        obtain ⟨items, each, rfl⟩ := reads_value_list_iff.mp reads
        exact exists_derives_of_readsEach shallow sound each
      by_cases isDict : byte = 'd'.toUInt8
      · subst isDict
        obtain ⟨written, each, rfl⟩ := reads_value_dict_iff.mp reads
        exact exists_derives_of_readsEach_entry shallow sound each
      by_cases isDigit : (Numeral.digit? byte).isSome = true
      · exact exists_derives_of_reads_byteString shallow (Numeral.isSome_digit?_iff.mp isDigit)
          ((reads_value_bytes_iff isDigit).mp reads)
      · obtain ⟨_, impossible, _⟩ := reads
        simp [value, isInt, isList, isDict, isDigit] at impossible

theorem terminator_not_mem_signed (sign : Sign) {digits : Bytes} (isDecimal : IsDecimal digits) :
    terminator ∉ sign.text ++ digits := by
  have before : terminator ∉ sign.text := by cases sign <;> decide
  have behind : terminator ∉ digits := isDecimal.not_mem (by decide)
  simp [before, behind]

theorem reads_signed {sign : Sign} {digits : Bytes} {number : Int64} (isDecimal : IsDecimal digits)
    (same : number.toInt = sign.apply (decimal digits)) (rest : Bytes) :
    integer.Reads (sign.text ++ digits ++ terminator :: rest) (.int number) rest := by
  have known : Numeral.int64? (sign.text ++ digits) = some number :=
    Numeral.int64?_eq_some_iff.mpr ⟨sign, digits, rfl, isDecimal, same⟩
  exact reads_integer_iff.mpr ⟨_, number, rfl, terminator_not_mem_signed sign isDecimal, known, rfl⟩

theorem reads_counted {digits content : Bytes} (isDecimal : IsDecimal digits)
    (measured : decimal digits = content.length) (short : content.length ≤ Numeral.maxUInt64)
    (rest : Bytes) :
    (value (levels + 1)).Reads (digits ++ ':'.toUInt8 :: (content ++ rest)) (.bytes content) rest := by
  have ends : ':'.toUInt8 ∉ digits := isDecimal.not_mem (by decide)
  obtain ⟨byte, more, rfl, isDigit⟩ := isDecimal.exists_eq_cons
  have known := (Numeral.unsigned?_eq_some_iff isDigit).mpr ⟨isDecimal, measured, short⟩
  rw [List.cons_append, reads_value_bytes_iff (Numeral.isSome_digit?_iff.mpr isDigit)]
  exact reads_byteString_iff.mpr ⟨content, reads_stringLength_iff.mpr ⟨_, rfl, ends, known⟩, rfl⟩

theorem reads_of_derives (derives : Derives around front found) (left : around + levels = maxDepth + 1)
    (rest : Bytes) : (value levels).Reads (front ++ rest) found rest := by
  -- A value that is derived stands in few enough containers, so that a level is left to it.
  have exists_succ {around levels : Nat} (shallow : around ≤ maxDepth)
      (left : around + levels = maxDepth + 1) :
      ∃ below, levels = below + 1 ∧ around + 1 + below = maxDepth + 1 :=
    ⟨levels - 1, by omega, by omega⟩
  induction derives generalizing levels rest with
  | int shallow isDecimal same =>
      obtain ⟨below, rfl, _⟩ := exists_succ shallow left
      rw [List.cons_append, reads_value_int_iff]
      simpa [terminator] using reads_signed isDecimal same rest
  | bytes shallow isDecimal measured short =>
      obtain ⟨below, rfl, _⟩ := exists_succ shallow left
      simpa using reads_counted isDecimal measured short rest
  | @list around parts shallow items ih =>
      obtain ⟨below, rfl, deeper⟩ := exists_succ shallow left
      have each : ReadsEach terminator (value below) (parts.flatMap Prod.fst ++ terminator :: rest)
          (parts.map Prod.snd) rest :=
        Reader.readsEach_flatMap exists_eq_cons_of_reads_value
          (fun part member rest => ih part member deeper rest) rest
      rw [List.cons_append, reads_value_list_iff]
      exact ⟨_, by simpa [terminator] using each, rfl⟩
  | @dict around written held shallow keys values ascending last ihKeys ihValues =>
      obtain ⟨below, rfl, deeper⟩ := exists_succ shallow left
      have each : ReadsEach terminator (entry below)
          (written.flatMap WrittenEntry.text ++ terminator :: rest) (written.map WrittenEntry.pair)
          rest := by
        refine Reader.readsEach_flatMap exists_eq_cons_of_reads_entry ?_ rest
        intro part member rest
        have readsKey := ihKeys part member deeper (part.valueText ++ rest)
        rw [WrittenEntry.text, List.append_assoc]
        exact reads_entry_iff.mpr ⟨_, readsKey, ihValues part member deeper rest⟩
      rw [List.cons_append, reads_value_dict_iff]
      exact ⟨_, by simpa [terminator] using each, by rw [entriesOf_eq_of_lookup ascending last]⟩

theorem decode_eq_ok_iff_reads {data : Bytes} :
    decode data = .ok (found, rest) ↔ (value (maxDepth + 1)).Reads data found rest := by
  unfold decode Reader.Reads
  cases value (maxDepth + 1) data with
  | error cause => simp
  | ok reading => simp

theorem decode_eq_ok_iff {data : Bytes} :
    decode data = .ok (found, rest) ↔ ∃ front, data = front ++ rest ∧ Derives 0 front found := by
  rw [decode_eq_ok_iff_reads]
  constructor
  · intro reads
    exact sound_of_add_eq (Nat.zero_add _) _ _ _ reads
  · intro given
    obtain ⟨front, rfl, derives⟩ := given
    exact reads_of_derives derives (Nat.zero_add _) rest

theorem decode_of_derives (derives : Derives 0 front found) (tail : Bytes) :
    decode (front ++ tail) = .ok (found, tail) :=
  decode_eq_ok_iff.mpr ⟨front, rfl, derives⟩

/-- What is derived does not start with anything shorter that is derived. -/
theorem eq_of_derives_append {more : Bytes} {other : Value} (derives : Derives 0 front found)
    (whole : Derives 0 (front ++ more) other) : more = [] := by
  have left := decode_of_derives derives more
  have none := decode_of_derives whole []
  rw [List.append_nil, left] at none
  cases none
  rfl

theorem exists_error_of_prefix {short : Bytes} (derives : Derives 0 front found)
    (starts : short <+: front) (proper : short ≠ front) : ∃ cause, decode short = .error cause := by
  cases result : decode short with
  | error cause => exact ⟨cause, rfl⟩
  | ok taken =>
      obtain ⟨value, left⟩ := taken
      obtain ⟨inner, rfl, within⟩ := decode_eq_ok_iff.mp result
      obtain ⟨more, rfl⟩ := starts
      rw [List.append_assoc] at derives
      obtain ⟨rfl, rfl⟩ := List.append_eq_nil_iff.mp (eq_of_derives_append within derives)
      simp at proper

/-- The decoder takes from the front of the data what the grammar derives, with the value that it derives,
and fails on all other data. What it finds depends only on the bytes that it takes, and nothing shorter
than they are would do. -/
theorem decode_derives (data : Bytes) :
    (∀ value rest, decode data = .ok (value, rest) ↔
      ∃ front, data = front ++ rest ∧ Derives 0 front value) ∧
    ((∃ cause, decode data = .error cause) ↔
      ¬ ∃ front rest value, data = front ++ rest ∧ Derives 0 front value) ∧
    ∀ value rest, decode data = .ok (value, rest) →
      ∃ front, data = front ++ rest ∧ (∀ tail, decode (front ++ tail) = .ok (value, tail)) ∧
        ∀ short, short <+: front → short ≠ front → ∃ cause, decode short = .error cause := by
  refine ⟨fun value rest => decode_eq_ok_iff, ?_, ?_⟩
  · constructor
    · intro failed derived
      obtain ⟨cause, failed⟩ := failed
      obtain ⟨front, rest, value, parted, derives⟩ := derived
      rw [decode_eq_ok_iff.mpr ⟨front, parted, derives⟩] at failed
      cases failed
    · intro underivable
      cases result : decode data with
      | error cause => exact ⟨cause, rfl⟩
      | ok taken =>
          obtain ⟨front, parted, derives⟩ := decode_eq_ok_iff.mp result
          exact absurd ⟨front, _, _, parted, derives⟩ underivable
  · intro value rest taken
    obtain ⟨front, parted, derives⟩ := decode_eq_ok_iff.mp taken
    exact ⟨front, parted, decode_of_derives derives, fun short => exists_error_of_prefix derives⟩

example : decode (Bytes.ofString "i-00ei1e") = .ok (.int 0, Bytes.ofString "i1e") := rfl

end MetaExchange.Bencode
