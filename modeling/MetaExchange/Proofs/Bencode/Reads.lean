import MetaExchange.Bencode.Decoder
import MetaExchange.Proofs.Bytes.Reads
import MetaExchange.Proofs.Text.Numeral

namespace MetaExchange.Bencode

open Reader (Reads ReadsEach)

variable {levels : Nat} {input rest : Bytes} {found : Value}

def entry (levels : Nat) : Reader Error (Bytes × Value) :=
  ((value levels).tryMap keyOf).andThen fun key => (value levels).map (key, ·)

theorem reads_integer_iff :
    integer.Reads input found rest ↔
      ∃ digits number, input = digits ++ terminator :: rest ∧ terminator ∉ digits ∧
        Numeral.int64? digits = some number ∧ found = .int number := by
  unfold integer
  rw [Reader.reads_tryMap_iff]
  constructor
  · intro given
    obtain ⟨digits, reads, accepted⟩ := given
    obtain ⟨parts, absent⟩ := Reader.reads_upTo_iff.mp reads
    split at accepted
    · cases accepted
    · next number known =>
        cases accepted
        exact ⟨digits, number, parts, absent, known, rfl⟩
  · intro given
    obtain ⟨digits, number, parts, absent, known, rfl⟩ := given
    exact ⟨digits, Reader.reads_upTo_iff.mpr ⟨parts, absent⟩, by rw [known]⟩

theorem reads_stringLength_iff {length : Nat} :
    stringLength.Reads input length rest ↔
      ∃ digits, input = digits ++ ':'.toUInt8 :: rest ∧ ':'.toUInt8 ∉ digits ∧
        Numeral.unsigned? Numeral.maxUInt64 digits = some length := by
  unfold stringLength
  rw [Reader.reads_tryMap_iff]
  constructor
  · intro given
    obtain ⟨digits, reads, accepted⟩ := given
    obtain ⟨parts, absent⟩ := Reader.reads_upTo_iff.mp reads
    split at accepted
    · cases accepted
    · next known =>
        cases accepted
        exact ⟨digits, parts, absent, known⟩
  · intro given
    obtain ⟨digits, parts, absent, known⟩ := given
    exact ⟨digits, Reader.reads_upTo_iff.mpr ⟨parts, absent⟩, by rw [known]⟩

theorem reads_byteString_iff :
    byteString.Reads input found rest ↔
      ∃ content, stringLength.Reads input content.length (content ++ rest) ∧ found = .bytes content := by
  constructor
  · intro given
    obtain ⟨reading, accepted, rfl, rfl⟩ := given
    unfold byteString at accepted
    split at accepted
    · cases accepted
    · next length measured =>
        split at accepted
        · cases accepted
        · next content taken =>
            cases accepted
            obtain ⟨parts, sized⟩ := Reader.takeBehind_iff.mp ⟨content, taken, rfl, rfl⟩
            exact ⟨content.value, ⟨length, measured, sized.symm, parts⟩, rfl⟩
  · intro given
    obtain ⟨content, ⟨length, measured, sized, parts⟩, rfl⟩ := given
    obtain ⟨taken, found, rfl, rfl⟩ := Reader.takeBehind_iff.mpr ⟨parts, sized.symm⟩
    exact ⟨taken.withValue (.bytes taken.value), by simp [byteString, measured, found], rfl, rfl⟩

theorem reads_value_int_iff :
    (value (levels + 1)).Reads ('i'.toUInt8 :: input) found rest ↔ integer.Reads input found rest :=
  Reader.reads_behind_iff rfl

theorem reads_value_list_iff :
    (value (levels + 1)).Reads ('l'.toUInt8 :: input) found rest ↔
      ∃ items, ReadsEach terminator (value levels) input items rest ∧ found = .list items := by
  have behind : (value (levels + 1)).Reads ('l'.toUInt8 :: input) found rest ↔
      ((Reader.many terminator .unterminatedList (value levels)).map Value.list).Reads input found
        rest :=
    Reader.reads_behind_iff rfl
  rw [behind, Reader.reads_map_iff]
  simp only [Reader.reads_many_iff, eq_comm]

theorem reads_value_dict_iff :
    (value (levels + 1)).Reads ('d'.toUInt8 :: input) found rest ↔
      ∃ written, ReadsEach terminator (entry levels) input written rest ∧
        found = .dict (entriesOf written) := by
  have behind : (value (levels + 1)).Reads ('d'.toUInt8 :: input) found rest ↔
      ((Reader.many terminator .unterminatedDictionary (entry levels)).map
        (.dict ∘ entriesOf)).Reads input found rest :=
    Reader.reads_behind_iff rfl
  rw [behind, Reader.reads_map_iff]
  simp only [Reader.reads_many_iff, Function.comp_apply, eq_comm]

theorem reads_value_bytes_iff {byte : UInt8} (isDigit : (Numeral.digit? byte).isSome = true) :
    (value (levels + 1)).Reads (byte :: input) found rest ↔
      byteString.Reads (byte :: input) found rest := by
  have noInt : byte ≠ 'i'.toUInt8 := Numeral.ne_of_digit? isDigit (by decide)
  have noList : byte ≠ 'l'.toUInt8 := Numeral.ne_of_digit? isDigit (by decide)
  have noDict : byte ≠ 'd'.toUInt8 := Numeral.ne_of_digit? isDigit (by decide)
  unfold Reads
  simp only [value, noInt, noList, noDict, isDigit, ↓reduceIte]

/-- A value starts with a byte that ends no container. -/
theorem exists_eq_cons_of_reads_value (reads : (value levels).Reads input found rest) :
    ∃ byte more, input = byte :: more ∧ byte ≠ terminator := by
  obtain ⟨reading, accepted, _⟩ := reads
  cases levels with
  | zero => simp [value] at accepted
  | succ levels =>
      cases input with
      | nil => simp [value] at accepted
      | cons byte more =>
          refine ⟨byte, more, rfl, ?_⟩
          intro same
          subst same
          cases accepted

theorem reads_entry_iff {key : Bytes} :
    (entry levels).Reads input (key, found) rest ↔
      ∃ middle, (value levels).Reads input (.bytes key) middle ∧
        (value levels).Reads middle found rest := by
  unfold entry
  rw [Reader.reads_andThen_iff]
  constructor
  · intro given
    obtain ⟨other, middle, readsKey, readsValue⟩ := given
    obtain ⟨keyValue, readsKey, isKey⟩ := Reader.reads_tryMap_iff.mp readsKey
    obtain ⟨_, readsValue, same⟩ := Reader.reads_map_iff.mp readsValue
    cases same
    cases keyValue with
    | bytes content =>
        cases isKey
        exact ⟨middle, readsKey, readsValue⟩
    | _ => cases isKey
  · intro given
    obtain ⟨middle, readsKey, readsValue⟩ := given
    exact ⟨key, middle, Reader.reads_tryMap_iff.mpr ⟨_, readsKey, rfl⟩,
      Reader.reads_map_iff.mpr ⟨found, readsValue, rfl⟩⟩

theorem exists_eq_cons_of_reads_entry {pair : Bytes × Value}
    (reads : (entry levels).Reads input pair rest) :
    ∃ byte more, input = byte :: more ∧ byte ≠ terminator := by
  obtain ⟨middle, readsKey, _⟩ := reads_entry_iff.mp reads
  exact exists_eq_cons_of_reads_value readsKey

end MetaExchange.Bencode
