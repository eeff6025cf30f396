import Mathlib.Data.List.Basic
import Mathlib.Tactic.IntervalCases
import MetaExchange.Text.Utf8

namespace MetaExchange.Utf8

variable {owed value number bits : Nat} {byte low high : UInt8} {bytes more rest : Bytes} {lead : Lead}
  {character : Char}

/-- A byte that is owed, in the range that is expected of it, gives six bits. -/
theorem continuation_ofNat (within : number < 256) (lower : low.toNat ≤ number)
    (upper : number ≤ high.toNat) :
    continuation (owed + 1) low high value (UInt8.ofNat number :: rest) =
      continuation owed 0x80 0xbf (value * 64 + (number - 128)) rest := by
  have same : (UInt8.ofNat number).toNat = number := UInt8.toNat_ofNat_of_lt within
  have inside : low ≤ UInt8.ofNat number ∧ UInt8.ofNat number ≤ high := by
    rw [UInt8.le_iff_toNat_le, UInt8.le_iff_toNat_le, same]
    exact ⟨lower, upper⟩
  rw [continuation, if_pos inside, same]

/-- The lowest six bits of a number follow those above them. -/
theorem continuation_six (lower : low.toNat ≤ number % 64 + 128) (upper : number % 64 + 128 ≤ high.toNat) :
    continuation (owed + 1) low high (number / 64) (UInt8.ofNat (number % 64 + 128) :: rest) =
      continuation owed 0x80 0xbf number rest := by
  have whole : number / 64 * 64 + (number % 64 + 128 - 128) = number := by omega
  rw [continuation_ofNat (by omega) lower upper, whole]

theorem continuation_next :
    continuation (owed + 1) 0x80 0xbf (number / 64) (UInt8.ofNat (number % 64 + 128) :: rest) =
      continuation owed 0x80 0xbf number rest := by
  have lower : (0x80 : UInt8).toNat = 128 := rfl
  have upper : (0xbf : UInt8).toNat = 191 := rfl
  exact continuation_six (by omega) (by omega)

theorem unit_of_small (small : number < 128) :
    unit (UInt8.ofNat number) rest = (some (Char.ofNat number), rest) := by
  have within : number < 256 := by omega
  have same : (UInt8.ofNat number).toNat = number := UInt8.toNat_ofNat_of_lt within
  have ascii : UInt8.ofNat number < 0x80 := by
    rw [UInt8.lt_iff_toNat_lt, same]
    exact small
  rw [unit, if_pos ascii, same]

theorem unit_of_lead (leads : lead? byte = some lead ∧ ¬byte < 0x80)
    (complete : continuation lead.owed lead.low lead.high lead.bits more = (some number, rest)) :
    unit byte more = (some (Char.ofNat number), rest) := by
  simp [unit, leads, complete]

theorem lead?_two (lower : 2 ≤ bits) (upper : bits < 32) :
    lead? (UInt8.ofNat (bits + 192)) = some ⟨0x80, 0xbf, 1, bits⟩ ∧ ¬UInt8.ofNat (bits + 192) < 0x80 := by
  interval_cases bits <;> exact ⟨rfl, by decide⟩

/-- The ranges behind the first byte leave out overlong forms and surrogates. -/
theorem lead?_three (upper : bits < 16) :
    lead? (UInt8.ofNat (bits + 224)) =
      some ⟨if bits = 0 then 0xa0 else 0x80, if bits = 13 then 0x9f else 0xbf, 2, bits⟩ ∧
    ¬UInt8.ofNat (bits + 224) < 0x80 := by
  interval_cases bits <;> exact ⟨rfl, by decide⟩

/-- The ranges behind the first byte leave out overlong forms and what lies above U+10FFFF. -/
theorem lead?_four (upper : bits < 5) :
    lead? (UInt8.ofNat (bits + 240)) =
      some ⟨if bits = 0 then 0x90 else 0x80, if bits = 4 then 0x8f else 0xbf, 3, bits⟩ ∧
    ¬UInt8.ofNat (bits + 240) < 0x80 := by
  interval_cases bits <;> exact ⟨rfl, by decide⟩

theorem unit_two (lower : 128 ≤ number) (upper : number < 2048) :
    unit (UInt8.ofNat (number / 64 % 32 + 192)) (UInt8.ofNat (number % 64 + 128) :: rest) =
      (some (Char.ofNat number), rest) := by
  have bits : number / 64 % 32 = number / 64 := by omega
  rw [bits]
  exact unit_of_lead (lead?_two (by omega) (by omega)) continuation_next

theorem unit_three (lower : 2048 ≤ number) (upper : number < 65536)
    (character : number < 0xd800 ∨ 0xdfff < number) :
    unit (UInt8.ofNat (number / 4096 % 16 + 224))
        (UInt8.ofNat (number / 64 % 64 + 128) :: UInt8.ofNat (number % 64 + 128) :: rest) =
      (some (Char.ofNat number), rest) := by
  have bits : number / 4096 % 16 = number / 64 / 64 := by omega
  rw [bits]
  refine unit_of_lead (lead?_three (by omega)) ?_
  have low : (if number / 64 / 64 = 0 then 0xa0 else 0x80 : UInt8).toNat ≤ number / 64 % 64 + 128 := by
    split
    · simp only [UInt8.reduceToNat]
      omega
    · simp
  have high : number / 64 % 64 + 128 ≤ (if number / 64 / 64 = 13 then 0x9f else 0xbf : UInt8).toNat := by
    split
    · simp only [UInt8.reduceToNat]
      omega
    · simp only [UInt8.reduceToNat]
      omega
  rw [continuation_six low high, continuation_next]
  rfl

theorem unit_four (lower : 65536 ≤ number) (upper : number < 0x110000) :
    unit (UInt8.ofNat (number / 262144 % 8 + 240))
        (UInt8.ofNat (number / 4096 % 64 + 128) :: UInt8.ofNat (number / 64 % 64 + 128) ::
          UInt8.ofNat (number % 64 + 128) :: rest) =
      (some (Char.ofNat number), rest) := by
  have bits : number / 262144 % 8 = number / 64 / 64 / 64 := by omega
  have middle : number / 4096 = number / 64 / 64 := by omega
  rw [bits, middle]
  refine unit_of_lead (lead?_four (by omega)) ?_
  have low : (if number / 64 / 64 / 64 = 0 then 0x90 else 0x80 : UInt8).toNat ≤
      number / 64 / 64 % 64 + 128 := by
    split
    · simp only [UInt8.reduceToNat]
      omega
    · simp
  have high : number / 64 / 64 % 64 + 128 ≤
      (if number / 64 / 64 / 64 = 4 then 0x8f else 0xbf : UInt8).toNat := by
    split
    · simp only [UInt8.reduceToNat]
      omega
    · simp only [UInt8.reduceToNat]
      omega
  rw [continuation_six low high, continuation_next, continuation_next]
  rfl

theorem units_of_unit (read : unit byte more = (some (Char.ofNat character.toNat), rest)) :
    units (byte :: more) = some character :: units rest := by
  rw [units_cons, read, Char.ofNat_toNat]

/-- The bytes of a character are one unit, whatever follows them. -/
theorem units_utf8EncodeChar_append (character : Char) (rest : Bytes) :
    units (String.utf8EncodeChar character ++ rest) = some character :: units rest := by
  have valid : character.toNat < 0xd800 ∨ 0xdfff < character.toNat ∧ character.toNat < 0x110000 :=
    character.valid
  simp only [String.utf8EncodeChar, Char.toNat_val]
  -- The cases are those of the encoding, by the number of bytes that it takes.
  split
  · exact units_of_unit (unit_of_small (by omega))
  · split
    · exact units_of_unit (unit_two (by omega) (by omega))
    · split
      · exact units_of_unit (unit_three (by omega) (by omega) (by omega))
      · exact units_of_unit (unit_four (by omega) (by omega))

theorem units_ofString (text : String) : units (Bytes.ofString text) = text.toList.map some := by
  unfold Bytes.ofString
  induction text.toList with
  | nil => exact units_nil
  | cons character characters ih =>
      rw [List.flatMap_cons, units_utf8EncodeChar_append, ih, List.map_cons]

theorem decode?_of_units {characters : List Char} (read : units bytes = characters.map some) :
    decode? bytes = some (String.ofList characters) := by
  have each : (characters.map some).mapM id = some characters := by
    clear read
    induction characters with
    | nil => rfl
    | cons character characters ih => simp [ih]
  rw [decode?, read, each, Option.map_some]

theorem decode?_ofString (text : String) : decode? (Bytes.ofString text) = some text := by
  rw [decode?_of_units (units_ofString text), String.ofList_toList]

theorem units_of_ascii (ascii : ∀ byte ∈ bytes, byte < 0x80) :
    units bytes = (bytes.map fun byte => Char.ofNat byte.toNat).map some := by
  induction bytes with
  | nil => exact units_nil
  | cons byte bytes ih =>
      have first : unit byte bytes = (some (Char.ofNat byte.toNat), bytes) :=
        if_pos (ascii byte (by simp))
      rw [units_cons, first, ih fun byte member => ascii byte (by simp [member])]
      rfl

theorem isSome_decode?_of_ascii (ascii : ∀ byte ∈ bytes, byte < 0x80) :
    (decode? bytes).isSome = true := by
  rw [decode?_of_units (units_of_ascii ascii)]
  rfl

/-- A text whose bytes are ASCII has a character for each of them. -/
theorem toList_of_ascii {text : String} (ascii : ∀ byte ∈ Bytes.ofString text, byte < 0x80) :
    text.toList = (Bytes.ofString text).map fun byte => Char.ofNat byte.toNat := by
  have read := units_of_ascii ascii
  rw [units_ofString] at read
  exact List.map_injective_iff.mpr (Option.some_injective _) read

/-- ASCII characters have a byte each. -/
theorem encode_of_ascii {characters : List Char} (ascii : ∀ c ∈ characters, c.toNat < 0x80) :
    characters.flatMap String.utf8EncodeChar = characters.map Char.toUInt8 := by
  induction characters with
  | nil => rfl
  | cons c characters ih =>
      have small : c.utf8Size = 1 := by
        rw [Char.utf8Size_eq_one_iff, UInt32.le_iff_toNat_le]
        exact Nat.le_of_lt_succ (ascii c (by simp))
      rw [List.flatMap_cons, String.utf8EncodeChar_eq_singleton small,
        ih fun c member => ascii c (by simp [member])]
      rfl

theorem ofNat_toUInt8 (ascii : character.toNat < 0x80) :
    Char.ofNat character.toUInt8.toNat = character := by
  have same : character.toUInt8.toNat = character.toNat := by
    rw [Char.toUInt8, UInt32.toNat_toUInt8]
    exact Nat.mod_eq_of_lt (Nat.lt_trans ascii (by decide))
  rw [same, Char.ofNat_toNat]

theorem toUInt8_inj_of_ascii {other : Char} (ascii : character.toNat < 0x80)
    (asciiOther : other.toNat < 0x80) :
    character.toUInt8 = other.toUInt8 ↔ character = other := by
  refine ⟨fun same => ?_, congrArg Char.toUInt8⟩
  rw [← ofNat_toUInt8 ascii, same, ofNat_toUInt8 asciiOther]

theorem lossy_ofString (text : String) : lossy (Bytes.ofString text) = text := by
  have kept : (text.toList.map some).map (·.getD (Char.ofNat 0xfffd)) = text.toList := by
    simp [Function.comp_def]
  rw [lossy, units_ofString, kept, String.ofList_toList]

end MetaExchange.Utf8
