import MetaExchange.Bytes.Hex
import MetaExchange.Proofs.Outcome
import MetaExchange.Proofs.Text.Utf8

namespace MetaExchange.Hex

def isDigit (c : Char) : Bool :=
  ('0' ≤ c && c ≤ '9') || ('a' ≤ c && c ≤ 'f') || ('A' ≤ c && c ≤ 'F')

variable {c : Char} {code high low : UInt8} {codes bytes rest : Bytes} {characters : List Char}
  {value position : Nat}

def lowered (code : UInt8) : Char := (Char.ofNat code.toNat).toLower

theorem forall_of_lt {motive : UInt8 → Prop} (each : ∀ number < 256, motive (UInt8.ofNat number))
    (code : UInt8) : motive code := by
  have here := each code.toNat code.toNat_lt
  rwa [UInt8.ofNat_toNat] at here

theorem forall_of_ascii {motive : Char → Prop} (each : ∀ number < 0x80, motive (Char.ofNat number))
    (c : Char) (ascii : c.toNat < 0x80) : motive c := by
  have here := each c.toNat ascii
  rwa [Char.ofNat_toNat] at here

theorem value?_lt (found : value? code = some value) : value < 16 := by
  have each : ∀ code : UInt8, ∀ value ∈ value? code, value < 16 := forall_of_lt (by decide +kernel)
  exact each code value found

theorem value?_eq_some_iff : value? code = some value ↔ value < 16 ∧ lowered code = digit value := by
  have each : ∀ code : UInt8, ∀ value < 16, value? code = some value ↔ lowered code = digit value :=
    forall_of_lt (by decide +kernel)
  refine ⟨fun found => ?_, fun given => (each code value given.1).mpr given.2⟩
  have small := value?_lt found
  exact ⟨small, (each code value small).mp found⟩

theorem lt_of_value? (found : value? code = some value) : code < 0x80 := by
  have each : ∀ code : UInt8, value? code ≠ none → code < 0x80 := forall_of_lt (by decide +kernel)
  exact each code (by simp [found])

/-- The characters that write bytes, two for each of them. -/
def digits (bytes : Bytes) : List Char :=
  bytes.flatMap fun byte => [digit (byte.toNat / 16), digit (byte.toNat % 16)]

theorem toList_encode (bytes : Bytes) : (encode bytes).toList = digits bytes := String.toList_ofList

@[simp] theorem length_digits (bytes : Bytes) : (digits bytes).length = bytes.length * 2 := by
  rw [digits, List.length_flatMap]
  simp only [List.length_cons, List.length_nil, List.map_const', List.sum_replicate_nat]

theorem digits_cons_ofNat {h l : Nat} (smallHigh : h < 16) (smallLow : l < 16) (more : Bytes) :
    digits (UInt8.ofNat (h * 16 + l) :: more) = digit h :: digit l :: digits more := by
  have within : h * 16 + l < 256 := by omega
  have number : (UInt8.ofNat (h * 16 + l)).toNat = h * 16 + l := UInt8.toNat_ofNat_of_lt within
  have upper : (h * 16 + l) / 16 = h := by omega
  have lower : (h * 16 + l) % 16 = l := by omega
  rw [digits, List.flatMap_cons, number, upper, lower]
  rfl

theorem exists_of_mem_digits (member : c ∈ digits bytes) : ∃ value < 16, c = digit value := by
  obtain ⟨byte, _, here⟩ := List.mem_flatMap.mp member
  have within := byte.toNat_lt
  rcases List.mem_cons.mp here with rfl | other
  · exact ⟨byte.toNat / 16, by omega, rfl⟩
  · exact ⟨byte.toNat % 16, by omega, List.mem_singleton.mp other⟩

theorem map_lowered_cons_iff :
    (high :: low :: rest).map lowered = digits bytes ↔
      ∃ h l more, value? high = some h ∧ value? low = some l ∧
        bytes = UInt8.ofNat (h * 16 + l) :: more ∧ rest.map lowered = digits more := by
  cases bytes with
  | nil => simp [digits]
  | cons byte more =>
      refine ⟨fun given => ?_, fun given => ?_⟩
      · obtain ⟨first, others⟩ := List.cons.inj given
        obtain ⟨second, others⟩ := List.cons.inj others
        have within := byte.toNat_lt
        have whole : byte.toNat / 16 * 16 + byte.toNat % 16 = byte.toNat := by omega
        refine ⟨byte.toNat / 16, byte.toNat % 16, more, value?_eq_some_iff.mpr ⟨by omega, first⟩,
          value?_eq_some_iff.mpr ⟨by omega, second⟩, ?_, others⟩
        rw [whole, UInt8.ofNat_toNat]
      · obtain ⟨h, l, _, foundHigh, foundLow, ⟨rfl, rfl⟩, others⟩ := given
        obtain ⟨smallHigh, first⟩ := value?_eq_some_iff.mp foundHigh
        obtain ⟨smallLow, second⟩ := value?_eq_some_iff.mp foundLow
        rw [digits_cons_ofNat smallHigh smallLow, List.map_cons, List.map_cons, first, second, others]

theorem decodePairs_eq_ok_iff (even : codes.length % 2 = 0) :
    decodePairs position codes = .ok bytes ↔ codes.map lowered = digits bytes := by
  induction position, codes using decodePairs.induct generalizing bytes with
  | case1 position high low rest noDigit =>
      rw [map_lowered_cons_iff]
      simp [decodePairs, noDigit]
  | case2 position high low rest h noDigit found =>
      rw [map_lowered_cons_iff]
      simp [decodePairs, noDigit, found]
  | case3 position high low rest h l foundLow foundHigh ih =>
      have evenRest : rest.length % 2 = 0 := by
        simp only [List.length_cons] at even
        omega
      rw [map_lowered_cons_iff]
      simp only [decodePairs, foundLow, foundHigh, Except.map_eq_ok_iff, ih evenRest]
      refine ⟨fun given => ?_, fun given => ?_⟩
      · obtain ⟨more, written, rfl⟩ := given
        exact ⟨h, l, more, rfl, rfl, rfl, written⟩
      · obtain ⟨_, _, more, ⟨rfl⟩, ⟨rfl⟩, rfl, written⟩ := given
        exact ⟨more, written, rfl⟩
  | case4 codes position few =>
      match codes with
      | [] => cases bytes <;> simp [decodePairs, digits]
      | [code] => simp at even
      | high :: low :: rest => exact absurd rfl (few high low rest)

theorem lt_of_toLower (small : value < 16) (written : c.toLower = digit value) : c.toNat < 0x80 := by
  have ascii : ∀ value < 16, (digit value).toNat < 0x80 := by decide
  unfold Char.toLower at written
  split at written
  · next upper =>
      have last : c.toNat ≤ 'Z'.toNat := upper.2
      exact Nat.lt_of_le_of_lt last (by decide)
  · rw [written]
    exact ascii value small

theorem value?_toUInt8 (small : value < 16) (written : c.toLower = digit value) :
    value? c.toUInt8 = some value := by
  have same : lowered c.toUInt8 = c.toLower :=
    congrArg Char.toLower (Utf8.ofNat_toUInt8 (lt_of_toLower small written))
  exact value?_eq_some_iff.mpr ⟨small, same.trans written⟩

theorem lt_of_isDigit (digit : isDigit c = true) : c.toNat < 0x80 := by
  simp only [isDigit, Bool.or_eq_true, Bool.and_eq_true, decide_eq_true_eq, Char.le_def,
    UInt32.le_iff_toNat_le] at digit
  have bounds : '9'.val.toNat = 57 ∧ 'f'.val.toNat = 102 ∧ 'F'.val.toNat = 70 := by decide
  have number : c.toNat = c.val.toNat := rfl
  omega

theorem isDigit_iff : isDigit c = true ↔ ∃ value < 16, c.toLower = digit value := by
  have each : ∀ c : Char, c.toNat < 0x80 →
      (isDigit c = true ↔ ∃ value < 16, c.toLower = digit value) :=
    forall_of_ascii (by decide +kernel)
  refine ⟨fun isDigit => (each c (lt_of_isDigit isDigit)).mp isDigit, fun given => ?_⟩
  obtain ⟨value, small, written⟩ := given
  exact (each c (lt_of_toLower small written)).mpr ⟨value, small, written⟩

theorem length_of_map_toLower (written : characters.map Char.toLower = digits bytes) :
    characters.length = bytes.length * 2 := by
  rw [← List.length_map (f := Char.toLower), written, length_digits]

theorem isDigit_of_map_toLower (written : characters.map Char.toLower = digits bytes) :
    ∀ c ∈ characters, isDigit c = true := by
  intro c member
  have digit : c.toLower ∈ digits bytes := by
    rw [← written]
    exact List.mem_map_of_mem member
  exact isDigit_iff.mpr (exists_of_mem_digits digit)

theorem ascii_of_map_toLower (written : characters.map Char.toLower = digits bytes) :
    ∀ c ∈ characters, c.toNat < 0x80 := fun c member =>
  lt_of_isDigit (isDigit_of_map_toLower written c member)

theorem ofString_of_map_toLower (written : characters.map Char.toLower = digits bytes) :
    Bytes.ofString (String.ofList characters) = characters.map Char.toUInt8 := by
  rw [Bytes.ofString, String.toList_ofList, Utf8.encode_of_ascii (ascii_of_map_toLower written)]

/-- Bytes are read exactly from the digits that write them, letters of either case. -/
theorem decode_eq_ok_iff :
    decode (Bytes.ofString (String.ofList characters)) = .ok bytes ↔
      characters.map Char.toLower = digits bytes := by
  refine ⟨fun read => ?_, fun written => ?_⟩
  · unfold decode at read
    split at read
    · cases read
    · next even =>
        have written := (decodePairs_eq_ok_iff (Nat.mod_two_ne_one.mp even)).mp read
        have ascii : ∀ code ∈ Bytes.ofString (String.ofList characters), code < 0x80 := by
          intro code member
          have digit : lowered code ∈ digits bytes := by
            rw [← written]
            exact List.mem_map_of_mem member
          obtain ⟨value, small, same⟩ := exists_of_mem_digits digit
          exact lt_of_value? (value?_eq_some_iff.mpr ⟨small, same⟩)
        have same := Utf8.toList_of_ascii ascii
        rw [String.toList_ofList] at same
        calc
          characters.map Char.toLower = _ := congrArg (List.map Char.toLower) same
          _ = (Bytes.ofString (String.ofList characters)).map lowered := List.map_map
          _ = digits bytes := written
  · have same : (characters.map Char.toUInt8).map lowered = digits bytes := by
      rw [← written, List.map_map]
      apply List.map_congr_left
      intro c member
      exact congrArg Char.toLower (Utf8.ofNat_toUInt8 (ascii_of_map_toLower written c member))
    have even : (characters.map Char.toUInt8).length % 2 = 0 := by
      rw [List.length_map, length_of_map_toLower written, Nat.mul_mod_left]
    rw [ofString_of_map_toLower written, decode, if_neg (by omega)]
    exact (decodePairs_eq_ok_iff even).mpr same

/-- An even number of digits writes bytes. -/
theorem exists_digits_eq : ∀ {characters : List Char}, characters.length % 2 = 0 →
    (∀ c ∈ characters, isDigit c = true) → ∃ bytes, characters.map Char.toLower = digits bytes
  | [], _, _ => ⟨[], rfl⟩
  | [_], odd, _ => by simp at odd
  | high :: low :: rest, even, each => by
      have evenRest : rest.length % 2 = 0 := by
        simp only [List.length_cons] at even
        omega
      obtain ⟨more, written⟩ := exists_digits_eq evenRest fun c member => each c (by simp [member])
      obtain ⟨h, smallHigh, first⟩ := isDigit_iff.mp (each high (by simp))
      obtain ⟨l, smallLow, second⟩ := isDigit_iff.mp (each low (by simp))
      refine ⟨UInt8.ofNat (h * 16 + l) :: more, ?_⟩
      rw [digits_cons_ofNat smallHigh smallLow, List.map_cons, List.map_cons, first, second, written]

end MetaExchange.Hex
