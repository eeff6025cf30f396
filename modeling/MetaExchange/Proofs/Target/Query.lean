import Mathlib.Data.List.TakeDrop
import MetaExchange.Proofs.Bytes.Hex
import MetaExchange.Target.Query

/-!
A form is read as the pairs that it was written from (`pairs_of_writesForm`). How it is written is said
byte by byte: most characters may stand for themselves, and every byte may be written by its digits.
-/

namespace MetaExchange.Query

/-- The characters that mean nothing in a form, and that a link may hold. -/
def isPlain (c : Char) : Bool :=
  0x21 ≤ c.toNat && c.toNat ≤ 0x7e && c ∉ ['#', '%', '&', '+', '=']

/-- What writes bytes as a part of a form. -/
inductive Writes : Bytes → List Char → Prop where
  | nil : Writes [] []
  | plain {c bytes text} (plain : isPlain c = true) (rest : Writes bytes text) :
      Writes (c.toUInt8 :: bytes) (c :: text)
  | space {bytes text} (rest : Writes bytes text) : Writes (' '.toUInt8 :: bytes) ('+' :: text)
  | escaped {byte high low bytes text} (digits : [high, low].map Char.toLower = Hex.digits [byte])
      (rest : Writes bytes text) : Writes (byte :: bytes) ('%' :: high :: low :: text)

def WritesPair (pair : String × String) (part : List Char) : Prop :=
  ∃ name value, Writes (Bytes.ofString pair.1) name ∧ Writes (Bytes.ofString pair.2) value ∧
    part = name ++ '=' :: value

/-- What writes pairs as a form: a part for each, in order. -/
def WritesForm (pairs : List (String × String)) (query : List Char) : Prop :=
  ∃ parts, List.Forall₂ WritesPair pairs parts ∧ query = ['&'].intercalate parts

variable {c mark high low : Char} {byte code : UInt8} {bytes : Bytes}
  {text name value part query : List Char} {parts : List (List Char)} {pair : String × String}
  {pairs : List (String × String)}

/-! ### The usual form -/

def encodeByte (byte : UInt8) : List Char :=
  let c := Char.ofNat byte.toNat
  if byte = ' '.toUInt8 then ['+']
  else if c.isAlphanum || ['*', '-', '.', '_'].contains c then [c]
  else '%' :: (Hex.digits [byte]).map Char.toUpper

def encode (text : String) : List Char := (Bytes.ofString text).flatMap encodeByte

/-- The form that leaves only letters, digits and four other characters as they are. -/
def form (pairs : List (String × String)) : List Char :=
  ['&'].intercalate (pairs.map fun pair => encode pair.1 ++ '=' :: encode pair.2)

example : String.ofList (form [("dn", "Ω b"), ("", "1=1&x")]) = "dn=%CE%A9+b&=1%3D1%26x" := by decide

theorem Writes.encodeByte_append (rest : Writes bytes text) (byte : UInt8) :
    Writes (byte :: bytes) (encodeByte byte ++ text) := by
  have plain : ∀ number < 256,
      ((Char.ofNat number).isAlphanum || ['*', '-', '.', '_'].contains (Char.ofNat number)) = true →
      isPlain (Char.ofNat number) = true ∧ (Char.ofNat number).toUInt8 = UInt8.ofNat number := by
    decide +kernel
  have lowered : ∀ value < 16, (Hex.digit value).toUpper.toLower = Hex.digit value := by decide
  unfold encodeByte
  dsimp only
  split
  · next space =>
      subst space
      exact .space rest
  · split
    · next kept =>
        obtain ⟨isPlain, same⟩ := plain byte.toNat byte.toNat_lt kept
        rw [UInt8.ofNat_toNat] at same
        have written := Writes.plain isPlain rest
        rwa [same] at written
    · have within := byte.toNat_lt
      refine .escaped ?_ rest
      simp [Hex.digits, lowered (byte.toNat / 16) (by omega), lowered (byte.toNat % 16) (by omega)]

theorem writes_encode (text : String) : Writes (Bytes.ofString text) (encode text) := by
  unfold encode
  induction Bytes.ofString text with
  | nil => exact .nil
  | cons byte bytes ih => exact ih.encodeByte_append byte

theorem writesForm_form (pairs : List (String × String)) : WritesForm pairs (form pairs) := by
  refine ⟨_, ?_, rfl⟩
  rw [List.forall₂_map_right_iff, List.forall₂_same]
  exact fun pair _ => ⟨_, _, writes_encode pair.1, writes_encode pair.2, rfl⟩

/-! ### The characters of a form -/

/-- A character that a link keeps as it is. -/
def IsKept (c : Char) : Prop := 0x21 ≤ c.toNat ∧ c.toNat ≤ 0x7e ∧ c ≠ '#'

instance : DecidablePred IsKept := fun c => inferInstanceAs (Decidable (_ ∧ _ ∧ c ≠ '#'))

theorem IsKept.ascii (kept : IsKept c) : c.toNat < 0x80 := Nat.lt_of_le_of_lt kept.2.1 (by decide)

theorem isPlain_iff :
    isPlain c = true ↔ IsKept c ∧ c ≠ '%' ∧ c ≠ '&' ∧ c ≠ '+' ∧ c ≠ '=' := by
  simp [isPlain, IsKept, and_assoc]

theorem isPlain_of_isDigit (digit : Hex.isDigit c = true) : isPlain c = true := by
  have each : ∀ c : Char, c.toNat < 0x80 → Hex.isDigit c = true → isPlain c = true :=
    Hex.forall_of_ascii (by decide +kernel)
  exact each c (Hex.lt_of_isDigit digit) digit

theorem plain_of_digits (digits : [high, low].map Char.toLower = Hex.digits [byte]) :
    isPlain high = true ∧ isPlain low = true := by
  have each := Hex.isDigit_of_map_toLower digits
  exact ⟨isPlain_of_isDigit (each high (by simp)), isPlain_of_isDigit (each low (by simp))⟩

theorem Writes.kept (written : Writes bytes text) :
    ∀ c ∈ text, IsKept c ∧ c ≠ '&' ∧ c ≠ '=' := by
  have plain : ∀ c, isPlain c = true → IsKept c ∧ c ≠ '&' ∧ c ≠ '=' := by
    intro c plain
    obtain ⟨kept, _, ampersand, _, equals⟩ := isPlain_iff.mp plain
    exact ⟨kept, ampersand, equals⟩
  have plus : IsKept '+' ∧ '+' ≠ '&' ∧ '+' ≠ '=' := by decide
  have percent : IsKept '%' ∧ '%' ≠ '&' ∧ '%' ≠ '=' := by decide
  induction written with
  | nil => simp
  | plain isPlain _ ih => exact List.forall_mem_cons.mpr ⟨plain _ isPlain, ih⟩
  | space _ ih => exact List.forall_mem_cons.mpr ⟨plus, ih⟩
  | escaped digits _ ih =>
      obtain ⟨high, low⟩ := plain_of_digits digits
      simp only [List.forall_mem_cons]
      exact ⟨percent, plain _ high, plain _ low, ih⟩

theorem WritesPair.kept (written : WritesPair pair part) : ∀ c ∈ part, IsKept c ∧ c ≠ '&' := by
  obtain ⟨name, value, writesName, writesValue, rfl⟩ := written
  have separator : IsKept '=' ∧ '=' ≠ '&' := by decide
  simp only [List.forall_mem_append, List.forall_mem_cons]
  exact ⟨fun c member => ⟨(writesName.kept c member).1, (writesName.kept c member).2.1⟩, separator,
    fun c member => ⟨(writesValue.kept c member).1, (writesValue.kept c member).2.1⟩⟩

theorem kept_of_forall₂ (written : List.Forall₂ WritesPair pairs parts) :
    ∀ part ∈ parts, ∀ c ∈ part, IsKept c ∧ c ≠ '&' := by
  induction written with
  | nil => simp
  | cons first _ ih => exact List.forall_mem_cons.mpr ⟨first.kept, ih⟩

theorem forall_mem_intercalate {motive : Char → Prop} (separator : motive mark)
    (each : ∀ part ∈ parts, ∀ c ∈ part, motive c) : ∀ c ∈ [mark].intercalate parts, motive c := by
  induction parts with
  | nil => simp
  | cons part parts ih =>
      have others := ih fun part member => each part (by simp [member])
      cases parts with
      | nil => simpa using each
      | cons next rest =>
          rw [List.intercalate_cons_cons]
          simp only [List.forall_mem_append, List.forall_mem_singleton]
          exact ⟨⟨each part (by simp), separator⟩, others⟩

theorem WritesForm.kept (written : WritesForm pairs query) : ∀ c ∈ query, IsKept c := by
  obtain ⟨parts, each, rfl⟩ := written
  have separator : IsKept '&' := by decide
  exact forall_mem_intercalate separator fun part member c inside =>
    (kept_of_forall₂ each part member c inside).1

/-! ### Reading the parts -/

theorem toUInt8_ne (kept : IsKept c) (ascii : mark.toNat < 0x80) (other : c ≠ mark) :
    c.toUInt8 ≠ mark.toUInt8 := fun same =>
  other ((Utf8.toUInt8_inj_of_ascii kept.ascii ascii).mp same)

theorem unescape_cons (other : code ≠ '%'.toUInt8) (bytes : Bytes) :
    unescape (code :: bytes) = code :: unescape bytes := by
  match bytes with
  | [] | [_] => rfl
  | high :: low :: rest => rw [unescape, if_neg other]

theorem unescape_digits (digits : [high, low].map Char.toLower = Hex.digits [byte]) (bytes : Bytes) :
    unescape ('%'.toUInt8 :: high.toUInt8 :: low.toUInt8 :: bytes) = byte :: unescape bytes := by
  obtain ⟨first, others⟩ := List.cons.inj digits
  obtain ⟨second, _⟩ := List.cons.inj others
  have within := byte.toNat_lt
  have whole : byte.toNat / 16 * 16 + byte.toNat % 16 = byte.toNat := by omega
  rw [unescape, if_pos rfl, Hex.value?_toUInt8 (by omega) first, Hex.value?_toUInt8 (by omega) second]
  dsimp only
  rw [whole, UInt8.ofNat_toNat]

theorem unescape_of_writes (written : Writes bytes text) :
    unescape ((text.map Char.toUInt8).map fun code =>
      if code = '+'.toUInt8 then ' '.toUInt8 else code) = bytes := by
  have notPlus : ∀ c, isPlain c = true → c.toUInt8 ≠ '+'.toUInt8 := by
    intro c plain
    obtain ⟨kept, _, _, plus, _⟩ := isPlain_iff.mp plain
    exact toUInt8_ne kept (by decide) plus
  induction written with
  | nil => rfl
  | plain plain _ ih =>
      obtain ⟨kept, percent, _⟩ := isPlain_iff.mp plain
      rw [List.map_cons, List.map_cons, if_neg (notPlus _ plain),
        unescape_cons (toUInt8_ne kept (by decide) percent), ih]
  | space _ ih => rw [List.map_cons, List.map_cons, if_pos rfl, unescape_cons (by decide), ih]
  | escaped digits _ ih =>
      obtain ⟨high, low⟩ := plain_of_digits digits
      simp only [List.map_cons]
      rw [if_neg (by decide), if_neg (notPlus _ high), if_neg (notPlus _ low), unescape_digits digits, ih]

theorem component_of_writes {content : String} (written : Writes (Bytes.ofString content) text) :
    component (text.map Char.toUInt8) = content := by
  rw [component, unescape_of_writes written, Utf8.lossy_ofString]

theorem WritesPair.pair_eq (written : WritesPair pair part) :
    Query.pair (part.map Char.toUInt8) = pair := by
  obtain ⟨name, value, writesName, writesValue, rfl⟩ := written
  have before : ∀ code ∈ name.map Char.toUInt8, decide (code ≠ '='.toUInt8) = true := by
    simp only [List.forall_mem_map, decide_eq_true_eq]
    intro c member
    obtain ⟨kept, _, equals⟩ := writesName.kept c member
    exact toUInt8_ne kept (by decide) equals
  rw [Query.pair, List.span_eq_takeWhile_dropWhile, List.map_append, List.map_cons,
    List.takeWhile_append_of_pos before, List.dropWhile_append_of_pos before,
    List.takeWhile_cons_of_neg (by decide), List.dropWhile_cons_of_neg (by decide), List.append_nil]
  simp only [List.drop_one, List.tail_cons]
  rw [component_of_writes writesName, component_of_writes writesValue]

/-! ### Reading the form -/

theorem pieces_eq_splitOn (separator : UInt8) (bytes : Bytes) :
    pieces separator bytes = bytes.splitOn separator := by
  induction bytes with
  | nil => rfl
  | cons byte bytes ih =>
      rw [List.splitOn, List.splitOnP_cons_eq_if_modifyHead, ← List.splitOn, ← ih]
      rw [pieces, List.foldr_cons, ← pieces]
      by_cases separates : byte = separator
      · simp [separates]
      · cases found : pieces separator bytes with
        | nil =>
            rw [ih] at found
            exact absurd found (List.splitOnP_ne_nil _ _)
        | cons piece others => simp [separates]

theorem map_intercalate (separator : Char) (parts : List (List Char)) :
    ([separator].intercalate parts).map Char.toUInt8 =
      [separator.toUInt8].intercalate (parts.map (List.map Char.toUInt8)) := by
  induction parts with
  | nil => rfl
  | cons part parts ih =>
      cases parts with
      | nil => simp
      | cons next rest =>
          rw [List.intercalate_cons_cons, List.map_append, ih]
          simp

theorem map_pair_of_forall₂ (written : List.Forall₂ WritesPair pairs parts) :
    ((parts.map (List.map Char.toUInt8)).filter (!·.isEmpty)).map Query.pair = pairs := by
  induction written with
  | nil => rfl
  | @cons pair part _ _ first _ ih =>
      have nonempty : (!(part.map Char.toUInt8).isEmpty) = true := by
        obtain ⟨name, value, _, _, rfl⟩ := first
        simp
      rw [List.map_cons, List.filter_cons, if_pos nonempty, List.map_cons, first.pair_eq, ih]

theorem pairs_of_writesForm (written : WritesForm pairs query) :
    Query.pairs (query.map Char.toUInt8) = pairs := by
  obtain ⟨parts, each, rfl⟩ := written
  have kept := kept_of_forall₂ each
  have apart : ∀ piece ∈ parts.map (List.map Char.toUInt8), '&'.toUInt8 ∉ piece := by
    simp only [List.forall_mem_map]
    intro part member inside
    obtain ⟨c, within, same⟩ := List.mem_map.mp inside
    obtain ⟨kept, ampersand⟩ := kept part member c within
    exact toUInt8_ne kept (by decide) ampersand same
  by_cases empty : parts = []
  · subst empty
    cases each
    rfl
  · have nonempty : parts.map (List.map Char.toUInt8) ≠ [] := by simpa using empty
    rw [Query.pairs, pieces_eq_splitOn, map_intercalate, List.splitOn_intercalate _ apart nonempty,
      map_pair_of_forall₂ each]

end MetaExchange.Query
