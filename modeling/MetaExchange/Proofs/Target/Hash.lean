import MetaExchange.Proofs.Bytes.Hex
import MetaExchange.Proofs.Text.Blank
import MetaExchange.Target

namespace MetaExchange

theorem Bytes.length_ofString (text : String) : (ofString text).length = text.utf8ByteSize := by
  have encoded : text.toByteArray = (ofString text).toByteArray := by
    rw [← String.ofList_toList (s := text), String.toByteArray_ofList, List.utf8Encode, ofString,
      String.toList_ofList]
  rw [← String.size_toByteArray, encoded, List.size_toByteArray]

theorem FixedBytes.ofBytes?_eq_some_iff {size : Nat} {bytes : Bytes} {fixed : FixedBytes size} :
    ofBytes? size bytes = some fixed ↔ fixed.toBytes = bytes := by
  rw [ofBytes?, Option.dite_none_right_eq_some]
  refine ⟨fun given => ?_, fun same => ?_⟩
  · obtain ⟨_, ⟨rfl⟩⟩ := given
    rfl
  · subst same
    exact ⟨fixed.length_toBytes, rfl⟩

theorem Hex.isBlank_of_isDigit {c : Char} (digit : Hex.isDigit c = true) : Text.isBlank c = false := by
  have each : ∀ c : Char, c.toNat < 0x80 → Hex.isDigit c = true → Text.isBlank c = false :=
    Hex.forall_of_ascii (by decide +kernel)
  exact each c (Hex.lt_of_isDigit digit) digit

namespace Target

variable {digits text : String} {characters start rest : List Char} {hash : InfoHash}

def IsHash (characters : List Char) : Prop :=
  characters.length = 40 ∧ ∀ c ∈ characters, Hex.isDigit c = true

instance : DecidablePred IsHash := fun characters =>
  decidable_of_iff (characters.length = 40 ∧ characters.all Hex.isDigit = true) (by
    rw [List.all_eq_true, IsHash])

theorem hashOf_eq_base32_iff : hashOf digits = .error .base32 ↔ digits.utf8ByteSize = 32 := by
  rw [← Bytes.length_ofString, hashOf]
  split
  · next short => exact iff_of_true rfl short
  · next other =>
      refine iff_of_false (fun failed => ?_) other
      split at failed
      · cases failed
      · split at failed <;> cases failed

theorem hashOf_of_length (other : (Bytes.ofString digits).length ≠ 32) :
    hashOf digits = .ok hash ↔ Hex.decode (Bytes.ofString digits) = .ok hash.toBytes := by
  rw [hashOf, if_neg other]
  split
  · next failed => simp [failed]
  · next bytes decoded =>
      rw [decoded, Except.ok.injEq, @eq_comm Bytes, ← FixedBytes.ofBytes?_eq_some_iff]
      split
      · next unfit => simp [unfit]
      · next fixed fit => simp [fit]

theorem hashOf_eq_ok_iff :
    hashOf (String.ofList characters) = .ok hash ↔
      characters.map Char.toLower = Hex.digits hash.toBytes := by
  refine ⟨fun found => ?_, fun written => ?_⟩
  · have other : (Bytes.ofString (String.ofList characters)).length ≠ 32 := by
      intro short
      rw [hashOf, if_pos short] at found
      cases found
    exact Hex.decode_eq_ok_iff.mp ((hashOf_of_length other).mp found)
  · have count := Hex.length_of_map_toLower written
    rw [hash.length_toBytes] at count
    have other : (Bytes.ofString (String.ofList characters)).length ≠ 32 := by
      rw [Hex.ofString_of_map_toLower written, List.length_map]
      omega
    exact (hashOf_of_length other).mpr (Hex.decode_eq_ok_iff.mpr written)

theorem exists_hashOf_iff :
    (∃ hash, hashOf (String.ofList characters) = .ok hash) ↔ IsHash characters := by
  simp only [hashOf_eq_ok_iff]
  refine ⟨fun given => ?_, fun given => ?_⟩
  · obtain ⟨hash, written⟩ := given
    have count := Hex.length_of_map_toLower written
    rw [hash.length_toBytes] at count
    exact ⟨count, Hex.isDigit_of_map_toLower written⟩
  · obtain ⟨count, each⟩ := given
    obtain ⟨bytes, written⟩ := Hex.exists_digits_eq (by omega) each
    have twice := Hex.length_of_map_toLower written
    exact ⟨⟨bytes, by omega⟩, written⟩

/-- What each error is told as; the message names the other notation only where that was found. -/
theorem Error.exists_message (error : Error) :
    ∃ message, error.toFailure = .validation message (some "target") ∧
      (message = "Base32-encoded info hashes are not supported, use the 40-character hex form" ↔
        error = .base32) := by
  refine ⟨_, rfl, ?_⟩
  cases error with
  | base32 => simp
  | invalidHex detail | wrongSize detail =>
      refine iff_of_false (fun same => ?_) (by simp)
      have first := congrArg (·.toList.head?) same
      simp only [String.toList_append, List.head?_append] at first
      cases first
  | hashMissing => simp

theorem after?_eq_some_iff : after? start characters = some rest ↔ characters = start ++ rest := by
  rw [after?]
  split
  · next starts =>
      obtain ⟨others, rfl⟩ := List.isPrefixOf_iff_prefix.mp starts
      simp
  · next other =>
      refine iff_of_false (by simp) fun same => other (List.isPrefixOf_iff_prefix.mpr ⟨rest, same.symm⟩)

theorem after?_eq_none_iff : after? start characters = none ↔ ¬start <+: characters := by
  rw [after?, ← List.isPrefixOf_iff_prefix]
  simp

theorem parse_bare (bare : ¬magnetStart <+: Text.trim text.toList) :
    parse text = (hashOf (String.ofList (Text.trim text.toList))).map (⟨·, none⟩) := by
  rw [parse, after?_eq_none_iff.mpr bare]

/-- A text that is no magnet link is read exactly if it is forty hexadecimal digits, blanks at its ends
apart. Any other is refused, and told from a hash in base 32 by its number of bytes. -/
theorem parse_bare_exact :
    (∀ text, ¬magnetStart <+: Text.trim text.toList →
      ((∃ target, parse text = .ok target) ↔ IsHash (Text.trim text.toList)) ∧
      (∀ target, parse text = .ok target →
        target.displayName = none ∧
          (Hex.encode target.infoHash.toBytes).toList = (Text.trim text.toList).map Char.toLower) ∧
      ∀ error, parse text = .error error →
        ∃ message, error.toFailure = .validation message (some "target") ∧
          (message = "Base32-encoded info hashes are not supported, use the 40-character hex form" ↔
            (String.ofList (Text.trim text.toList)).utf8ByteSize = 32)) ∧
    ∀ (hash : InfoHash) (front variant back : List Char),
      variant.map Char.toLower = (Hex.encode hash.toBytes).toList →
      (∀ c ∈ front, Text.isBlank c = true) → (∀ c ∈ back, Text.isBlank c = true) →
      parse (String.ofList (front ++ variant ++ back)) = .ok ⟨hash, none⟩ := by
  refine ⟨fun text bare => ⟨?_, fun target read => ?_, fun error failed => ?_⟩,
    fun hash front variant back written frontBlank backBlank => ?_⟩
  · rw [parse_bare bare, ← exists_hashOf_iff]
    simp [Except.map_eq_ok_iff]
  · rw [parse_bare bare, Except.map_eq_ok_iff] at read
    obtain ⟨hash, found, rfl⟩ := read
    exact ⟨rfl, (Hex.toList_encode _).trans (hashOf_eq_ok_iff.mp found).symm⟩
  · rw [parse_bare bare, Except.map_eq_error_iff] at failed
    obtain ⟨message, told, named⟩ := error.exists_message
    refine ⟨message, told, named.trans ?_⟩
    rw [← hashOf_eq_base32_iff, failed, Except.error.injEq]
  · rw [Hex.toList_encode] at written
    have each := Hex.isDigit_of_map_toLower written
    have kept : ∀ c ∈ variant, Text.isBlank c = false := fun c member =>
      Hex.isBlank_of_isDigit (each c member)
    have trimmed : Text.trim (String.ofList (front ++ variant ++ back)).toList = variant := by
      rw [String.toList_ofList, Text.trim_append frontBlank kept backBlank]
    have bare : ¬magnetStart <+: variant := by
      intro starts
      have digit := each 'm' (starts.subset (by decide))
      exact absurd digit (by decide)
    rw [parse_bare (by rwa [trimmed]), trimmed, hashOf_eq_ok_iff.mpr written]
    rfl

/-- A hash in capitals between blanks, and one in base 32. -/
theorem parse_bare_exact_capitals :
    (∃ hash : InfoHash,
      Hex.encode hash.toBytes = "dd8255ecdc7ca55fb0bbf81323d87062db1f6d1c" ∧
        parse " DD8255ECDC7CA55FB0BBF81323D87062DB1F6D1C\n" = .ok ⟨hash, none⟩) ∧
    ∃ error, parse "3WBFL3G4PSSV7MF37AJSHWDQMLNR63I4" = .error error ∧
      error.toFailure = Error.base32.toFailure := by
  obtain ⟨read, written⟩ := parse_bare_exact
  refine ⟨⟨⟨[0xdd, 0x82, 0x55, 0xec, 0xdc, 0x7c, 0xa5, 0x5f, 0xb0, 0xbb, 0xf8, 0x13, 0x23, 0xd8, 0x70,
    0x62, 0xdb, 0x1f, 0x6d, 0x1c], rfl⟩, by decide +kernel, ?_⟩, ?_⟩
  · exact written _ [' '] "DD8255ECDC7CA55FB0BBF81323D87062DB1F6D1C".toList ['\n'] (by decide +kernel)
      (by simp [Text.isBlank]) (by simp [Text.isBlank])
  · obtain ⟨accepts, _, refuses⟩ := read "3WBFL3G4PSSV7MF37AJSHWDQMLNR63I4" (by decide +kernel)
    cases failed : parse "3WBFL3G4PSSV7MF37AJSHWDQMLNR63I4" with
    | ok target => exact absurd (accepts.mp ⟨target, failed⟩) (by decide +kernel)
    | error error =>
        obtain ⟨message, told, named⟩ := refuses error failed
        have base32 := named.mpr (by decide +kernel)
        exact ⟨error, rfl, told.trans (base32 ▸ rfl)⟩

end Target

end MetaExchange
