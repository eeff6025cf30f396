import MetaExchange.Metadata
import MetaExchange.Proofs.Exchange.Checked
import MetaExchange.Proofs.Exchange.Payloads

namespace MetaExchange

namespace InfoDict

def Nonnegative (info : InfoDict) : Prop :=
  (∀ length ∈ info.length, 0 ≤ length.toInt) ∧ (∀ length ∈ info.pieceLength, 0 ≤ length.toInt) ∧
    ∀ entry ∈ info.files.getD [], 0 ≤ entry.length.toInt

/-- A size of the whole is given, or a file is listed. -/
def DescribesFile (info : InfoDict) : Prop := info.length.isSome = true ∨ info.files.getD [] ≠ []

/-- A size of the whole is given, or the sizes that are listed add up to one of 64 bits. -/
def Summable (info : InfoDict) : Prop :=
  info.length.isSome = true ∨ ((info.files.getD []).map (·.length.toInt.toNat)).sum < 2 ^ 64

end InfoDict

namespace Metadata

/-- The size of the file and the parts of its path are those of the entry. -/
structure File.Shows (file : File) (entry : InfoDict.Entry) : Prop where
  path : file.path = entry.path.map Utf8.lossy
  length : (file.length : Int) = entry.length.toInt

/-- What the metadata say is what the info dictionary says: sizes as they are, names as text, and the files
in their order. -/
structure Shows (metadata : Metadata) (info : InfoDict) : Prop where
  name : metadata.name = Utf8.lossy info.name
  length : metadata.length.map Int.ofNat = info.length.map Int64.toInt
  pieceLength : metadata.pieceLength.map Int.ofNat = info.pieceLength.map Int64.toInt
  files : List.Forall₂ File.Shows metadata.files (info.files.getD [])
  pieces : metadata.pieces = info.pieces.getD []

variable {infoHash : InfoHash} {info : InfoDict} {metadata : Metadata} {data : Bytes}
  {negative : Int64 → Error} {value : Int64} {given : Option Int64} {known : Option Nat} {amount : Nat}
  {entry : InfoDict.Entry} {file : File} {cause : Error}

/-! ### Sizes and files -/

theorem size_eq_ok_iff : size negative value = .ok amount ↔ (amount : Int) = value.toInt := by
  unfold size
  split
  · next below =>
      constructor
      · intro impossible
        cases impossible
      · intro same
        omega
  · next _ =>
      rw [Except.ok.injEq]
      omega

theorem exists_size_iff (negative : Int64 → Error) :
    (∃ amount, size negative value = .ok amount) ↔ 0 ≤ value.toInt := by
  simp only [size_eq_ok_iff]
  constructor
  · intro given
    obtain ⟨amount, same⟩ := given
    omega
  · intro nonnegative
    exact ⟨value.toInt.toNat, Int.toNat_of_nonneg nonnegative⟩

theorem eq_of_size_eq_error (refused : size negative value = .error cause) : cause = negative value := by
  unfold size at refused
  split at refused
  · cases refused
    rfl
  · cases refused

theorem size?_eq_ok_iff :
    size? negative given = .ok known ↔ known.map Int.ofNat = given.map Int64.toInt := by
  cases given with
  | none => simp [size?, eq_comm]
  | some value =>
      simp only [size?, Except.map_eq_ok_iff, size_eq_ok_iff, Option.map_some, Option.map_eq_some_iff]
      constructor
      · intro found
        obtain ⟨amount, same, rfl⟩ := found
        exact ⟨amount, rfl, same⟩
      · intro found
        obtain ⟨amount, rfl, same⟩ := found
        exact ⟨amount, same, rfl⟩

theorem exists_size?_iff (negative : Int64 → Error) :
    (∃ known, size? negative given = .ok known) ↔ ∀ value ∈ given, 0 ≤ value.toInt := by
  cases given with
  | none => simp [size?]
  | some value =>
      simp only [size?, Except.map_eq_ok_iff, Option.mem_def, Option.some.injEq, forall_eq']
      rw [← exists_size_iff negative]
      constructor
      · intro found
        obtain ⟨_, amount, same, _⟩ := found
        exact ⟨amount, same⟩
      · intro found
        obtain ⟨amount, same⟩ := found
        exact ⟨_, amount, same, rfl⟩

theorem exists_of_size?_eq_error (refused : size? negative given = .error cause) :
    ∃ value, cause = negative value := by
  cases given with
  | none => cases refused
  | some value => exact ⟨value, eq_of_size_eq_error (Except.map_eq_error_iff.mp refused)⟩

theorem fileOf_eq_ok_iff : fileOf entry = .ok file ↔ file.Shows entry := by
  simp only [fileOf, Except.map_eq_ok_iff, size_eq_ok_iff]
  constructor
  · intro found
    obtain ⟨amount, same, rfl⟩ := found
    exact ⟨rfl, same⟩
  · intro shows
    obtain ⟨path, length⟩ := file
    exact ⟨length, shows.length, by rw [← shows.path]⟩

theorem exists_fileOf_iff : (∃ file, fileOf entry = .ok file) ↔ 0 ≤ entry.length.toInt := by
  simp only [fileOf, Except.map_eq_ok_iff]
  rw [← exists_size_iff Error.negativeFileLength]
  constructor
  · intro found
    obtain ⟨_, amount, same, _⟩ := found
    exact ⟨amount, same⟩
  · intro found
    obtain ⟨amount, same⟩ := found
    exact ⟨_, amount, same, rfl⟩

/-! ### Info dictionaries -/

theorem describes_iff {length : Option Nat} {files : List File} :
    ¬(length.isNone && files.isEmpty) = true ↔ length.isSome = true ∨ files ≠ [] := by
  cases length with
  | none => simp
  | some length => simp

theorem ofInfo_eq_ok_iff :
    ofInfo infoHash info = .ok metadata ↔
      metadata.infoHash = infoHash ∧ metadata.Shows info ∧
        (metadata.length.isSome = true ∨ metadata.files ≠ []) := by
  simp only [ofInfo, Except.bind_eq_ok_iff, size?_eq_ok_iff, Except.mapM_eq_ok_iff, fileOf_eq_ok_iff]
  constructor
  · intro read
    obtain ⟨length, sameLength, pieceLength, samePieceLength, files, each, read⟩ := read
    split at read
    · cases read
    · next described =>
        cases read
        exact ⟨rfl, ⟨rfl, sameLength, samePieceLength, each, rfl⟩, describes_iff.mp described⟩
  · intro read
    obtain ⟨asked, shows, described⟩ := read
    refine ⟨metadata.length, shows.length, metadata.pieceLength, shows.pieceLength, metadata.files,
      shows.files, ?_⟩
    rw [if_neg (describes_iff.mpr described), ← asked, ← shows.name, ← shows.pieces]

/-- An info dictionary is taken if it has no size below zero, and describes a file. -/
theorem exists_ofInfo_iff :
    (∃ metadata, ofInfo infoHash info = .ok metadata) ↔ info.Nonnegative ∧ info.DescribesFile := by
  constructor
  · intro given
    obtain ⟨metadata, read⟩ := given
    obtain ⟨_, shows, described⟩ := ofInfo_eq_ok_iff.mp read
    refine ⟨⟨?_, ?_, ?_⟩, ?_⟩
    · exact (exists_size?_iff .negativeLength).mp ⟨_, size?_eq_ok_iff.mpr shows.length⟩
    · exact (exists_size?_iff .negativePieceLength).mp ⟨_, size?_eq_ok_iff.mpr shows.pieceLength⟩
    · intro entry member
      have listed : (info.files.getD []).mapM fileOf = .ok metadata.files :=
        Except.mapM_eq_ok_iff.mpr (shows.files.imp fun _ _ => fileOf_eq_ok_iff.mpr)
      exact exists_fileOf_iff.mp (Except.exists_mapM_eq_ok_iff.mp ⟨_, listed⟩ entry member)
    · refine described.imp (fun present => ?_) (fun listed nothing => ?_)
      · rw [← Option.isSome_map (f := Int64.toInt), ← shows.length, Option.isSome_map]
        exact present
      · have files := shows.files
        rw [nothing, List.forall₂_nil_right_iff] at files
        exact listed files
  · intro given
    obtain ⟨⟨lengths, pieceLengths, entries⟩, described⟩ := given
    obtain ⟨length, sameLength⟩ := (exists_size?_iff .negativeLength).mpr lengths
    obtain ⟨pieceLength, samePieceLength⟩ := (exists_size?_iff .negativePieceLength).mpr pieceLengths
    obtain ⟨files, listed⟩ := Except.exists_mapM_eq_ok_iff.mpr fun entry member =>
      exists_fileOf_iff.mpr (entries entry member)
    simp only [Except.mapM_eq_ok_iff, fileOf_eq_ok_iff, size?_eq_ok_iff] at *
    refine ⟨⟨infoHash, _, length, pieceLength, files, _⟩, ofInfo_eq_ok_iff.mpr
      ⟨rfl, ⟨rfl, sameLength, samePieceLength, listed, rfl⟩, ?_⟩⟩
    refine described.imp (fun present => ?_) (fun some nothing => ?_)
    · rw [← Option.isSome_map (f := Int.ofNat), sameLength, Option.isSome_map]
      exact present
    · have files : files = [] := nothing
      rw [files, List.forall₂_nil_left_iff] at listed
      exact some listed

theorem exists_ofInfo_error_iff :
    (∃ cause, ofInfo infoHash info = .error cause) ↔ ¬ (info.Nonnegative ∧ info.DescribesFile) := by
  rw [← @exists_ofInfo_iff infoHash]
  cases ofInfo infoHash info <;> simp

/-- An info dictionary that is not taken is refused for what it says. -/
theorem isMetadata_of_ofInfo (refused : ofInfo infoHash info = .error cause) :
    cause.toFailure.isMetadata = true := by
  simp only [ofInfo, Except.bind_eq_error_iff] at refused
  rcases refused with lengths | ⟨_, _, pieceLengths | ⟨_, _, entries | ⟨_, _, nothing⟩⟩⟩
  · obtain ⟨value, rfl⟩ := exists_of_size?_eq_error lengths
    rfl
  · obtain ⟨value, rfl⟩ := exists_of_size?_eq_error pieceLengths
    rfl
  · obtain ⟨entry, _, failed⟩ := Except.exists_of_mapM_eq_error entries
    rw [eq_of_size_eq_error (Except.map_eq_error_iff.mp failed)]
    rfl
  · split at nothing
    · cases nothing
      rfl
    · cases nothing

theorem ofBytes_eq_ok_iff :
    ofBytes infoHash data = .ok metadata ↔
      ∃ info, InfoDict.decode data = .ok info ∧ ofInfo infoHash info = .ok metadata := by
  unfold ofBytes
  cases InfoDict.decode data with
  | error cause => simp
  | ok info => simp

theorem File.Shows.length_lt (shown : file.Shows entry) : file.length < 2 ^ 63 := by
  have same := shown.length
  have small := entry.length.toInt_lt
  omega

theorem lt_of_map_eq (same : known.map Int.ofNat = given.map Int64.toInt) :
    ∀ amount ∈ known, amount < 2 ^ 63 := by
  intro amount member
  rw [Option.mem_def.mp member, Option.map_some, eq_comm, Option.map_eq_some_iff] at same
  obtain ⟨value, _, same⟩ := same
  have small := value.toInt_lt
  rw [same] at small
  exact Int.ofNat_lt.mp small

theorem Shows.file_length_lt (shows : metadata.Shows info) :
    ∀ file ∈ metadata.files, file.length < 2 ^ 63 := by
  intro file member
  obtain ⟨place, within, rfl⟩ := List.getElem_of_mem member
  have shown := shows.files.get within (shows.files.length_eq ▸ within)
  exact shown.length_lt

theorem allFiles_of_length {length : Nat} (single : metadata.length = some length) :
    metadata.allFiles = [⟨[metadata.name], length⟩] := by
  simp [allFiles, single]

theorem allFiles_of_isMultiFile (several : metadata.isMultiFile = true) :
    metadata.allFiles = metadata.files := by
  simp only [isMultiFile, Option.isNone_iff_eq_none] at several
  simp [allFiles, several]

theorem fileCount_eq (metadata : Metadata) : metadata.fileCount = metadata.allFiles.length := by
  unfold fileCount allFiles isMultiFile
  cases metadata.length with
  | none => rfl
  | some length => rfl

/-- The size of all files, however large. -/
def totalSize (metadata : Metadata) : Nat :=
  match metadata.length with
  | some length => length
  | none => metadata.files.foldl (fun total file => total + file.length) 0

-- Sizes are not below zero, so that a sum on the way is too large only if the whole sum is.
theorem foldlM_word?_eq (files : List File) (total : Nat) (fits : total < UInt64.size) :
    files.foldlM (fun total file => word? (total + file.length)) total =
      word? (total + (files.map File.length).sum) := by
  induction files generalizing total with
  | nil => exact (word?_eq fits).symm
  | cons file files ih =>
      rw [List.map_cons, List.sum_cons, ← Nat.add_assoc, List.foldlM_cons]
      by_cases first : total + file.length < UInt64.size
      · rw [word?_eq first]
        exact ih (total + file.length) first
      · have whole : ¬ total + file.length + (files.map File.length).sum < UInt64.size := by omega
        rw [word?, word?, if_neg first, if_neg whole]
        rfl

theorem totalSize_eq (metadata : Metadata) :
    metadata.totalSize = (metadata.allFiles.map File.length).sum := by
  unfold totalSize allFiles
  cases metadata.length with
  | none => rw [List.sum_eq_foldl, List.foldl_map]
  | some length => simp

theorem totalSize?_eq (metadata : Metadata) : metadata.totalSize? = word? metadata.totalSize := by
  rw [totalSize_eq]
  unfold totalSize? allFiles
  cases metadata.length with
  | none =>
      dsimp only
      rw [foldlM_word?_eq metadata.files 0 (by decide), Nat.zero_add]
  | some length => simp

theorem map_length_eq {files : List File} {entries : List InfoDict.Entry}
    (shown : List.Forall₂ File.Shows files entries) :
    files.map File.length = entries.map (·.length.toInt.toNat) := by
  induction shown with
  | nil => rfl
  | cons first _ ih => rw [List.map_cons, List.map_cons, ih, ← first.length, Int.toNat_natCast]

theorem Shows.totalSize_lt_iff (shows : metadata.Shows info) :
    metadata.totalSize < UInt64.size ↔ info.Summable := by
  have given := shows.length
  rw [totalSize_eq, UInt64.size, InfoDict.Summable]
  cases single : metadata.length with
  | none =>
      have several : metadata.isMultiFile = true := by simp [isMultiFile, single]
      rw [single, Option.map_none, eq_comm, Option.map_eq_none_iff] at given
      rw [allFiles_of_isMultiFile several, map_length_eq shows.files, given]
      simp
  | some length =>
      have small := lt_of_map_eq given length single
      have present : info.length.isSome = true := by
        rw [← Option.isSome_map (f := Int64.toInt), ← given, single]
        rfl
      rw [allFiles_of_length single]
      simp only [List.map_cons, List.map_nil, List.sum_singleton, present, true_or, iff_true]
      omega

/-- All views of metadata agree, whatever shape they were read from: every size is below `2 ^ 63`, the files
are as many as they are said to be, one at least, and their sizes sum up to the total, without an overflow on
the way. A size of the whole goes before the files that are listed beside it. -/
theorem ofBytes_consistent (read : ofBytes infoHash data = .ok metadata)
    (fits : (metadata.files.map File.length).sum < 2 ^ 64) :
    ((∀ length ∈ metadata.length, length < 2 ^ 63) ∧
      (∀ length ∈ metadata.pieceLength, length < 2 ^ 63) ∧
      ∀ file ∈ metadata.files, file.length < 2 ^ 63) ∧
    (metadata.fileCount = metadata.allFiles.length ∧ 1 ≤ metadata.fileCount) ∧
    (metadata.totalSize = (metadata.allFiles.map File.length).sum ∧
      metadata.totalSize? = some metadata.totalSize) ∧
    (metadata.isMultiFile = true → metadata.allFiles = metadata.files ∧ metadata.files ≠ []) ∧
    (metadata.isMultiFile = false → ∃ length, metadata.length = some length ∧
      metadata.allFiles = [⟨[metadata.name], length⟩]) := by
  obtain ⟨info, _, taken⟩ := ofBytes_eq_ok_iff.mp read
  obtain ⟨_, shows, described⟩ := ofInfo_eq_ok_iff.mp taken
  have small := lt_of_map_eq shows.length
  have several : metadata.isMultiFile = true →
      metadata.allFiles = metadata.files ∧ metadata.files ≠ [] := by
    intro several
    refine ⟨allFiles_of_isMultiFile several, described.resolve_left ?_⟩
    simpa [isMultiFile] using several
  have single : metadata.isMultiFile = false → ∃ length, metadata.length = some length ∧
      metadata.allFiles = [⟨[metadata.name], length⟩] := by
    intro single
    obtain ⟨length, given⟩ : ∃ length, metadata.length = some length := by
      simpa [isMultiFile, Option.isSome_iff_exists, ← Option.not_isSome] using single
    exact ⟨length, given, allFiles_of_length given⟩
  have sizes : (metadata.allFiles.map File.length).sum < UInt64.size ∧ metadata.allFiles ≠ [] := by
    cases which : metadata.isMultiFile with
    | true =>
        obtain ⟨all, listed⟩ := several which
        rw [all]
        exact ⟨fits, listed⟩
    | false =>
        obtain ⟨length, given, all⟩ := single which
        have below := small length given
        rw [all]
        exact ⟨by simp [UInt64.size]; omega, by simp⟩
  refine ⟨⟨small, lt_of_map_eq shows.pieceLength, shows.file_length_lt⟩, ⟨fileCount_eq metadata, ?_⟩,
    ⟨totalSize_eq metadata, ?_⟩, several, single⟩
  · rw [fileCount_eq]
    exact List.length_pos_iff.mpr sizes.2
  · rw [totalSize?_eq, totalSize_eq]
    exact word?_eq sizes.1

/-- An info dictionary written as a list, with a size of the whole and a file beside it. -/
theorem ofBytes_consistent_bothGiven :
    let infoHash : InfoHash := ⟨List.replicate 20 0xab, rfl⟩
    let data := Bytes.ofString "l1:xi7eld6:lengthi3e4:pathl1:aeeei5e0:e"
    ∃ metadata, ofBytes infoHash data = .ok metadata ∧ metadata.files = [⟨["a"], 3⟩] ∧
      metadata.isMultiFile = false ∧ metadata.allFiles = [⟨["x"], 7⟩] ∧
      metadata.totalSize? = some 7 := by
  intro infoHash data
  have read : ofBytes infoHash data = .ok ⟨infoHash, "x", some 7, some 5, [⟨["a"], 3⟩], []⟩ := by
    decide +kernel
  obtain ⟨_, _, ⟨_, summed⟩, _, single⟩ := ofBytes_consistent read (by decide)
  obtain ⟨_, ⟨rfl⟩, all⟩ := single rfl
  exact ⟨_, read, rfl, rfl, all, summed⟩

/-! ### The line in the log -/

theorem Shows.logged?_eq_none_iff (shows : metadata.Shows info) {wanted : Bool} :
    metadata.logged? wanted = none ↔ wanted = true ∧ ¬ info.Summable := by
  rw [logged?, totalSize?_eq, word?, ← shows.totalSize_lt_iff]
  cases wanted <;> simp

theorem Shows.logged?_eq_some_iff (shows : metadata.Shows info) {wanted : Bool} {kept : Metadata} :
    metadata.logged? wanted = some kept ↔ metadata = kept ∧ (wanted = true → info.Summable) := by
  rw [logged?, totalSize?_eq, word?, ← shows.totalSize_lt_iff]
  cases wanted <;> simp [and_comm]

variable {logged : Bool}

theorem exists_ofInfo_and_iff {fits : Prop} {keeps : Metadata → Prop}
    (same : ∀ read : Metadata, read.Shows info → (keeps read ↔ fits)) :
    (∃ read, ofInfo infoHash info = .ok read ∧ keeps read) ↔
      info.Nonnegative ∧ info.DescribesFile ∧ fits := by
  rw [← and_assoc, ← @exists_ofInfo_iff infoHash]
  constructor
  · intro given
    obtain ⟨read, taken, kept⟩ := given
    obtain ⟨_, shows, _⟩ := ofInfo_eq_ok_iff.mp taken
    exact ⟨⟨read, taken⟩, (same read shows).mp kept⟩
  · intro given
    obtain ⟨⟨read, taken⟩, fits⟩ := given
    obtain ⟨_, shows, _⟩ := ofInfo_eq_ok_iff.mp taken
    exact ⟨read, taken, (same read shows).mpr fits⟩

theorem exists_logged_iff :
    (∃ metadata read, ofInfo infoHash info = .ok read ∧ read.logged? logged = some metadata) ↔
      info.Nonnegative ∧ info.DescribesFile ∧ (logged = true → info.Summable) := by
  rw [exists_comm]
  simp only [exists_and_left]
  apply exists_ofInfo_and_iff
  intro read shows
  simp only [shows.logged?_eq_some_iff, exists_eq_left']

theorem exists_unlogged_iff :
    (∃ read, ofInfo infoHash info = .ok read ∧ read.logged? logged = none) ↔
      info.Nonnegative ∧ info.DescribesFile ∧ logged = true ∧ ¬ info.Summable :=
  exists_ofInfo_and_iff fun _ shows => shows.logged?_eq_none_iff

theorem ofBytes?_eq_error_iff :
    ofBytes? logged infoHash data = some (.error cause) ↔ ofBytes infoHash data = .error cause := by
  unfold ofBytes?
  cases ofBytes infoHash data <;> simp

theorem ofBytes?_eq_ok_iff :
    ofBytes? logged infoHash data = some (.ok metadata) ↔
      ∃ read, ofBytes infoHash data = .ok read ∧ read.logged? logged = some metadata := by
  unfold ofBytes?
  cases ofBytes infoHash data <;> simp

theorem ofBytes?_eq_none_iff :
    ofBytes? logged infoHash data = none ↔
      ∃ read, ofBytes infoHash data = .ok read ∧ read.logged? logged = none := by
  unfold ofBytes?
  cases ofBytes infoHash data <;> simp

end Metadata

end MetaExchange
