import MetaExchange.PeerSide
import MetaExchange.Proofs.Bencode.Typed
import MetaExchange.Proofs.Metadata

namespace MetaExchange

open Bencode.Typed

namespace InfoDict

namespace Entry

inductive Item where
  | length (number : Int64)
  | path (parts : List Bytes)
  | unknown (name : String)

def Item.key : Item → String
  | .length _ => "length"
  | .path _ => "path"
  | .unknown other => other

inductive Item.Writes : Item → Bytes → Prop where
  | length {number : Int64} {text : Bytes} (writes : WritesInt number text) : Writes (.length number) text
  | path {parts : List Bytes} {text : Bytes} (writes : WritesList WritesBytes parts text) :
      Writes (.path parts) text
  | unknown {name : String} {text : Bytes} (foreign : name ∉ ["length", "path"])
      (wellFormed : WellFormed text) : Writes (.unknown name) text

/-- The bytes of a file: a dictionary with its length, its path, and any other keys, in any order. -/
def Writes (entry : Entry) (text : Bytes) : Prop :=
  ∃ (items : List Item) (names : List String),
    items.Perm (.length entry.length :: .path entry.path :: names.map .unknown) ∧
      WritesRecord Item.key Item.Writes items text

/-- A file as a dictionary of nothing but its length and its path. -/
def toValue (entry : Entry) : Bencode.Value :=
  .dict [(Bytes.ofString "length", .int entry.length),
    (Bytes.ofString "path", .list (entry.path.map .bytes))]

theorem writes_encode {entry : Entry} (short : ∀ part ∈ entry.path, part.length ≤ Numeral.maxUInt64) :
    entry.Writes entry.toValue.encode := by
  have parts : WritesList WritesBytes entry.path (Bencode.Value.list (entry.path.map .bytes)).encode :=
    writesList_encode fun part member => writesBytes_of_encodeBytes (short part member) rfl
  let items : List (Item × Bencode.Value) :=
    [(.length entry.length, .int entry.length), (.path entry.path, .list (entry.path.map .bytes))]
  have record : WritesRecord Item.key Item.Writes (items.map Prod.fst)
      (Bencode.Value.dict (items.map fun item => (Bytes.ofString item.1.key, item.2))).encode := by
    apply writesRecord_encode
    · simp only [items, List.forall_mem_cons]
      exact ⟨show (Bytes.ofString "length").length ≤ _ by decide,
        show (Bytes.ofString "path").length ≤ _ by decide, by simp⟩
    · simp only [items, List.forall_mem_cons]
      exact ⟨.length (writesInt_of_encode rfl), .path parts, by simp⟩
  exact ⟨_, [], .refl _, record⟩

def put (draft : Draft) : Item → Option Draft
  | .length number => if draft.length.isSome then none else some { draft with length := some number }
  | .path parts => if draft.path.isSome then none else some { draft with path := some parts }
  | .unknown _ => some draft

theorem put_commutes (draft : Draft) (item other : Item) :
    (put draft item).bind (put · other) = (put draft other).bind (put · item) := by
  cases item with
  | length =>
      cases other with
      | length => exact bind_put_again rfl rfl
      | path => exact bind_put_comm rfl rfl
      | unknown => simp [put]
  | path =>
      cases other with
      | length => exact bind_put_comm rfl rfl
      | path => exact bind_put_again rfl rfl
      | unknown => simp [put]
  | unknown => simp [put]

theorem reads_field (draft : Draft) (item : Item) (next : Draft) (text : Bytes) (writes : item.Writes text)
    (puts : put draft item = some next) (rest : Bytes) :
    (field item.key draft).Reads (text ++ rest) next rest := by
  cases writes with
  | length writes =>
      simp only [field, Item.key]
      exact reads_once puts (reads_integer writes rest)
  | path writes =>
      have read := reads_sequence writes (fun _ _ rest writes => reads_byteArray writes rest) rest
      simp only [field, Item.key]
      exact reads_once puts read
  | @unknown other _ foreign wellFormed =>
      have skipped : field (Item.unknown other).key draft = skip.map fun _ => draft := by
        simp only [field, Item.key]
        split <;> simp_all
      cases puts
      exact reads_ignored skipped wellFormed rest

theorem reads_reader {entry : Entry} {text : Bytes} (writes : entry.Writes text) (rest : Bytes) :
    reader.Reads (text ++ rest) entry rest := by
  obtain ⟨items, names, perm, record⟩ := writes
  have puts : items.foldlM put ⟨none, none⟩ = some ⟨some entry.length, some entry.path⟩ := by
    rw [foldlM_put_eq_of_perm put_commutes perm]
    show (names.map Item.unknown).foldlM put ⟨some entry.length, some entry.path⟩ = _
    exact foldlM_put_eq_self (by simp [put])
  have makes : ofDraft ⟨some entry.length, some entry.path⟩ = .ok entry := rfl
  unfold reader
  exact reads_record rfl reads_field record puts makes rest

end Entry

inductive Item where
  | name (content : Bytes)
  | length (number : Int64)
  | files (entries : List Entry)
  | pieceLength (number : Int64)
  | pieces (content : Bytes)
  | unknown (name : String)

def Item.key : Item → String
  | .name _ => "name"
  | .length _ => "length"
  | .files _ => "files"
  | .pieceLength _ => "piece length"
  | .pieces _ => "pieces"
  | .unknown other => other

inductive Item.Writes : Item → Bytes → Prop where
  | name {content text : Bytes} (writes : WritesBytes content text) : Writes (.name content) text
  | length {number : Int64} {text : Bytes} (writes : WritesInt number text) : Writes (.length number) text
  | files {entries : List Entry} {text : Bytes} (writes : WritesList Entry.Writes entries text) :
      Writes (.files entries) text
  | pieceLength {number : Int64} {text : Bytes} (writes : WritesInt number text) :
      Writes (.pieceLength number) text
  | pieces {content text : Bytes} (writes : WritesBytes content text) : Writes (.pieces content) text
  | unknown {name : String} {text : Bytes}
      (foreign : name ∉ ["name", "length", "files", "piece length", "pieces"])
      (wellFormed : WellFormed text) : Writes (.unknown name) text

def items (info : InfoDict) : List Item :=
  .name info.name :: (info.length.toList.map .length ++ info.files.toList.map .files ++
    info.pieceLength.toList.map .pieceLength ++ info.pieces.toList.map .pieces)

/-- The bytes of an info dictionary: a dictionary with what is given, and any other keys, in any order. -/
def Writes (info : InfoDict) (text : Bytes) : Prop :=
  ∃ (items : List Item) (names : List String), items.Perm (info.items ++ names.map .unknown) ∧
    WritesRecord Item.key Item.Writes items text

theorem writes_encode {info : InfoDict} {names : List String} {items : List (Item × Bencode.Value)}
    (perm : (items.map Prod.fst).Perm (info.items ++ names.map .unknown))
    (short : ∀ name ∈ names, (Bytes.ofString name).length ≤ Numeral.maxUInt64)
    (each : ∀ item ∈ items, item.1.Writes item.2.encode) :
    info.Writes (Bencode.Value.dict (items.map fun item => (Bytes.ofString item.1.key, item.2))).encode := by
  refine ⟨_, names, perm, writesRecord_encode ?_ each⟩
  intro item member
  have known : ∀ key ∈ ["name", "length", "files", "piece length", "pieces"],
      (Bytes.ofString key).length ≤ Numeral.maxUInt64 := by decide
  have among := perm.subset (List.mem_map_of_mem member)
  cases kind : item.1 with
  | unknown name =>
      have foreign : name ∈ names := by simpa [kind, InfoDict.items] using among
      exact short name foreign
  | _ => exact known _ (by simp [Item.key])

def put (draft : Draft) : Item → Option Draft
  | .name content => if draft.name.isSome then none else some { draft with name := some content }
  | .length number => if draft.length.isSome then none else some { draft with length := some number }
  | .files entries => if draft.files.isSome then none else some { draft with files := some entries }
  | .pieceLength number =>
      if draft.pieceLength.isSome then none else some { draft with pieceLength := some number }
  | .pieces content => if draft.pieces.isSome then none else some { draft with pieces := some content }
  | .unknown _ => some draft

theorem put_commutes (draft : Draft) (item other : Item) :
    (put draft item).bind (put · other) = (put draft other).bind (put · item) := by
  cases item with
  | name =>
      cases other with
      | name => exact bind_put_again rfl rfl
      | unknown => simp [put]
      | _ => exact bind_put_comm rfl rfl
  | length =>
      cases other with
      | length => exact bind_put_again rfl rfl
      | unknown => simp [put]
      | _ => exact bind_put_comm rfl rfl
  | files =>
      cases other with
      | files => exact bind_put_again rfl rfl
      | unknown => simp [put]
      | _ => exact bind_put_comm rfl rfl
  | pieceLength =>
      cases other with
      | pieceLength => exact bind_put_again rfl rfl
      | unknown => simp [put]
      | _ => exact bind_put_comm rfl rfl
  | pieces =>
      cases other with
      | pieces => exact bind_put_again rfl rfl
      | unknown => simp [put]
      | _ => exact bind_put_comm rfl rfl
  | unknown => simp [put]

theorem reads_field (draft : Draft) (item : Item) (next : Draft) (text : Bytes) (writes : item.Writes text)
    (puts : put draft item = some next) (rest : Bytes) :
    (field item.key draft).Reads (text ++ rest) next rest := by
  cases writes with
  | name writes =>
      simp only [field, Item.key]
      exact reads_once puts (reads_byteArray writes rest)
  | length writes =>
      simp only [field, Item.key]
      exact reads_once puts (reads_integer writes rest)
  | files writes =>
      have read := reads_sequence writes (fun _ _ rest writes => Entry.reads_reader writes rest) rest
      simp only [field, Item.key]
      exact reads_once puts read
  | pieceLength writes =>
      simp only [field, Item.key]
      exact reads_once puts (reads_integer writes rest)
  | pieces writes =>
      simp only [field, Item.key]
      exact reads_once puts (reads_byteArray writes rest)
  | @unknown other _ foreign wellFormed =>
      have skipped : field (Item.unknown other).key draft = skip.map fun _ => draft := by
        simp only [field, Item.key]
        split <;> simp_all
      cases puts
      exact reads_ignored skipped wellFormed rest

theorem foldlM_items (info : InfoDict) :
    info.items.foldlM put .empty =
      some ⟨some info.name, info.length, info.files, info.pieceLength, info.pieces⟩ := by
  obtain ⟨name, length, files, pieceLength, pieces⟩ := info
  cases length <;> cases files <;> cases pieceLength <;> cases pieces <;> rfl

/-- An info dictionary is read as what was written, whatever stands between and behind it. -/
theorem decode_of_writes {info : InfoDict} {front : Bytes} (writes : info.Writes front) (behind : Bytes) :
    decode (front ++ behind) = .ok info := by
  obtain ⟨items, names, perm, record⟩ := writes
  have puts : items.foldlM put .empty =
      some ⟨some info.name, info.length, info.files, info.pieceLength, info.pieces⟩ := by
    rw [foldlM_put_eq_of_perm put_commutes perm, List.foldlM_append, foldlM_items]
    exact foldlM_put_eq_self (by simp [put])
  have makes : ofDraft ⟨some info.name, info.length, info.files, info.pieceLength, info.pieces⟩ =
      .ok info := rfl
  have read : reader.Reads (front ++ behind) info behind := by
    unfold reader
    exact reads_record rfl reads_field record puts makes behind
  obtain ⟨reading, found, value, _⟩ := read
  simp [decode, Bencode.Typed.read, found, value]

end InfoDict

namespace Metadata

variable {info : InfoDict} {metadata : Metadata} {front : Bytes}

/-- A part of a path that is text is shown as this text. -/
theorem Shows.exists_part (shows : metadata.Shows info) {place : Nat} {entry : InfoDict.Entry}
    (listed : (info.files.getD [])[place]? = some entry) {index : Nat} {text : String}
    (part : entry.path[index]? = some (Bytes.ofString text)) :
    ∃ file, metadata.files[place]? = some file ∧ file.path[index]? = some text := by
  obtain ⟨within, rfl⟩ := List.getElem?_eq_some_iff.mp listed
  have among : place < metadata.files.length := shows.files.length_eq ▸ within
  have shown := shows.files.get among within
  refine ⟨metadata.files[place], List.getElem?_eq_getElem among, ?_⟩
  have path : metadata.files[place].path = _ := shown.path
  rw [path, List.getElem?_map]
  simp only [List.get_eq_getElem, part, Option.map_some, Utf8.lossy_ofString]

theorem ofBytes_of_writes (infoHash : InfoHash) (writes : info.Writes front) (behind : Bytes) :
    ofBytes infoHash (front ++ behind) = ofInfo infoHash info := by
  rw [ofBytes, InfoDict.decode_of_writes writes]

/-- An info dictionary is taken, in whatever order its keys stand, whatever other keys stand between them,
and whatever follows it, exactly if none of its sizes is below zero and it describes a file, and if no line
in the log has to tell a total size that leaves 64 bits: nothing comes of the reading then. The metadata say
what was written; text is shown as it is, and bytes that are no text with replacements. All others are
refused for what they say. -/
theorem ofBytes_written (logged : Bool) (infoHash : InfoHash) (writes : info.Writes front)
    (behind : Bytes) :
    let read := ofBytes? logged infoHash (front ++ behind)
    ((∃ metadata, read = some (.ok metadata)) ↔
      info.Nonnegative ∧ info.DescribesFile ∧ (logged = true → info.Summable)) ∧
    ((∃ cause, read = some (.error cause)) ↔ ¬ (info.Nonnegative ∧ info.DescribesFile)) ∧
    (read = none ↔
      info.Nonnegative ∧ info.DescribesFile ∧ logged = true ∧ ¬ info.Summable) ∧
    (∀ metadata, read = some (.ok metadata) →
      metadata.infoHash = infoHash ∧ metadata.Shows info ∧
      (∀ text, info.name = Bytes.ofString text → metadata.name = text) ∧
      ∀ (place : Nat) (entry : InfoDict.Entry), (info.files.getD [])[place]? = some entry →
        ∀ (index : Nat) text, entry.path[index]? = some (Bytes.ofString text) →
          ∃ file : File, metadata.files[place]? = some file ∧ file.path[index]? = some text) ∧
    ∀ cause, read = some (.error cause) → cause.toFailure.isMetadata = true := by
  intro read
  simp only [read, ofBytes?_eq_ok_iff, ofBytes?_eq_error_iff, ofBytes?_eq_none_iff,
    ofBytes_of_writes infoHash writes behind]
  refine ⟨exists_logged_iff, exists_ofInfo_error_iff, exists_unlogged_iff, ?_, ?_⟩
  · intro metadata given
    obtain ⟨found, taken, kept⟩ := given
    obtain ⟨asked, shows, _⟩ := ofInfo_eq_ok_iff.mp taken
    obtain ⟨rfl, _⟩ := shows.logged?_eq_some_iff.mp kept
    refine ⟨asked, shows, fun text named => ?_, fun place entry listed index text part => ?_⟩
    · rw [shows.name, named, Utf8.lossy_ofString]
    · exact shows.exists_part listed part
  · intro cause refused
    exact isMetadata_of_ofInfo refused

/-- A file with its keys out of order, another key between them, and bytes behind. -/
theorem ofBytes_written_foreignKey :
    let infoHash : InfoHash := ⟨List.replicate 20 0xab, rfl⟩
    let info : InfoDict := ⟨Bytes.ofString "n", some 3, none, none, none⟩
    let front := Bytes.ofString "d6:lengthi3e1:xle4:name1:ne"
    info.Writes front ∧ info.Nonnegative ∧ info.DescribesFile ∧ info.Summable ∧
      ∃ metadata, ofBytes? true infoHash (front ++ Bytes.ofString "tail") = some (.ok metadata) ∧
        metadata.name = "n" ∧ metadata.pieces = [] := by
  intro infoHash info front
  have nothing : WellFormed (Bytes.ofString "le") := @WellFormed.list [] (by simp)
  let items : List (InfoDict.Item × Bencode.Value) :=
    [(.length 3, .int 3), (.unknown "x", .list []), (.name (Bytes.ofString "n"), .bytes (Bytes.ofString "n"))]
  have perm : (items.map Prod.fst).Perm (info.items ++ ["x"].map .unknown) :=
    (List.Perm.cons _ (.swap ..)).trans (.swap ..)
  have encoded : front = (Bencode.Value.dict
      (items.map fun item => (Bytes.ofString item.1.key, item.2))).encode := by decide +kernel
  have writes : info.Writes front := by
    rw [encoded]
    apply InfoDict.writes_encode perm
    · decide
    · simp only [items, List.forall_mem_cons]
      exact ⟨.length (writesInt_of_encode rfl), .unknown (by decide) nothing,
        .name (writesBytes_of_encodeBytes (by decide) rfl), by simp⟩
  have nonnegative : info.Nonnegative := by simp [info, InfoDict.Nonnegative]
  obtain ⟨accepted, _, _, content, _⟩ := ofBytes_written true infoHash writes (Bytes.ofString "tail")
  obtain ⟨metadata, taken⟩ := accepted.mpr ⟨nonnegative, .inl rfl, fun _ => .inl rfl⟩
  obtain ⟨_, shows, named, _⟩ := content metadata taken
  exact ⟨writes, nonnegative, .inl rfl, .inl rfl, metadata, taken, named "n" rfl, shows.pieces⟩

/-- The sizes of three files add up to `2 ^ 64`, so that nothing comes of reading them with their line in
the log, while the same bytes are taken without it. -/
theorem unread_sizesBeyondWord :
    let infoHash : InfoHash := ⟨List.replicate 20 0xab, rfl⟩
    let entries : List InfoDict.Entry :=
      [⟨9223372036854775807, [Bytes.ofString "a"]⟩, ⟨9223372036854775807, [Bytes.ofString "b"]⟩,
        ⟨2, [Bytes.ofString "c"]⟩]
    let info : InfoDict := ⟨Bytes.ofString "x", none, some entries, none, none⟩
    let front := Bytes.ofString ("d5:filesld6:lengthi9223372036854775807e4:pathl1:aee" ++
      "d6:lengthi9223372036854775807e4:pathl1:beed6:lengthi2e4:pathl1:ceee4:name1:xe")
    info.Writes front ∧ info.Nonnegative ∧ info.DescribesFile ∧
      ofBytes? true infoHash front = none ∧
      ∃ metadata, ofBytes? false infoHash front = some (.ok metadata) ∧ metadata.name = "x" := by
  intro infoHash entries info front
  have written : ∀ entry ∈ entries, entry.Writes entry.toValue.encode := by
    simp only [entries, List.forall_mem_cons]
    exact ⟨InfoDict.Entry.writes_encode (by decide), InfoDict.Entry.writes_encode (by decide),
      InfoDict.Entry.writes_encode (by decide), by simp⟩
  let items : List (InfoDict.Item × Bencode.Value) :=
    [(.files entries, .list (entries.map InfoDict.Entry.toValue)),
      (.name (Bytes.ofString "x"), .bytes (Bytes.ofString "x"))]
  have encoded : front = (Bencode.Value.dict
      (items.map fun item => (Bytes.ofString item.1.key, item.2))).encode := by decide +kernel
  have perm : (items.map Prod.fst).Perm (info.items ++ [].map .unknown) := .swap ..
  have writes : info.Writes front := by
    rw [encoded]
    apply InfoDict.writes_encode perm (by simp)
    simp only [items, List.forall_mem_cons]
    exact ⟨.files (writesList_encode written), .name (writesBytes_of_encodeBytes (by decide) rfl), by simp⟩
  refine ⟨writes, ?_, .inr (by simp [info, entries]), ?_, ?_⟩
  · simp [InfoDict.Nonnegative, info, entries]
  · decide +kernel
  · exact ⟨⟨infoHash, "x", none, none, [⟨["a"], 9223372036854775807⟩, ⟨["b"], 9223372036854775807⟩,
      ⟨["c"], 2⟩], []⟩, by decide +kernel, rfl⟩

end Metadata

/-! ### Metadata of one file, as a peer has them -/

namespace PeerSide

theorem writes_singleFile (length : Nat) {pieces : Bytes} (short : pieces.length ≤ Numeral.maxUInt64) :
    InfoDict.Writes ⟨Bytes.ofString "fixture.bin", some (Int64.ofNat length), none, some 16384, some pieces⟩
      (singleFile length pieces) := by
  let items : List (InfoDict.Item × Bencode.Value) :=
    [(.length (Int64.ofNat length), .int (Int64.ofNat length)),
      (.name (Bytes.ofString "fixture.bin"), .bytes (Bytes.ofString "fixture.bin")),
      (.pieceLength 16384, .int 16384), (.pieces pieces, .bytes pieces)]
  have each : ∀ item ∈ items, item.1.Writes item.2.encode := by
    simp only [items, List.forall_mem_cons]
    exact ⟨.length (writesInt_of_encode rfl), .name (writesBytes_of_encodeBytes (by decide) rfl),
      .pieceLength (writesInt_of_encode rfl), .pieces (writesBytes_of_encodeBytes short rfl), by simp⟩
  have perm : (items.map Prod.fst).Perm (InfoDict.items ⟨Bytes.ofString "fixture.bin",
      some (Int64.ofNat length), none, some 16384, some pieces⟩ ++ [].map .unknown) := .swap ..
  exact InfoDict.writes_encode perm (by simp) each

theorem exists_ofBytes_singleFile (infoHash : InfoHash) {length : Nat} (small : length < 2 ^ 63)
    {pieces : Bytes} (short : pieces.length ≤ Numeral.maxUInt64) :
    ∃ metadata, Metadata.ofBytes infoHash (singleFile length pieces) = .ok metadata := by
  have read := Metadata.ofBytes_of_writes infoHash (writes_singleFile length short) []
  rw [List.append_nil] at read
  rw [read, Metadata.exists_ofInfo_iff]
  refine ⟨⟨?_, ?_, ?_⟩, .inl rfl⟩
  · intro given member
    obtain rfl : Int64.ofNat length = given := Option.some.inj member
    rw [Int64.toInt_ofNat_of_lt small]
    exact Int.natCast_nonneg length
  · simp
  · simp

theorem length_singleFile (length : Nat) (pieces : Bytes) :
    (singleFile length pieces).length + 2 =
      (singleFile length []).length + (Bencode.encodeBytes pieces).length := by
  let others : List (Bytes × Bencode.Value) :=
    [(Bytes.ofString "length", .int (Int64.ofNat length)),
      (Bytes.ofString "name", .bytes (Bytes.ofString "fixture.bin")),
      (Bytes.ofString "piece length", .int 16384)]
  have whole (entries : List (Bytes × Bencode.Value)) (key content : Bytes) :
      (Bencode.Value.dict (entries ++ [(key, .bytes content)])).encode.length =
        (Bencode.encodeEntries entries).length + (Bencode.encodeBytes key).length +
          (Bencode.encodeBytes content).length + 2 := by
    simp [Bencode.Value.encode, Bencode.encodeEntries_eq_flatMap]
    omega
  have empty : (Bencode.encodeBytes []).length = 2 := by decide +kernel
  have given : (singleFile length pieces).length = _ := whole others (Bytes.ofString "pieces") pieces
  have nothing : (singleFile length []).length = _ := whole others (Bytes.ofString "pieces") []
  omega

end PeerSide

end MetaExchange
