import MetaExchange.Proofs.Outcome
import MetaExchange.Proofs.Target.Hash
import MetaExchange.Proofs.Target.Query

/-!
A magnet link is read pair by pair. The last info hash and the last name count, but an info hash that is
badly formed spoils the link wherever it stands (`Draft.Reads`).
-/

namespace MetaExchange.Target

variable {digits query : List Char} {name : String} {pair : String × String}
  {pairs before after : List (String × String)} {draft next last : Draft} {target : Target}

/-- What a pair gives as an info hash: everything behind the scheme. -/
def hashText? (pair : String × String) : Option (List Char) :=
  if pair.1 = "xt" then after? hashScheme pair.2.toList else none

def name? (pair : String × String) : Option String :=
  if pair.1 = "dn" then some pair.2 else none

def counts (pair : String × String) : Bool :=
  pair.1 = "dn" || (pair.1 = "xt" && hashScheme.isPrefixOf pair.2.toList)

theorem toList_eq_hashScheme_append_iff {value : String} :
    value.toList = hashScheme ++ digits ↔ value = "urn:btih:" ++ String.ofList digits := by
  rw [← String.toList_inj, String.toList_append, @String.toList_ofList digits]
  exact Iff.rfl

theorem hashText?_eq_some_iff :
    hashText? pair = some digits ↔ pair = ("xt", "urn:btih:" ++ String.ofList digits) := by
  rw [hashText?, Option.ite_none_right_eq_some, after?_eq_some_iff, Prod.ext_iff,
    toList_eq_hashScheme_append_iff]

theorem name?_eq_some_iff : name? pair = some name ↔ pair = ("dn", name) := by
  obtain ⟨key, value⟩ := pair
  simp [name?]

theorem pair_cases (pair : String × String) :
    (∃ digits, hashText? pair = some digits ∧ name? pair = none) ∨
      (∃ name, hashText? pair = none ∧ name? pair = some name) ∨
      hashText? pair = none ∧ name? pair = none := by
  cases given : hashText? pair with
  | none =>
      cases named : name? pair with
      | none => exact .inr (.inr ⟨rfl, rfl⟩)
      | some name => exact .inr (.inl ⟨name, rfl, rfl⟩)
  | some digits =>
      obtain rfl := hashText?_eq_some_iff.mp given
      exact .inl ⟨digits, rfl, rfl⟩

theorem counts_eq_false_iff : counts pair = false ↔ hashText? pair = none ∧ name? pair = none := by
  by_cases hash : pair.1 = "xt"
  · simp [counts, hashText?, name?, after?_eq_none_iff, ← List.isPrefixOf_iff_prefix, hash]
  · simp [counts, hashText?, name?, hash]

/-! ### One pair -/

theorem Draft.add_of_hashText? (given : hashText? pair = some digits) :
    draft.add pair = (hashOf (String.ofList digits)).map ({ draft with infoHash := some · }) := by
  obtain ⟨key, value⟩ := pair
  rw [hashText?, Option.ite_none_right_eq_some] at given
  obtain ⟨rfl, behind⟩ := given
  simp only [Draft.add, behind]

theorem Draft.add_of_name? (given : name? pair = some name) :
    draft.add pair = .ok { draft with displayName := some name } := by
  rw [name?_eq_some_iff] at given
  subst given
  rfl

theorem Draft.add_of_neither (hash : hashText? pair = none) (name : name? pair = none) :
    draft.add pair = .ok draft := by
  obtain ⟨key, value⟩ := pair
  unfold Draft.add
  split
  · next value same =>
      cases same
      rw [hashText?, if_pos rfl] at hash
      simp [hash]
  · next value same =>
      cases same
      simp [name?] at name
  · rfl

theorem Draft.exists_add (draft : Draft)
    (wellFormed : ∀ digits, hashText? pair = some digits → IsHash digits) :
    ∃ next, draft.add pair = .ok next := by
  rcases pair_cases pair with ⟨digits, given, _⟩ | ⟨name, _, named⟩ | ⟨unhashed, unnamed⟩
  · obtain ⟨hash, found⟩ := exists_hashOf_iff.mpr (wellFormed digits given)
    rw [Draft.add_of_hashText? given, found]
    exact ⟨_, rfl⟩
  · exact ⟨_, Draft.add_of_name? named⟩
  · exact ⟨_, Draft.add_of_neither unhashed unnamed⟩

/-! ### All pairs -/

theorem getLast?_filterMap_eq_some_iff {α β : Type} {f : α → Option β} {write : β → α}
    {items : List α} {value : β} (gives : ∀ {item value}, f item = some value ↔ item = write value) :
    (items.filterMap f).getLast? = some value ↔
      ∃ before after, items = before ++ write value :: after ∧ ∀ other, write other ∉ after := by
  have none_iff (later : List α) :
      (∀ item ∈ later, f item = none) ↔ ∀ other, write other ∉ later := by
    simp only [Option.eq_none_iff_forall_ne_some, ne_eq, gives]
    exact ⟨fun none other member => none _ member other rfl,
      fun absent item member other same => absent other (same ▸ member)⟩
  rw [List.getLast?_filterMap, List.findSome?_eq_some_iff]
  refine ⟨fun given => ?_, fun given => ?_⟩
  · obtain ⟨after, item, before, split, here, later⟩ := given
    obtain rfl := gives.mp here
    rw [List.reverse_eq_iff] at split
    have none : ∀ item ∈ after.reverse, f item = none := by simpa using later
    exact ⟨before.reverse, after.reverse, by simp [split], (none_iff _).mp none⟩
  · obtain ⟨before, after, rfl, later⟩ := given
    have none : ∀ item ∈ after.reverse, f item = none := by simpa using (none_iff _).mpr later
    exact ⟨after.reverse, write value, before.reverse, by simp, gives.mpr rfl, none⟩

/-- What a draft knows after pairs: its hash and its name come from the last pairs that gave one, and
there was no hash that is badly formed. -/
structure Draft.Reads (draft : Draft) (pairs : List (String × String)) : Prop where
  wellFormed : ∀ pair ∈ pairs, ∀ digits, hashText? pair = some digits → IsHash digits
  infoHash : draft.infoHash.map (Hex.digits ·.toBytes) =
    (pairs.filterMap hashText?).getLast?.map (List.map Char.toLower)
  displayName : draft.displayName = (pairs.filterMap name?).getLast?

theorem Draft.Reads.add (reads : draft.Reads pairs) (added : draft.add pair = .ok next) :
    next.Reads (pairs ++ [pair]) := by
  obtain ⟨wellFormed, infoHash, displayName⟩ := reads
  have both (here : ∀ digits, hashText? pair = some digits → IsHash digits) :
      ∀ other ∈ pairs ++ [pair], ∀ digits, hashText? other = some digits → IsHash digits :=
    List.forall_mem_append.mpr ⟨wellFormed, List.forall_mem_singleton.mpr here⟩
  rcases pair_cases pair with ⟨digits, given, unnamed⟩ | ⟨name, unhashed, named⟩ | ⟨unhashed, unnamed⟩
  · rw [Draft.add_of_hashText? given, Except.map_eq_ok_iff] at added
    obtain ⟨hash, found, rfl⟩ := added
    refine ⟨both ?_, ?_, ?_⟩
    · rintro _ same
      cases given.symm.trans same
      exact exists_hashOf_iff.mp ⟨hash, found⟩
    · simp [given, (hashOf_eq_ok_iff.mp found).symm]
    · simp [unnamed, displayName]
  · rw [Draft.add_of_name? named, Except.ok.injEq] at added
    subst added
    exact ⟨both (by simp [unhashed]), by simpa [unhashed] using infoHash, by simp [named]⟩
  · rw [Draft.add_of_neither unhashed unnamed, Except.ok.injEq] at added
    subst added
    exact ⟨both (by simp [unhashed]), by simpa [unhashed] using infoHash,
      by simpa [unnamed] using displayName⟩

theorem Draft.Reads.foldlM (reads : draft.Reads before) (read : after.foldlM Draft.add draft = .ok last) :
    last.Reads (before ++ after) := by
  induction after generalizing draft before with
  | nil =>
      cases read
      rwa [List.append_nil]
  | cons pair after ih =>
      rw [List.foldlM_cons, Except.bind_eq_ok_iff] at read
      obtain ⟨next, added, further⟩ := read
      rw [List.append_cons]
      exact ih (reads.add added) further

theorem Draft.reads_of_foldlM (read : pairs.foldlM Draft.add ⟨none, none⟩ = .ok draft) :
    draft.Reads pairs := by
  have start : Draft.Reads ⟨none, none⟩ [] := ⟨by simp, rfl, rfl⟩
  exact start.foldlM read

theorem Draft.exists_foldlM
    (wellFormed : ∀ pair ∈ pairs, ∀ digits, hashText? pair = some digits → IsHash digits)
    (draft : Draft) :
    ∃ last, pairs.foldlM Draft.add draft = .ok last := by
  induction pairs generalizing draft with
  | nil => exact ⟨draft, rfl⟩
  | cons pair pairs ih =>
      obtain ⟨here, there⟩ := List.forall_mem_cons.mp wellFormed
      obtain ⟨next, added⟩ := draft.exists_add here
      rw [List.foldlM_cons, added]
      exact ih there next

theorem Draft.foldlM_filter_counts :
    (pairs.filter counts).foldlM Draft.add draft = pairs.foldlM Draft.add draft := by
  induction pairs generalizing draft with
  | nil => rfl
  | cons pair pairs ih =>
      cases counted : counts pair with
      | true => simp [counted, ih]
      | false =>
          obtain ⟨unhashed, unnamed⟩ := counts_eq_false_iff.mp counted
          rw [List.filter_cons_of_neg (Bool.eq_false_iff.mp counted), ih, List.foldlM_cons,
            Draft.add_of_neither unhashed unnamed]
          rfl

/-! ### The link -/

theorem ofPairs_eq_ok_iff :
    ofPairs pairs = .ok target ↔
      ∃ draft : Draft, pairs.foldlM Draft.add ⟨none, none⟩ = .ok draft ∧
        draft.infoHash = some target.infoHash ∧ draft.displayName = target.displayName := by
  obtain ⟨hash, name⟩ := target
  rw [ofPairs, Except.bind_eq_ok_iff]
  refine exists_congr fun draft => and_congr_right fun _ => ?_
  cases draft.infoHash with
  | none => simp [throw, throwThe, MonadExceptOf.throw]
  | some infoHash => simp [Except.pure_eq_ok_iff]

/-- The last pair that gives a hash, and the last that gives a name, are what a target is made of. -/
theorem last_of_ofPairs (read : ofPairs pairs = .ok target) :
    (∃ before digits after, pairs = before ++ ("xt", "urn:btih:" ++ String.ofList digits) :: after ∧
      (∀ later, ("xt", "urn:btih:" ++ String.ofList later) ∉ after) ∧
      digits.map Char.toLower = (Hex.encode target.infoHash.toBytes).toList) ∧
    ∀ name, target.displayName = some name ↔
      ∃ before after, pairs = before ++ ("dn", name) :: after ∧ ∀ later, ("dn", later) ∉ after := by
  obtain ⟨draft, folded, hash, name⟩ := ofPairs_eq_ok_iff.mp read
  obtain ⟨_, infoHash, displayName⟩ := Draft.reads_of_foldlM folded
  refine ⟨?_, fun given => ?_⟩
  · rw [hash, Option.map_some, eq_comm, Option.map_eq_some_iff] at infoHash
    obtain ⟨digits, found, lowered⟩ := infoHash
    obtain ⟨before, after, split, later⟩ :=
      (getLast?_filterMap_eq_some_iff hashText?_eq_some_iff).mp found
    exact ⟨before, digits, after, split, later, lowered.trans (Hex.toList_encode _).symm⟩
  · rw [← name, displayName]
    exact getLast?_filterMap_eq_some_iff name?_eq_some_iff

theorem exists_ofPairs_iff :
    (∃ target, ofPairs pairs = .ok target) ↔
      (∃ digits, ("xt", "urn:btih:" ++ String.ofList digits) ∈ pairs) ∧
        ∀ digits, ("xt", "urn:btih:" ++ String.ofList digits) ∈ pairs → IsHash digits := by
  refine ⟨fun given => ?_, fun given => ?_⟩
  · obtain ⟨target, read⟩ := given
    obtain ⟨draft, folded, _⟩ := ofPairs_eq_ok_iff.mp read
    have wellFormed := (Draft.reads_of_foldlM folded).wellFormed
    obtain ⟨⟨before, digits, after, rfl, _⟩, _⟩ := last_of_ofPairs read
    exact ⟨⟨digits, by simp⟩, fun digits member =>
      wellFormed _ member digits (hashText?_eq_some_iff.mpr rfl)⟩
  · obtain ⟨⟨digits, member⟩, wellFormed⟩ := given
    have each : ∀ pair ∈ pairs, ∀ digits, hashText? pair = some digits → IsHash digits := by
      intro pair member digits given
      obtain rfl := hashText?_eq_some_iff.mp given
      exact wellFormed digits member
    have found : digits ∈ pairs.filterMap hashText? :=
      List.mem_filterMap.mpr ⟨_, member, hashText?_eq_some_iff.mpr rfl⟩
    obtain ⟨draft, folded⟩ := Draft.exists_foldlM each ⟨none, none⟩
    have infoHash := (Draft.reads_of_foldlM folded).infoHash
    cases hash : draft.infoHash with
    | some infoHash => exact ⟨⟨infoHash, _⟩, ofPairs_eq_ok_iff.mpr ⟨draft, folded, hash, rfl⟩⟩
    | none =>
        -- A draft without a hash would have read no pair that gives one.
        rw [hash, Option.map_none, eq_comm, Option.map_eq_none_iff,
          List.getLast?_eq_none_iff] at infoHash
        rw [infoHash] at found
        cases found

theorem ofPairs_filter_counts : ofPairs (pairs.filter counts) = ofPairs pairs := by
  rw [ofPairs, ofPairs, Draft.foldlM_filter_counts]

theorem not_blank_of_isKept {c : Char} (kept : Query.IsKept c) :
    Text.isBlank c = false ∧ ¬c.toNat ≤ 0x20 ∧ c ≠ '\t' ∧ c ≠ '\n' ∧ c ≠ '\r' := by
  have each : ∀ c : Char, c.toNat < 0x80 → Query.IsKept c →
      Text.isBlank c = false ∧ ¬c.toNat ≤ 0x20 ∧ c ≠ '\t' ∧ c ≠ '\n' ∧ c ≠ '\r' :=
    Hex.forall_of_ascii (by decide +kernel)
  exact each c kept.ascii kept

theorem queryOf_eq (kept : ∀ c ∈ query, Query.IsKept c) : queryOf query = query.map Char.toUInt8 := by
  have trimmed : Text.trimEnd (·.toNat ≤ 0x20) query = query :=
    Text.trimEnd_eq_self fun c member => decide_eq_false (not_blank_of_isKept (kept c member)).2.1
  have filtered : (query.filter fun c => c ≠ '\t' && c ≠ '\n' && c ≠ '\r') = query := by
    rw [List.filter_eq_self]
    intro c member
    simp [(not_blank_of_isKept (kept c member)).2.2]
  have whole : query.takeWhile (· ≠ '#') = query := by
    rw [List.takeWhile_eq_self_iff]
    exact fun c member => decide_eq_true (kept c member).2.2
  simp only [queryOf, trimmed, filtered, whole]
  exact Utf8.encode_of_ascii fun c member => (kept c member).ascii

theorem parse_link (written : Query.WritesForm pairs query) :
    parse ("magnet:?" ++ String.ofList query) = ofPairs pairs := by
  have start : magnetStart.all (decide <| Query.IsKept ·) = true := by decide
  have kept := written.kept
  have trimmed : Text.trim ("magnet:?" ++ String.ofList query).toList = magnetStart ++ query := by
    have both : ∀ c ∈ magnetStart ++ query, Query.IsKept c :=
      List.forall_mem_append.mpr ⟨by simpa using start, kept⟩
    rw [String.toList_append, @String.toList_ofList query]
    exact Text.trim_eq_self fun c member => (not_blank_of_isKept (both c member)).1
  rw [parse, trimmed, after?_eq_some_iff.mpr rfl]
  dsimp only
  rw [queryOf_eq kept, Query.pairs_of_writesForm written]

/-- A link gives a target exactly if one of its pairs holds an info hash and every one that does holds
forty digits. The last of them and the last name are taken, and other pairs change nothing. -/
theorem parse_magnet_exact (written : Query.WritesForm pairs query) :
    ((∃ target, parse ("magnet:?" ++ String.ofList query) = .ok target) ↔
      (∃ digits, ("xt", "urn:btih:" ++ String.ofList digits) ∈ pairs) ∧
        ∀ digits, ("xt", "urn:btih:" ++ String.ofList digits) ∈ pairs → IsHash digits) ∧
    (∀ target, parse ("magnet:?" ++ String.ofList query) = .ok target →
      (∃ before digits after, pairs = before ++ ("xt", "urn:btih:" ++ String.ofList digits) :: after ∧
        (∀ later, ("xt", "urn:btih:" ++ String.ofList later) ∉ after) ∧
        digits.map Char.toLower = (Hex.encode target.infoHash.toBytes).toList) ∧
      ∀ name, target.displayName = some name ↔
        ∃ before after, pairs = before ++ ("dn", name) :: after ∧ ∀ later, ("dn", later) ∉ after) ∧
    ∀ others form, Query.WritesForm others form → others.filter counts = pairs.filter counts →
      parse ("magnet:?" ++ String.ofList form) = parse ("magnet:?" ++ String.ofList query) := by
  rw [parse_link written]
  refine ⟨exists_ofPairs_iff, fun target read => last_of_ofPairs read,
    fun others form otherWritten same => ?_⟩
  rw [parse_link otherWritten, ← ofPairs_filter_counts, same, ofPairs_filter_counts]

def twoTopics : List (String × String) :=
  [("xt", "urn:btih:DD8255ECDC7CA55FB0BBF81323D87062DB1F6D1C"), ("xt", "urn:sha1:1"), ("dn", "Ω b")]

/-- Two topics, of which one is an info hash in capitals, and a name that is not ASCII. -/
theorem parse_magnet_exact_twoTopics :
    Query.WritesForm twoTopics (Query.form twoTopics) ∧
      String.ofList (Query.form twoTopics) =
        "xt=urn%3Abtih%3ADD8255ECDC7CA55FB0BBF81323D87062DB1F6D1C&xt=urn%3Asha1%3A1&dn=%CE%A9+b" ∧
      ∃ target, parse ("magnet:?" ++ String.ofList (Query.form twoTopics)) = .ok target ∧
        target.displayName = some "Ω b" := by
  have written := Query.writesForm_form twoTopics
  have wellFormed : ∀ pair ∈ twoTopics, ∀ digits ∈ hashText? pair, IsHash digits := by decide +kernel
  obtain ⟨succeeds, last, _⟩ := parse_magnet_exact written
  obtain ⟨target, read⟩ := succeeds.mpr
    ⟨⟨"DD8255ECDC7CA55FB0BBF81323D87062DB1F6D1C".toList, by decide +kernel⟩,
      fun digits member => wellFormed _ member digits (hashText?_eq_some_iff.mpr rfl)⟩
  exact ⟨written, by decide +kernel, target, read,
    ((last target read).2 "Ω b").mpr ⟨twoTopics.take 2, [], rfl, by simp⟩⟩

end MetaExchange.Target
