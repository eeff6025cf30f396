import MetaExchange.Bencode.Value

namespace MetaExchange.Bencode

variable {key sought : Bytes} {held : Value} {entry : Bytes × Value}
  {entries others written : List (Bytes × Value)}

def Ascending (entries : List (Bytes × Value)) : Prop :=
  entries.Pairwise fun entry later => entry.1 < later.1

theorem ascending_cons_iff :
    Ascending (entry :: entries) ↔ (∀ later ∈ entries, entry.1 < later.1) ∧ Ascending entries :=
  List.pairwise_cons

theorem insertEarlier_of_forall_lt (first : ∀ entry ∈ entries, key < entry.1) :
    insertEarlier key held entries = (key, held) :: entries := by
  cases entries with
  | nil => rfl
  | cons entry entries =>
      unfold insertEarlier
      rw [if_pos (first entry (by simp))]

theorem entriesOf_of_ascending (ascending : Ascending entries) : entriesOf entries = entries := by
  unfold entriesOf
  induction ascending with
  | nil => rfl
  | cons first _ ih =>
      rw [List.foldr_cons, ih]
      exact insertEarlier_of_forall_lt first

theorem lookup_cons_of_ne (other : sought ≠ key) :
    ((key, held) :: entries).lookup sought = entries.lookup sought := by
  have differs : (sought == key) = false := by simpa using other
  simp [List.lookup_cons, differs]

theorem lookup_eq_none_of_forall_lt (first : ∀ entry ∈ entries, sought < entry.1) :
    entries.lookup sought = none := by
  induction entries with
  | nil => rfl
  | cons entry entries ih =>
      have before : sought < entry.1 := first entry (by simp)
      have other : sought ≠ entry.1 := by
        intro same
        exact List.lt_irrefl _ (same ▸ before)
      rw [lookup_cons_of_ne other]
      exact ih fun later member => first later (by simp [member])

theorem lookup_eq_none_of_ascending (ascending : Ascending ((key, held) :: entries)) :
    entries.lookup key = none :=
  lookup_eq_none_of_forall_lt (ascending_cons_iff.mp ascending).1

theorem lookup_eq_none_of_lt_first (ascending : Ascending ((key, held) :: entries))
    (before : sought < key) : ((key, held) :: entries).lookup sought = none := by
  apply lookup_eq_none_of_forall_lt
  intro later member
  rcases List.mem_cons.mp member with rfl | member
  · exact before
  · exact List.lt_trans before ((ascending_cons_iff.mp ascending).1 later member)

theorem not_lt_of_lookup_eq_some (ascending : Ascending ((key, held) :: entries)) {kept : Value}
    (known : ((key, held) :: entries).lookup sought = some kept) : ¬ sought < key := by
  intro before
  rw [lookup_eq_none_of_lt_first ascending before] at known
  cases known

theorem eq_or_mem_of_mem_insertEarlier (member : entry ∈ insertEarlier key held entries) :
    entry = (key, held) ∨ entry ∈ entries := by
  induction entries with
  | nil => simpa [insertEarlier] using member
  | cons head entries ih =>
      simp only [insertEarlier] at member
      split at member
      · exact List.mem_cons.mp member
      · split at member
        · exact .inr member
        · rcases List.mem_cons.mp member with first | further
          · exact .inr (by simp [first])
          · exact (ih further).imp_right (List.mem_cons_of_mem _)

theorem ascending_insertEarlier (ascending : Ascending entries) :
    Ascending (insertEarlier key held entries) := by
  induction entries with
  | nil => simp [insertEarlier, Ascending]
  | cons head entries ih =>
      obtain ⟨first, further⟩ := ascending_cons_iff.mp ascending
      simp only [insertEarlier]
      split
      · next before =>
          refine ascending_cons_iff.mpr ⟨?_, ascending⟩
          intro later member
          rcases List.mem_cons.mp member with rfl | member
          · exact before
          · exact List.lt_trans before (first later member)
      · next reached =>
          split
          · exact ascending
          · next other =>
              refine ascending_cons_iff.mpr ⟨?_, ih further⟩
              intro later member
              rcases eq_or_mem_of_mem_insertEarlier member with rfl | member
              · exact Std.lt_of_le_of_ne (List.not_lt.mp reached) (Ne.symm other)
              · exact first later member

theorem ascending_entriesOf (written : List (Bytes × Value)) : Ascending (entriesOf written) := by
  induction written with
  | nil => exact List.Pairwise.nil
  | cons entry written ih => exact ascending_insertEarlier ih

theorem lookup_insertEarlier (ascending : Ascending entries) :
    (insertEarlier key held entries).lookup sought =
      (entries.lookup sought).or ([(key, held)].lookup sought) := by
  induction entries with
  | nil => rfl
  | cons head entries ih =>
      obtain ⟨name, kept⟩ := head
      simp only [insertEarlier]
      split
      · next before =>
          by_cases same : sought = key
          · subst same
            simp [lookup_eq_none_of_lt_first ascending before]
          · rw [lookup_cons_of_ne same, lookup_cons_of_ne same]
            simp
      · split
        · next same =>
            subst same
            by_cases found : sought = key
            · simp [found]
            · simp [lookup_cons_of_ne found]
        · by_cases found : sought = name
          · simp [found]
          · rw [lookup_cons_of_ne found, lookup_cons_of_ne found,
              ih (ascending_cons_iff.mp ascending).2]

theorem lookup_entriesOf (written : List (Bytes × Value)) (sought : Bytes) :
    (entriesOf written).lookup sought = written.reverse.lookup sought := by
  induction written with
  | nil => rfl
  | cons entry written ih =>
      rw [List.reverse_cons, List.lookup_append, ← ih]
      exact lookup_insertEarlier (ascending_entriesOf written)

theorem lookup_eq_some_iff_mem (ascending : Ascending entries) :
    entries.lookup sought = some held ↔ (sought, held) ∈ entries := by
  induction entries with
  | nil => simp
  | cons head entries ih =>
      obtain ⟨key, kept⟩ := head
      obtain ⟨first, further⟩ := ascending_cons_iff.mp ascending
      by_cases same : sought = key
      · subst same
        have absent : (sought, held) ∉ entries :=
          fun member => List.lt_irrefl _ (first (sought, held) member)
        simp [List.lookup_cons_self, absent, eq_comm]
      · simp [lookup_cons_of_ne same, ih further, same]

theorem getInt?_dict_eq_some_iff (ascending : Ascending entries) {key : String} {number : Int64} :
    (Value.dict entries).getInt? key = some number ↔
      (Bytes.ofString key, Value.int number) ∈ entries := by
  rw [← lookup_eq_some_iff_mem ascending]
  simp only [Value.getInt?, Value.get?, Value.asDict?, Option.bind_some, Option.bind_eq_some_iff]
  refine ⟨fun given => ?_, fun found => ⟨_, found, rfl⟩⟩
  obtain ⟨held, found, isNumber⟩ := given
  cases held with
  | int value =>
      cases isNumber
      exact found
  | _ => cases isNumber

/-- Ascending entries are known by what is held under each key. -/
theorem eq_of_lookup_eq (ascending : Ascending entries) (ascends : Ascending others)
    (same : ∀ key, entries.lookup key = others.lookup key) : entries = others := by
  induction entries generalizing others with
  | nil =>
      cases others with
      | nil => rfl
      | cons head others =>
          have none := same head.1
          rw [List.lookup_cons_self] at none
          cases none
  | cons head entries ih =>
      obtain ⟨key, held⟩ := head
      cases others with
      | nil =>
          have none := same key
          rw [List.lookup_cons_self] at none
          cases none
      | cons head others =>
          obtain ⟨first, kept⟩ := head
          have lower : ¬ key < first :=
            not_lt_of_lookup_eq_some ascends ((same key).symm.trans List.lookup_cons_self)
          have upper : ¬ first < key :=
            not_lt_of_lookup_eq_some ascending ((same first).trans List.lookup_cons_self)
          obtain rfl : key = first := Std.le_antisymm (List.not_lt.mp upper) (List.not_lt.mp lower)
          obtain rfl : held = kept := by simpa [List.lookup_cons_self] using same key
          have tails : entries = others := by
            refine ih (ascending_cons_iff.mp ascending).2 (ascending_cons_iff.mp ascends).2 ?_
            intro sought
            by_cases found : sought = key
            · rw [found, lookup_eq_none_of_ascending ascending, lookup_eq_none_of_ascending ascends]
            · have tail := same sought
              rw [lookup_cons_of_ne found, lookup_cons_of_ne found] at tail
              exact tail
          rw [tails]

theorem entriesOf_eq_of_lookup (ascending : Ascending entries)
    (last : ∀ key, entries.lookup key = written.reverse.lookup key) : entriesOf written = entries := by
  apply eq_of_lookup_eq (ascending_entriesOf written) ascending
  intro key
  rw [lookup_entriesOf, last]

end MetaExchange.Bencode
