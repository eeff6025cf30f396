import Mathlib.Data.List.Forall2

namespace MetaExchange

variable {ε ε' α β : Type}

theorem Except.bind_eq_ok_iff {first : Except ε α} {next : α → Except ε β} {result : β} :
    first >>= next = .ok result ↔ ∃ value, first = .ok value ∧ next value = .ok result := by
  cases first with
  | error cause =>
      constructor
      · intro impossible
        cases impossible
      · intro given
        obtain ⟨_, impossible, _⟩ := given
        cases impossible
  | ok value =>
      constructor
      · intro succeeds
        exact ⟨value, rfl, succeeds⟩
      · intro given
        obtain ⟨_, ⟨rfl⟩, succeeds⟩ := given
        exact succeeds

theorem Except.mapError_eq_ok_iff {computed : Except ε α} {f : ε → ε'} {value : α} :
    computed.mapError f = .ok value ↔ computed = .ok value := by
  cases computed with
  | error cause =>
      constructor
      · intro impossible
        cases impossible
      · intro impossible
        cases impossible
  | ok found =>
      have mapped : (Except.ok found : Except ε α).mapError f = .ok found := rfl
      rw [mapped, Except.ok.injEq, Except.ok.injEq]

theorem Except.bind_eq_error_iff {first : Except ε α} {next : α → Except ε β} {cause : ε} :
    first >>= next = .error cause ↔
      first = .error cause ∨ ∃ value, first = .ok value ∧ next value = .error cause := by
  cases first with
  | error inner => simp [bind, Except.bind]
  | ok value => simp [bind, Except.bind]

theorem Except.mapError_eq_error_iff {computed : Except ε α} {f : ε → ε'} {cause : ε'} :
    computed.mapError f = .error cause ↔ ∃ inner, computed = .error inner ∧ f inner = cause := by
  cases computed with
  | error found =>
      have mapped : (Except.error found : Except ε α).mapError f = .error (f found) := rfl
      simp [mapped]
  | ok value =>
      have mapped : (Except.ok value : Except ε α).mapError f = .ok value := rfl
      simp [mapped]

theorem Except.pure_eq_ok_iff {value result : α} :
    (pure value : Except ε α) = .ok result ↔ value = result := by
  simp [pure, Except.pure]

theorem Except.map_eq_ok_iff {computed : Except ε α} {f : α → β} {result : β} :
    computed.map f = .ok result ↔ ∃ value, computed = .ok value ∧ f value = result := by
  cases computed with
  | error cause => simp [Except.map]
  | ok value => simp [Except.map]

theorem Except.map_eq_error_iff {computed : Except ε α} {f : α → β} {cause : ε} :
    computed.map f = .error cause ↔ computed = .error cause := by
  cases computed with
  | error cause => simp [Except.map]
  | ok value => simp [Except.map]

variable {f : α → Except ε β} {items : List α} {values : List β}

/-- A list of computations gives a list of values if each of them gives its own. -/
theorem Except.mapM_eq_ok_iff :
    items.mapM f = .ok values ↔ List.Forall₂ (fun value item => f item = .ok value) values items := by
  induction items generalizing values with
  | nil =>
      rw [List.mapM_nil, Except.pure_eq_ok_iff, List.forall₂_nil_right_iff]
      exact eq_comm
  | cons item items ih =>
      simp only [List.mapM_cons, Except.bind_eq_ok_iff, Except.pure_eq_ok_iff, ih,
        List.forall₂_cons_right_iff]
      constructor
      · intro given
        obtain ⟨first, computed, further, each, rfl⟩ := given
        exact ⟨first, further, computed, each, rfl⟩
      · intro given
        obtain ⟨first, further, computed, each, rfl⟩ := given
        exact ⟨first, computed, further, each, rfl⟩

theorem Except.exists_of_mapM_eq_error {cause : ε} (failed : items.mapM f = .error cause) :
    ∃ item ∈ items, f item = .error cause := by
  induction items with
  | nil => cases failed
  | cons item items ih =>
      simp only [List.mapM_cons, Except.bind_eq_error_iff] at failed
      rcases failed with here | ⟨_, _, further | ⟨_, _, impossible⟩⟩
      · exact ⟨item, by simp, here⟩
      · obtain ⟨other, member, there⟩ := ih further
        exact ⟨other, by simp [member], there⟩
      · cases impossible

theorem Except.exists_mapM_eq_ok_iff :
    (∃ values, items.mapM f = .ok values) ↔ ∀ item ∈ items, ∃ value, f item = .ok value := by
  constructor
  · intro given
    obtain ⟨values, each⟩ := given
    rw [Except.mapM_eq_ok_iff] at each
    induction each with
    | nil => simp
    | cons computed _ ih => exact List.forall_mem_cons.mpr ⟨⟨_, computed⟩, ih⟩
  · intro each
    cases computed : items.mapM f with
    | ok values => exact ⟨values, rfl⟩
    | error cause =>
        obtain ⟨item, member, failed⟩ := Except.exists_of_mapM_eq_error computed
        obtain ⟨value, given⟩ := each item member
        rw [given] at failed
        cases failed

end MetaExchange
