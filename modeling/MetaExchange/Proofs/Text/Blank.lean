import Mathlib.Data.List.TakeWhile
import MetaExchange.Text.Blank

namespace MetaExchange.Text

variable {isDropped : Char → Bool} {front middle back text : List Char}

theorem trimEnd_append (dropped : ∀ c ∈ back, isDropped c = true) :
    trimEnd isDropped (text ++ back) = trimEnd isDropped text := by
  have each : ∀ c ∈ back.reverse, isDropped c = true := fun c member =>
    dropped c (List.mem_reverse.mp member)
  rw [trimEnd, List.reverse_append, List.dropWhile_append_of_pos each, trimEnd]

theorem trimEnd_eq_self (kept : ∀ c ∈ text, isDropped c = false) : trimEnd isDropped text = text := by
  have whole : text.reverse.dropWhile isDropped = text.reverse := by
    rw [List.dropWhile_eq_self_iff]
    intro nonempty
    have member : text.reverse[0] ∈ text := List.mem_reverse.mp (List.getElem_mem nonempty)
    exact Bool.eq_false_iff.mp (kept _ member)
  rw [trimEnd, whole, List.reverse_reverse]

theorem trim_append (frontBlank : ∀ c ∈ front, isBlank c = true)
    (kept : ∀ c ∈ middle, isBlank c = false) (backBlank : ∀ c ∈ back, isBlank c = true) :
    trim (front ++ middle ++ back) = middle := by
  cases middle with
  | nil =>
      have blank : ∀ c ∈ front ++ back, isBlank c = true := fun c member =>
        (List.mem_append.mp member).elim (frontBlank c) (backBlank c)
      rw [List.append_nil, trim, List.dropWhile_eq_nil_iff.mpr blank]
      rfl
  | cons first others =>
      have start : isBlank first = false := kept first List.mem_cons_self
      rw [trim, List.append_assoc, List.dropWhile_append_of_pos frontBlank, List.cons_append,
        List.dropWhile_cons_of_neg (Bool.eq_false_iff.mp start), ← List.cons_append,
        trimEnd_append backBlank, trimEnd_eq_self kept]

theorem trim_eq_self (kept : ∀ c ∈ text, isBlank c = false) : trim text = text := by
  have trimmed := trim_append (List.forall_mem_nil _) kept (List.forall_mem_nil _)
  rwa [List.nil_append, List.append_nil] at trimmed

end MetaExchange.Text
