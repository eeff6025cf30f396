import MetaExchange.Bytes.Basic

namespace MetaExchange.Stream

/-- Bytes that wait until there are enough of them. They are kept newest first, and counted, so that adding
a few costs no more than those few. -/
structure Backlog where
  newestFirst : Bytes
  size : Nat
  size_eq : size = newestFirst.length

namespace Backlog

def toList (backlog : Backlog) : Bytes := backlog.newestFirst.reverse

def empty : Backlog := ⟨[], 0, rfl⟩

def append (backlog : Backlog) (bytes : Bytes) : Backlog :=
  bytes.foldl (fun backlog byte =>
    ⟨byte :: backlog.newestFirst, backlog.size + 1, by simp [backlog.size_eq]⟩) backlog

def ofList (bytes : Bytes) : Backlog := empty.append bytes

@[simp] theorem toList_empty : empty.toList = [] := rfl

@[simp] theorem length_toList (backlog : Backlog) : backlog.toList.length = backlog.size := by
  simp [toList, backlog.size_eq]

@[simp] theorem toList_append (backlog : Backlog) (bytes : Bytes) :
    (backlog.append bytes).toList = backlog.toList ++ bytes := by
  induction bytes generalizing backlog with
  | nil => simp [append]
  | cons byte rest ih =>
    have step := ih ⟨byte :: backlog.newestFirst, backlog.size + 1, by simp [backlog.size_eq]⟩
    simp only [append, List.foldl_cons] at step ⊢
    rw [step]
    simp [toList]

@[simp] theorem toList_ofList (bytes : Bytes) : (ofList bytes).toList = bytes := by
  simp [ofList]

@[ext] theorem ext {a b : Backlog} (same : a.toList = b.toList) : a = b := by
  obtain ⟨listA, sizeA, countedA⟩ := a
  obtain ⟨listB, sizeB, countedB⟩ := b
  have lists : listA = listB := List.reverse_inj.mp same
  subst lists countedA countedB
  rfl

end Backlog

end MetaExchange.Stream
