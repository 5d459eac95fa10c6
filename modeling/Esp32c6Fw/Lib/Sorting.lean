import Mathlib.Data.List.Sort

namespace Esp32c6Fw.Sorting

variable {α : Type} {r : α → α → Prop} [DecidableRel r] [IsTrans α r]
  {l l' l₁ l₂ : List α} {x : α}

theorem orderedInsert_remove (h : ∀ z ∈ l₂, r x z) (y : α) :
    ∃ m₁ m₂, (l₁ ++ x :: l₂).orderedInsert r y = m₁ ++ x :: m₂ ∧
      (l₁ ++ l₂).orderedInsert r y = m₁ ++ m₂ := by
  induction l₁ with
  | nil =>
    by_cases hyx : r y x
    · refine ⟨[y], l₂, List.orderedInsert_cons_of_le r l₂ hyx, ?_⟩
      cases l₂ with
      | nil => rfl
      | cons z l₂ =>
        have hyz : r y z := IsTrans.trans _ _ _ hyx (h z (List.mem_cons_self ..))
        exact List.orderedInsert_cons_of_le r l₂ hyz
    · exact ⟨[], l₂.orderedInsert r y, List.orderedInsert_of_not_le r l₂ hyx, rfl⟩
  | cons z l₁ ih =>
    by_cases hyz : r y z
    · exact ⟨y :: z :: l₁, l₂, List.orderedInsert_cons_of_le r _ hyz,
        List.orderedInsert_cons_of_le r _ hyz⟩
    · obtain ⟨m₁, m₂, hx, hm⟩ := ih
      refine ⟨z :: m₁, m₂, ?_, ?_⟩
      · rw [List.cons_append, List.orderedInsert_of_not_le r _ hyz, hx]
        rfl
      · rw [List.cons_append, List.orderedInsert_of_not_le r _ hyz, hm]
        rfl

variable [Std.Total r]

/-- Sorting forgets the order of a list in which no two elements are equivalent. -/
theorem insertionSort_eq_of_perm (h : l.Perm l')
    (hr : ∀ a ∈ l, ∀ b ∈ l, r a b → r b a → a = b) : l.insertionSort r = l'.insertionSort r := by
  have hperm : (l.insertionSort r).Perm (l'.insertionSort r) :=
    (List.perm_insertionSort r l).trans (h.trans (List.perm_insertionSort r l').symm)
  apply List.Perm.eq_of_pairwise _ (List.pairwise_insertionSort r l)
    (List.pairwise_insertionSort r l') hperm
  intro a b ha hb
  have hb' : b ∈ l := h.mem_iff.mpr ((List.mem_insertionSort r).mp hb)
  exact hr a ((List.mem_insertionSort r).mp ha) b hb'

/-- Sorting a list without one of its elements leaves out just that element. -/
theorem insertionSort_remove (a b : List α) (x : α) :
    ∃ l₁ l₂, (a ++ x :: b).insertionSort r = l₁ ++ x :: l₂ ∧
      (a ++ b).insertionSort r = l₁ ++ l₂ := by
  induction a with
  | nil =>
    refine ⟨_, _, List.insertionSort_cons_eq_take_drop r x b, ?_⟩
    rw [List.nil_append, List.takeWhile_append_dropWhile]
  | cons y a ih =>
    obtain ⟨l₁, l₂, hx, h⟩ := ih
    have hsort := List.pairwise_insertionSort r (a ++ x :: b)
    rw [hx] at hsort
    have hafter : ∀ z ∈ l₂, r x z :=
      (List.pairwise_cons.mp (List.pairwise_append.mp hsort).2.1).1
    rw [List.cons_append, List.insertionSort_cons, hx, List.cons_append, List.insertionSort_cons, h]
    exact orderedInsert_remove hafter y

end Esp32c6Fw.Sorting
