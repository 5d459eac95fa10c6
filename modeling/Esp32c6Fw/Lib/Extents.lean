import Mathlib.Algebra.GroupWithZero.Nat
import Mathlib.Algebra.Order.BigOperators.Group.List
import Mathlib.Algebra.Order.Group.Nat
import Mathlib.Order.CompletePartialOrder
import Mathlib.Order.Interval.Set.Disjoint

namespace Esp32c6Fw

/-- Numbers in a row. -/
structure Extent where
  start : ℕ
  size : ℕ
  deriving DecidableEq

namespace Extent

def fin (s : Extent) : ℕ := s.start + s.size

def range (s : Extent) : Set ℕ := Set.Ico s.start s.fin

/-- There is room between them. -/
def Before (s t : Extent) : Prop := s.fin < t.start

def join (s t : Extent) : Extent := ⟨s.start, s.size + t.size⟩

def front (s : Extent) (n : ℕ) : Extent := ⟨s.start, n⟩

def back (s : Extent) (n : ℕ) : Extent := ⟨s.start + n, s.size - n⟩

def cover (L : List Extent) : Set ℕ := {x | ∃ s ∈ L, x ∈ s.range}

def total (L : List Extent) : ℕ := (L.map size).sum

/-- In order, no two of them adjacent. -/
def Separated (L : List Extent) : Prop := L.Pairwise Before

/-- Put an extent in front, joined to the first one if it ends there. -/
def push (s : Extent) : List Extent → List Extent
  | [] => [s]
  | t :: L => if s.fin = t.start then s.join t :: L else s :: t :: L

/-- Put an extent in its place, joined to its neighbours. -/
def insert (s : Extent) : List Extent → List Extent
  | [] => [s]
  | t :: L =>
    if s.start ≤ t.start then push s (t :: L)
    else if t.fin = s.start then push (t.join s) L
    else t :: insert s L

/-- Take an extent of at least `n` from the first one that has it. What is left of it stays
if it is at least `k`. -/
def take (n k : ℕ) : List Extent → Option (Extent × List Extent)
  | [] => none
  | t :: L =>
    if n ≤ t.size then
      if k ≤ t.size - n then some (t.front n, t.back n :: L) else some (t, L)
    else (take n k L).map fun r ↦ (r.1, t :: r.2)

variable {s t u : Extent} {L L' : List Extent} {n k : ℕ} {P : Extent → Prop}

theorem mem_range {x : ℕ} : x ∈ s.range ↔ s.start ≤ x ∧ x < s.fin := Iff.rfl

@[simp] theorem start_join : (s.join t).start = s.start := rfl

theorem fin_join (h : s.fin = t.start) : (s.join t).fin = t.fin := by
  simp only [fin, join] at h ⊢
  omega

@[simp] theorem start_front : (s.front n).start = s.start := rfl

@[simp] theorem size_front : (s.front n).size = n := rfl

@[simp] theorem start_back : (s.back n).start = s.start + n := rfl

@[simp] theorem size_back : (s.back n).size = s.size - n := rfl

theorem range_join (h : s.fin = t.start) : (s.join t).range = s.range ∪ t.range := by
  ext x
  simp only [Set.mem_union, mem_range, start_join, fin_join h]
  simp only [fin] at h ⊢
  omega

theorem range_eq_front_back (h : n ≤ s.size) :
    s.range = (s.front n).range ∪ (s.back n).range := by
  ext x
  simp only [Set.mem_union, mem_range, fin, front, back]
  omega

theorem disjoint_front_back : Disjoint (s.front n).range (s.back n).range := by
  rw [Set.disjoint_left]
  intro x hx hx'
  simp only [mem_range, fin, front, back] at hx hx'
  omega

theorem disjoint_range (hs : 0 < s.size) (ht : 0 < t.size) :
    Disjoint s.range t.range ↔ s.fin ≤ t.start ∨ t.fin ≤ s.start := by
  rw [range, range, Set.Ico_disjoint_Ico]
  simp only [fin]
  omega

@[simp] theorem cover_nil : cover [] = ∅ := by simp [cover]

@[simp] theorem cover_cons : cover (s :: L) = s.range ∪ cover L := by
  ext x
  simp [cover]

theorem range_subset_cover (h : s ∈ L) : s.range ⊆ cover L := fun _ hx ↦ ⟨s, h, hx⟩

theorem cover_subset {A : Set ℕ} : cover L ⊆ A ↔ ∀ s ∈ L, s.range ⊆ A :=
  ⟨fun h _ hs ↦ (range_subset_cover hs).trans h, fun h _ ⟨s, hs, hx⟩ ↦ h s hs hx⟩

theorem cover_perm (h : L.Perm L') : cover L = cover L' :=
  Set.ext fun _ ↦ ⟨fun ⟨s, hs, hx⟩ ↦ ⟨s, h.mem_iff.mp hs, hx⟩,
    fun ⟨s, hs, hx⟩ ↦ ⟨s, h.mem_iff.mpr hs, hx⟩⟩

theorem disjoint_cover {A : Set ℕ} : Disjoint A (cover L) ↔ ∀ s ∈ L, Disjoint A s.range := by
  induction L with
  | nil => simp
  | cons s L ih => simp only [cover_cons, Set.disjoint_union_right, ih, List.forall_mem_cons]

theorem cover_push (s : Extent) (L : List Extent) : cover (push s L) = s.range ∪ cover L := by
  cases L with
  | nil => exact cover_cons
  | cons t L =>
    rw [push]
    split
    next h => rw [cover_cons, cover_cons, range_join h, Set.union_assoc]
    next => rw [cover_cons]

theorem cover_insert (s : Extent) (L : List Extent) : cover (insert s L) = s.range ∪ cover L := by
  induction L with
  | nil => exact cover_cons
  | cons t L ih =>
    rw [insert]
    split
    next => exact cover_push s _
    split
    next h => rw [cover_push, range_join h, cover_cons, Set.union_comm t.range, Set.union_assoc]
    next => rw [cover_cons, cover_cons, ih, Set.union_left_comm]

@[simp] theorem total_nil : total [] = 0 := rfl

@[simp] theorem total_cons : total (s :: L) = s.size + total L := by
  rw [total, List.map_cons, List.sum_cons, total]

@[simp] theorem total_append : total (L ++ L') = total L + total L' := by
  rw [total, List.map_append, List.sum_append, total, total]

theorem total_push (s : Extent) (L : List Extent) : total (push s L) = s.size + total L := by
  cases L with
  | nil => rfl
  | cons t L =>
    rw [push]
    split
    · rw [total_cons, total_cons, join, Nat.add_assoc]
    · rw [total_cons]

theorem total_insert (s : Extent) (L : List Extent) : total (insert s L) = s.size + total L := by
  induction L with
  | nil => rfl
  | cons t L ih =>
    rw [insert]
    split
    next => exact total_push s _
    split
    next =>
      rw [total_push, total_cons]
      simp only [join]
      omega
    next =>
      rw [total_cons, total_cons, ih]
      omega

theorem exists_le_push (s : Extent) (L : List Extent) : ∃ t ∈ push s L, s.size ≤ t.size := by
  cases L with
  | nil => exact ⟨s, by simp [push], le_rfl⟩
  | cons t L =>
    rw [push]
    split
    · exact ⟨s.join t, by simp, Nat.le_add_right _ _⟩
    · exact ⟨s, by simp, le_rfl⟩

theorem exists_le_insert (s : Extent) (L : List Extent) : ∃ t ∈ insert s L, s.size ≤ t.size := by
  induction L with
  | nil => exact ⟨s, by simp [insert], le_rfl⟩
  | cons t L ih =>
    rw [insert]
    split
    · exact exists_le_push s _
    split
    · obtain ⟨u, hu, hle⟩ := exists_le_push (t.join s) L
      exact ⟨u, hu, (Nat.le_add_left _ _).trans hle⟩
    · obtain ⟨u, hu, hle⟩ := ih
      exact ⟨u, List.mem_cons_of_mem _ hu, hle⟩

theorem forall_push (hjoin : ∀ s t, P s → P t → s.fin = t.start → P (s.join t)) (hs : P s)
    (hL : ∀ t ∈ L, P t) : ∀ t ∈ push s L, P t := by
  cases L with
  | nil => simpa [push] using hs
  | cons t L =>
    obtain ⟨ht, hL⟩ := List.forall_mem_cons.mp hL
    rw [push]
    split
    next h => exact List.forall_mem_cons.mpr ⟨hjoin s t hs ht h, hL⟩
    next => exact List.forall_mem_cons.mpr ⟨hs, List.forall_mem_cons.mpr ⟨ht, hL⟩⟩

theorem forall_insert (hjoin : ∀ s t, P s → P t → s.fin = t.start → P (s.join t)) (hs : P s)
    (hL : ∀ t ∈ L, P t) : ∀ t ∈ insert s L, P t := by
  induction L with
  | nil => simpa [insert] using hs
  | cons t L ih =>
    have hL' := hL
    obtain ⟨ht, hL⟩ := List.forall_mem_cons.mp hL
    rw [insert]
    split
    next => exact forall_push hjoin hs hL'
    split
    next h => exact forall_push hjoin (hjoin t s ht hs h) hL
    next => exact List.forall_mem_cons.mpr ⟨ht, ih hL⟩

theorem Separated.tail (h : Separated (s :: L)) : Separated L := (List.pairwise_cons.mp h).2

theorem Separated.before (h : Separated (s :: L)) : ∀ t ∈ L, s.Before t :=
  (List.pairwise_cons.mp h).1

theorem separated_cons : Separated (s :: L) ↔ (∀ t ∈ L, s.Before t) ∧ Separated L :=
  List.pairwise_cons

theorem Before.disjoint (h : s.Before t) : Disjoint s.range t.range :=
  Set.disjoint_left.mpr fun x hx hx' ↦ by
    simp only [mem_range, Before] at hx hx' h
    omega

theorem Separated.disjoint (h : Separated (s :: L)) : Disjoint s.range (cover L) :=
  disjoint_cover.mpr fun t ht ↦ (h.before t ht).disjoint

theorem Separated.add_total_le {lo hi : ℕ} (hL : Separated L) (hlo : ∀ s ∈ L, lo ≤ s.start)
    (hhi : ∀ s ∈ L, s.fin ≤ hi) (h : lo ≤ hi) : lo + total L ≤ hi := by
  induction L generalizing lo with
  | nil => exact h
  | cons s L ih =>
    obtain ⟨hs, hL'⟩ := separated_cons.mp hL
    obtain ⟨hfin, hhi'⟩ := List.forall_mem_cons.mp hhi
    have hle := ih hL' (fun t ht ↦ (hs t ht).le) hhi' hfin
    have hstart := hlo s (by simp)
    simp only [total_cons, fin] at hle ⊢
    omega

theorem length_mul_le_total (h : ∀ s ∈ L, k ≤ s.size) : L.length * k ≤ total L := by
  have hle := List.card_nsmul_le_sum (L.map size) k (by simpa using h)
  rwa [List.length_map] at hle

theorem fin_le_start (hs : 0 < s.size) (ht : 0 < t.size) (hd : Disjoint s.range t.range)
    (hle : s.start ≤ t.start) : s.fin ≤ t.start := by
  rcases (disjoint_range hs ht).mp hd with h | h
  · exact h
  · simp only [fin] at h ⊢
    omega

theorem separated_push (hL : Separated L) (hle : ∀ t ∈ L, s.fin ≤ t.start) :
    Separated (push s L) := by
  cases L with
  | nil => exact List.pairwise_singleton _ _
  | cons t L =>
    obtain ⟨ht, hL'⟩ := separated_cons.mp hL
    rw [push]
    split
    next h =>
      refine separated_cons.mpr ⟨fun u hu ↦ ?_, hL'⟩
      rw [Before, fin_join h]
      exact ht u hu
    next h =>
      have hst : s.Before t := lt_of_le_of_ne (hle t (by simp)) h
      refine separated_cons.mpr ⟨fun u hu ↦ ?_, hL⟩
      rcases List.mem_cons.mp hu with rfl | hu
      · exact hst
      · have htu : t.Before u := ht u hu
        simp only [Before, fin] at hst htu ⊢
        omega

theorem separated_insert (hL : Separated L) (hs : 0 < s.size) (hpos : ∀ t ∈ L, 0 < t.size)
    (hd : Disjoint s.range (cover L)) : Separated (insert s L) := by
  induction L with
  | nil => exact List.pairwise_singleton _ _
  | cons t L ih =>
    obtain ⟨ht, hL'⟩ := separated_cons.mp hL
    obtain ⟨hpt, hpos'⟩ := List.forall_mem_cons.mp hpos
    have hd' := disjoint_cover.mp hd
    rw [insert]
    split
    next hle =>
      have hst := fin_le_start hs hpt (hd' t (by simp)) hle
      refine separated_push hL fun u hu ↦ ?_
      rcases List.mem_cons.mp hu with rfl | hu
      · exact hst
      · have htu : t.Before u := ht u hu
        simp only [Before, fin] at htu hst ⊢
        omega
    next hlt =>
    split
    next h =>
      refine separated_push hL' fun u hu ↦ ?_
      have htu : t.Before u := ht u hu
      rw [fin_join h]
      exact fin_le_start hs (hpos' u hu) (hd' u (by simp [hu])) (h ▸ htu.le)
    next h =>
      have hts := fin_le_start hpt hs (hd' t (by simp)).symm (by omega)
      refine separated_cons.mpr ⟨fun u hu ↦ ?_, ih hL' hpos' (disjoint_cover.mpr fun u hu ↦
        hd' u (by simp [hu]))⟩
      exact forall_insert (P := fun u ↦ t.fin < u.start) (fun _ _ hu _ _ ↦ hu)
        (lt_of_le_of_ne hts h) ht u hu

section Take

theorem take_cons_of_le (h : n ≤ t.size) (hk : k ≤ t.size - n) :
    take n k (t :: L) = some (t.front n, t.back n :: L) := by
  rw [take, if_pos h, if_pos hk]

theorem take_cons_whole (h : n ≤ t.size) (hk : ¬ k ≤ t.size - n) :
    take n k (t :: L) = some (t, L) := by
  rw [take, if_pos h, if_neg hk]

theorem take_cons_of_lt (h : ¬ n ≤ t.size) :
    take n k (t :: L) = (take n k L).map fun r ↦ (r.1, t :: r.2) := if_neg h

theorem take_eq_none_iff : take n k L = none ↔ ∀ t ∈ L, t.size < n := by
  induction L with
  | nil => simp [take]
  | cons t L ih =>
    rw [List.forall_mem_cons]
    by_cases hn : n ≤ t.size
    · have hne : ¬ t.size < n := Nat.not_lt.mpr hn
      rw [take, if_pos hn]
      split <;> simp [hne]
    · rw [take_cons_of_lt hn, Option.map_eq_none_iff, ih]
      simp [Nat.lt_of_not_le hn]

structure Taken (n : ℕ) (L : List Extent) (u : Extent) (L' : List Extent) : Prop where
  size_le : n ≤ u.size
  cover_eq : cover L = u.range ∪ cover L'
  total_eq : total L = u.size + total L'

theorem taken_of_take (h : take n k L = some (u, L')) : Taken n L u L' := by
  induction L generalizing u L' with
  | nil => cases h
  | cons t L ih =>
    by_cases hn : n ≤ t.size
    · by_cases hk : k ≤ t.size - n
      · rw [take_cons_of_le hn hk] at h
        cases h
        refine ⟨le_rfl, ?_, ?_⟩
        · rw [cover_cons, cover_cons, range_eq_front_back hn, Set.union_assoc]
        · simp only [total_cons, size_front, size_back]
          omega
      · rw [take_cons_whole hn hk] at h
        cases h
        exact ⟨hn, cover_cons, by simp⟩
    · rw [take_cons_of_lt hn] at h
      obtain ⟨⟨u', M⟩, hM, he⟩ := Option.map_eq_some_iff.mp h
      cases he
      obtain ⟨hsize, hcover, hsum⟩ := ih hM
      refine ⟨hsize, ?_, ?_⟩
      · rw [cover_cons, cover_cons, hcover, Set.union_left_comm]
      · simp only [total_cons, hsum]
        omega

theorem forall_take (hfront : ∀ t, P t → n ≤ t.size → k ≤ t.size - n → P (t.front n))
    (hback : ∀ t, P t → n ≤ t.size → k ≤ t.size - n → P (t.back n)) (hL : ∀ t ∈ L, P t)
    (h : take n k L = some (u, L')) : P u ∧ ∀ t ∈ L', P t := by
  induction L generalizing u L' with
  | nil => cases h
  | cons t L ih =>
    obtain ⟨ht, hL⟩ := List.forall_mem_cons.mp hL
    by_cases hn : n ≤ t.size
    · by_cases hk : k ≤ t.size - n
      · rw [take_cons_of_le hn hk] at h
        cases h
        exact ⟨hfront t ht hn hk, List.forall_mem_cons.mpr ⟨hback t ht hn hk, hL⟩⟩
      · rw [take_cons_whole hn hk] at h
        cases h
        exact ⟨ht, hL⟩
    · rw [take_cons_of_lt hn] at h
      obtain ⟨⟨u', M⟩, hM, he⟩ := Option.map_eq_some_iff.mp h
      cases he
      obtain ⟨hu, hM⟩ := ih hL hM
      exact ⟨hu, List.forall_mem_cons.mpr ⟨ht, hM⟩⟩

theorem separated_take (hL : Separated L) (h : take n k L = some (u, L')) :
    Separated L' ∧ Disjoint u.range (cover L') := by
  induction L generalizing u L' with
  | nil => cases h
  | cons t L ih =>
    obtain ⟨ht, hL'⟩ := separated_cons.mp hL
    by_cases hn : n ≤ t.size
    · by_cases hk : k ≤ t.size - n
      · rw [take_cons_of_le hn hk] at h
        cases h
        refine ⟨separated_cons.mpr ⟨fun v hv ↦ ?_, hL'⟩, ?_⟩
        · have htv : t.Before v := ht v hv
          simp only [Before, fin, start_back, size_back] at htv ⊢
          omega
        · have hsub : (t.front n).range ⊆ t.range := by
            rw [range_eq_front_back hn]
            exact Set.subset_union_left
          rw [cover_cons, Set.disjoint_union_right]
          exact ⟨disjoint_front_back,
            disjoint_cover.mpr fun v hv ↦ (ht v hv).disjoint.mono_left hsub⟩
      · rw [take_cons_whole hn hk] at h
        cases h
        exact ⟨hL', disjoint_cover.mpr fun v hv ↦ (ht v hv).disjoint⟩
    · rw [take_cons_of_lt hn] at h
      obtain ⟨⟨u', M⟩, hM, he⟩ := Option.map_eq_some_iff.mp h
      cases he
      obtain ⟨hsep, hd⟩ := ih hL' hM
      obtain ⟨htu, htM⟩ := forall_take (P := t.Before) (fun _ hv _ _ ↦ hv)
        (fun _ hv _ _ ↦ lt_of_lt_of_le hv (Nat.le_add_right _ _)) ht hM
      refine ⟨separated_cons.mpr ⟨htM, hsep⟩, ?_⟩
      rw [cover_cons, Set.disjoint_union_right]
      exact ⟨htu.disjoint.symm, hd⟩

end Take

end Extent

end Esp32c6Fw
