import Esp32c6Fw.Lib.Extents
import Mathlib.Order.Interval.Finset.Nat
import Mathlib.Data.List.Perm.Lattice

namespace Esp32c6Fw.Extent

def Apart (L : List Extent) : Prop := L.Pairwise fun s t ↦ Disjoint s.range t.range

variable {s t : Extent} {L L' M : List Extent} {lo hi : ℕ}

theorem total_perm (h : L.Perm L') : total L = total L' := (h.map size).sum_eq

theorem Apart.perm (hL : Apart L) (h : L.Perm L') : Apart L' :=
  (h.pairwise_iff fun h ↦ h.symm).mp hL

theorem Apart.append_iff : Apart (L ++ M) ↔ Apart L ∧ Apart M ∧ Disjoint (cover L) (cover M) := by
  rw [Apart, List.pairwise_append]
  refine and_congr_right fun _ ↦ and_congr_right fun _ ↦ ?_
  rw [disjoint_comm, disjoint_cover]
  refine forall₂_congr fun s _ ↦ ?_
  rw [disjoint_comm, disjoint_cover]

theorem Separated.apart (hL : Separated L) : Apart L := hL.imp Before.disjoint

theorem Apart.total_le (hL : Apart L) {A : Finset ℕ} (hA : cover L ⊆ A) : total L ≤ A.card := by
  induction L generalizing A with
  | nil => exact Nat.zero_le _
  | cons s L ih =>
    obtain ⟨hs, hL'⟩ := List.pairwise_cons.mp hL
    rw [cover_cons, Set.union_subset_iff] at hA
    have hsub : Finset.Ico s.start s.fin ⊆ A := by
      rw [← Finset.coe_subset, Finset.coe_Ico]
      exact hA.1
    have hle : total L ≤ (A \ Finset.Ico s.start s.fin).card := by
      refine ih hL' ?_
      rw [Finset.coe_sdiff, Finset.coe_Ico]
      exact Set.subset_sdiff.mpr ⟨hA.2, (disjoint_cover.mpr hs).symm⟩
    have hcard := Finset.card_sdiff_add_card_eq_card hsub
    rw [Nat.card_Ico] at hcard
    simp only [total_cons, fin] at hle hcard ⊢
    omega

theorem Apart.total_le_sub (hL : Apart L) (hlo : ∀ s ∈ L, lo ≤ s.start)
    (hhi : ∀ s ∈ L, s.fin ≤ hi) : total L ≤ hi - lo := by
  rw [← Nat.card_Ico]
  refine hL.total_le ?_
  rw [Finset.coe_Ico]
  exact cover_subset.mpr fun s hs ↦ Set.Ico_subset_Ico (hlo s hs) (hhi s hs)

theorem exists_parts (M : List Extent) (n : ℕ) :
    ∃ M₁ M₂, M.Perm (M₁ ++ M₂) ∧ (∀ t ∈ M₁, t.start < n) ∧ ∀ t ∈ M₂, n ≤ t.start := by
  refine ⟨M.filter (·.start < n), M.filter fun t ↦ !decide (t.start < n),
    (List.filter_append_perm _ M).symm, fun t ht ↦ ?_, fun t ht ↦ ?_⟩
  · simpa using (List.mem_filter.mp ht).2
  · simpa using (List.mem_filter.mp ht).2

/-- Where extents fill a range and those of one kind are never adjacent, there is one of the
other kind in each gap. -/
theorem Separated.length_le (hL : Separated L) (happ : Apart (L ++ M))
    (hpos : ∀ s ∈ L ++ M, 0 < s.size) (hlo : ∀ s ∈ L ++ M, lo ≤ s.start)
    (hhi : ∀ s ∈ L ++ M, s.fin ≤ hi) (htotal : lo + total (L ++ M) = hi) :
    L.length ≤ M.length + 1 ∧ ((∀ s ∈ L, lo < s.start) → L.length ≤ M.length) := by
  induction L generalizing lo M with
  | nil => exact ⟨Nat.zero_le _, fun _ ↦ Nat.zero_le _⟩
  | cons s L ih =>
    obtain ⟨hs, hL'⟩ := separated_cons.mp hL
    obtain ⟨M₁, M₂, hperm, h₁, h₂⟩ := exists_parts M s.start
    have hperm' : (s :: L ++ M).Perm (M₁ ++ (s :: L ++ M₂)) :=
      (hperm.append_left (s :: L)).trans (List.perm_append_comm_assoc _ _ _)
    obtain ⟨happ₁, happ₂, hd⟩ := Apart.append_iff.mp (happ.perm hperm')
    obtain ⟨hsd, happ₃⟩ : _ ∧ Apart (L ++ M₂) := List.pairwise_cons.mp happ₂
    have hall {P : Extent → Prop} (hP : ∀ t ∈ s :: L ++ M, P t) :
        (∀ t ∈ M₁, P t) ∧ P s ∧ ∀ t ∈ L ++ M₂, P t := by
      obtain ⟨hM₁, hsM⟩ := List.forall_mem_append.mp fun t ht ↦ hP t (hperm'.mem_iff.mpr ht)
      exact ⟨hM₁, List.forall_mem_cons.mp hsM⟩
    obtain ⟨hpos₁, hpos_s, hpos₂⟩ := hall hpos
    obtain ⟨hlo₁, hlo_s, -⟩ := hall hlo
    obtain ⟨-, hhi_s, hhi₂⟩ := hall hhi
    have hsL : ∀ t ∈ L ++ M₂, s.fin ≤ t.start := by
      refine List.forall_mem_append.mpr ⟨fun t ht ↦ (hs t ht).le, fun t ht ↦ ?_⟩
      have ht' : t ∈ L ++ M₂ := List.mem_append_right L ht
      exact fin_le_start hpos_s (hpos₂ t ht') (hsd t ht') (h₂ t ht)
    have hM₁ : ∀ t ∈ M₁, t.fin ≤ s.start := by
      intro t ht
      have hts : Disjoint t.range s.range :=
        hd.mono (range_subset_cover ht) (range_subset_cover (by simp))
      exact fin_le_start (hpos₁ t ht) hpos_s hts (h₁ t ht).le
    have hle₁ := happ₁.total_le_sub hlo₁ hM₁
    have hle₂ := happ₃.total_le_sub hsL hhi₂
    rw [total_perm hperm', total_append, List.cons_append, total_cons] at htotal
    have hfin : s.fin = s.start + s.size := rfl
    obtain ⟨-, htail⟩ := ih hL' happ₃ hpos₂ hsL hhi₂ (by omega)
    have htail := htail hs
    have hlen := hperm.length_eq
    rw [List.length_append] at hlen
    rw [List.length_cons]
    refine ⟨by omega, fun hgap ↦ ?_⟩
    have hne : M₁ ≠ [] := by
      rintro rfl
      have hlt := hgap s (by simp)
      rw [total_nil] at htotal
      omega
    have hpos := List.length_pos_of_ne_nil hne
    omega

end Esp32c6Fw.Extent
