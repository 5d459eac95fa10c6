import Esp32c6Fw.Picolibc.FreeList

namespace Esp32c6Fw.Picolibc

open Soc Rv32 Extent

variable {m : Mem} {c d p : Addr} {s t u : Extent} {L : List Extent} {lo hi : ℕ}

theorem toNat_chunkAfter {n : ℕ} (hhi : hi ≤ 2 ^ 31) (ht : Chunk lo hi t)
    (hc : c.toNat = t.start + 4) (hhead : Headed m t n) (hn : n - n % 2 = t.size) :
    (chunkAfter m c).toNat = t.fin + 4 := by
  have hfin := ht.fin_le
  have hsize := hhead.size hc
  rw [hn] at hsize
  simp only [fin] at hfin ⊢
  rw [chunkAfter, BitVec.toNat_add, hc, hsize, Nat.mod_eq_of_lt (by omega)]
  omega

theorem noInsert_push (hhi : hi ≤ 2 ^ 31) (hc : c.toNat = t.start + 4)
    (hhead : Headed m t (t.size + 1)) (hchain : FreeChain m (next m c) L) (ht : Chunk lo hi t)
    (hL : ∀ u ∈ L, Chunk lo hi u) (hd : Disjoint t.range (cover L)) :
    FreeChain (noInsert m c (next m c)) c (push t L) ∧
      SameOutside t.range m (noInsert m c (next m c)) := by
  have hafter := toNat_chunkAfter hhi ht hc hhead (by have := ht.size_aligned; omega)
  have hb := ht.toNat_add hhi
  cases L with
  | nil =>
    have h0 : next m c = 0 := hchain
    have hne : chunkAfter m c ≠ next m c := by
      rw [h0, Ne, ← BitVec.toNat_inj, hafter]
      exact Nat.succ_ne_zero _
    rw [noInsert, if_neg hne]
    exact ⟨⟨hc, hhead, h0⟩, .refl _ _⟩
  | cons u L =>
    obtain ⟨hu, hL'⟩ := List.forall_mem_cons.mp hL
    obtain ⟨hnext, huhead, hrest⟩ := hchain
    rw [cover_cons, Set.disjoint_union_right] at hd
    have hiff : chunkAfter m c = next m c ↔ t.fin = u.start := by
      rw [← BitVec.toNat_inj, hafter, hnext]
      exact Nat.add_right_cancel_iff
    rw [push, noInsert]
    split
    next hadj =>
      have hfin := hiff.mp hadj
      rw [if_pos hfin]
      let w := loadWord m (sizeRef c) + size m (next m c)
      let m₁ := storeWord m (sizeRef c) w
      have hw : w.toNat = (t.join u).size + 1 := by
        have h₁ := hhead.sizeRef hc
        have h₂ := huhead.size hnext
        have h₃ := hu.size_aligned
        have h₄ := hu.fin_le
        simp only [fin] at hfin h₄
        simp only [w, BitVec.toNat_add, h₁, h₂, Extent.join]
        omega
      have hs₁ : SameOutside t.range m m₁ := sameOutside_sizeRef hc hb ht.min_le
      have hs₂ : SameOutside t.range m₁ (setNext m₁ c (next m₁ (next m c))) :=
        sameOutside_setNext hc hb ht.min_le
      have hn₁ : next m₁ (next m c) = next m (next m c) :=
        next_frame hnext (hu.toNat_add hhi) hs₁ hd.1.symm hu.min_le
      have hhead₁ : Headed m₁ t ((t.join u).size + 1) := hw ▸ headed_storeWord hc
      refine ⟨⟨hc, hhead₁.setNext hc hb, ?_⟩, hs₁.trans hs₂⟩
      have hn₂ : next (setNext m₁ c (next m₁ (next m c))) c = next m (next m c) :=
        (loadWord_storeWord _ _ _).trans hn₁
      rw [hn₂]
      exact hrest.frame (hs₁.trans hs₂) hd.2 hL' hhi
    next hadj =>
      rw [if_neg fun hfin ↦ hadj (hiff.mpr hfin)]
      exact ⟨⟨hc, hhead, hnext, huhead, hrest⟩, .refl _ _⟩

/-- Of a chunk, the header and the pointer are written at most. -/
theorem sameOutside_noInsert (hc : c.toNat = t.start + 4) (hb : t.start + 16 ≤ 2 ^ 32) (d : Addr) :
    SameOutside (Set.Ico t.start (t.start + 8)) m (noInsert m c d) := by
  have hr := toNat_sizeRef hc
  rw [noInsert]
  split
  · refine (SameOutside.mono (sameOutside_storeWord m (by omega) _) ?_).trans
      (SameOutside.mono (sameOutside_storeWord _ (by omega) _) ?_)
    · rw [word, hr]
      exact Set.Ico_subset_Ico_right (by omega)
    · rw [word, hc]
      exact Set.Ico_subset_Ico (by omega) (by omega)
  · exact .refl _ _

theorem FreeChain.isFree_push (h : FreeChain m c (push t L)) (ht : Chunk lo hi t)
    (hL : ∀ u ∈ L, Chunk lo hi u) : isFree m c := by
  have hchunks := forall_push (fun _ _ ↦ Chunk.join) ht hL
  cases hpush : push t L with
  | nil =>
    cases L with
    | nil => cases hpush
    | cons u L =>
      rw [push] at hpush
      split at hpush <;> cases hpush
  | cons v L' =>
    rw [hpush] at h hchunks
    have hal := (hchunks v (by simp)).size_aligned
    rw [h.2.1.isFree_iff h.1]
    omega

/-- A chunk on its way into the list at `p`: it has been marked free, and is apart from the
list and from the pointer. -/
structure Entering (lo hi : ℕ) (m : Mem) (c p : Addr) (s : Extent) (L : List Extent) : Prop
    extends FreeList lo hi m p L where
  at_c : c.toNat = s.start + 4
  headed : Headed m s (s.size + 1)
  chunk : Chunk lo hi s
  apart : Disjoint s.range (cover L)
  word_chunk : Disjoint (word p) s.range

theorem Entering.tail (hhi : hi ≤ 2 ^ 31) (he : Entering lo hi m c p s (u :: L)) :
    Entering lo hi m c (loadWord m p) s L := by
  have happ := he.apart
  rw [cover_cons, Set.disjoint_union_right] at happ
  exact { he.toFreeList.tail hhi, he with
    apart := happ.2
    word_chunk := happ.1.symm.mono_left
      (word_subset he.chain.1 (he.chunks u (by simp)).min_le) }

variable {h : Heap}

theorem freeInto_before (hhi : hi ≤ 2 ^ 31) (he : Entering lo hi m c p s L) :
    ∃ m', freeInto h m c (.before p (loadWord m p)) = { h with mem := m' } ∧
      FreeChain m' (loadWord m' p) (push s L) ∧ isFree m' c ∧
      SameOutside (word p ∪ (s.range ∪ cover L)) m m' := by
  have hb := he.chunk.toNat_add hhi
  let m₁ := setNext m c (loadWord m p)
  let m₂ := storeWord m₁ p c
  have hs₁ : SameOutside s.range m m₁ := sameOutside_setNext he.at_c hb he.chunk.min_le
  have hs₂ : SameOutside (word p) m₁ m₂ := sameOutside_storeWord m₁ he.word_le c
  have hnext : next m₂ c = loadWord m p :=
    (next_frame he.at_c hb hs₂ he.word_chunk.symm he.chunk.min_le).trans (loadWord_storeWord _ _ _)
  have hchain : FreeChain m₂ (next m₂ c) L := by
    rw [hnext]
    exact (he.chain.frame hs₁ he.apart he.chunks hhi).frame hs₂ he.word_apart he.chunks hhi
  have hhead : Headed m₂ s (s.size + 1) :=
    (he.headed.setNext he.at_c hb).frame hs₂
      (he.word_chunk.symm.mono_left (header_subset he.chunk.min_le)) hb
  obtain ⟨hpush, hs₃⟩ := noInsert_push hhi he.at_c hhead hchain he.chunk he.chunks he.apart
  refine ⟨noInsert m₂ c (next m₂ c), ?_, ?_, hpush.isFree_push he.chunk he.chunks, ?_⟩
  · rw [hnext]
    rfl
  · have hp : loadWord (noInsert m₂ c (next m₂ c)) p = c :=
      (hs₃.loadWord he.word_le he.word_chunk).trans (loadWord_storeWord _ _ _)
    rw [hp]
    exact hpush
  · have hsub : s.range ⊆ word p ∪ (s.range ∪ cover L) :=
      Set.subset_union_left.trans Set.subset_union_right
    exact (hs₁.mono hsub).trans ((hs₂.mono Set.subset_union_left).trans (hs₃.mono hsub))

theorem freeInto_after (hhi : hi ≤ 2 ^ 31) (he : Entering lo hi m c p s (u :: L))
    (hfin : u.fin = s.start) :
    ∃ m', freeInto h m c (.after (loadWord m p)) = { h with mem := m' } ∧
      FreeChain m' (loadWord m' p) (push (u.join s) L) ∧ isFree m' c ∧
      SameOutside (word p ∪ (s.range ∪ cover (u :: L))) m m' := by
  obtain ⟨hd, huhead, hrest⟩ := he.chain
  obtain ⟨hu, hL⟩ := List.forall_mem_cons.mp he.chunks
  have happ := he.apart
  have hword := he.word_apart
  rw [cover_cons, Set.disjoint_union_right] at happ
  rw [cover_cons, Set.disjoint_union_right] at hword
  have hbu := hu.toNat_add hhi
  have huL : Disjoint u.range (cover L) := he.separated.disjoint
  let d := loadWord m p
  let w := loadWord m (sizeRef d) + size m c
  let m₁ := storeWord m (sizeRef d) w
  have hs₁ : SameOutside u.range m m₁ := sameOutside_sizeRef hd hbu hu.min_le
  have hw : w.toNat = (u.join s).size + 1 := by
    have h₁ := huhead.sizeRef hd
    have h₂ := he.headed.size he.at_c
    have h₃ := he.chunk.size_aligned
    have h₄ := he.chunk.fin_le
    simp only [fin] at hfin h₄
    simp only [w, d, BitVec.toNat_add, h₁, h₂, Extent.join]
    omega
  have hhead : Headed m₁ (u.join s) ((u.join s).size + 1) := hw ▸ headed_storeWord hd
  have hnext : next m₁ d = next m d := next_sizeRef hd hbu
  have hchain : FreeChain m₁ (next m₁ d) L := by
    rw [hnext]
    exact hrest.frame hs₁ huL hL hhi
  have hjoin := range_join hfin
  have hdis : Disjoint (u.join s).range (cover L) := by
    rw [hjoin]
    exact Set.disjoint_union_left.mpr ⟨huL, happ.2⟩
  obtain ⟨hpush, hs₂⟩ :=
    noInsert_push (t := u.join s) hhi hd hhead hchain (hu.join he.chunk hfin) hL hdis
  refine ⟨noInsert m₁ d (next m₁ d), rfl, ?_, ?_, ?_⟩
  · have hp : loadWord (noInsert m₁ d (next m₁ d)) p = d := by
      rw [hs₂.loadWord he.word_le, hs₁.loadWord he.word_le hword.1]
      rw [hjoin]
      exact Set.disjoint_union_right.mpr ⟨hword.1, he.word_chunk⟩
    rw [hp]
    exact hpush
  · have hs₁' : SameOutside (Set.Ico u.start (u.start + 8)) m m₁ := by
      have hr : (sizeRef d).toNat = u.start := toNat_sizeRef hd
      refine (sameOutside_storeWord m (by omega) w).mono ?_
      rw [word, hr]
      exact Set.Ico_subset_Ico_right (by omega)
    have hs₂' := sameOutside_noInsert (m := m₁) hd hbu (next m₁ d)
    have hdis : Disjoint (header s) (Set.Ico u.start (u.start + 8)) := by
      have h16 := hu.min_le
      simp only [fin] at hfin
      rw [header, Set.Ico_disjoint_Ico]
      omega
    have hal := he.chunk.size_aligned
    have hhead := he.headed.frame (hs₁'.trans hs₂') hdis (he.chunk.toNat_add hhi)
    rw [hhead.isFree_iff he.at_c]
    omega
  · have hsub : u.range ∪ s.range ⊆ word p ∪ (s.range ∪ cover (u :: L)) := by
      rw [cover_cons, Set.union_comm u.range]
      exact (Set.union_subset_union_right _ Set.subset_union_left).trans Set.subset_union_right
    exact (hs₁.mono (Set.subset_union_left.trans hsub)).trans (hs₂.mono (hjoin ▸ hsub))

theorem freeLoop_insert (h : Heap) (hhi : hi ≤ 2 ^ 31) (he : Entering lo hi m c p s L) {fuel : ℕ}
    (hfuel : L.length < fuel) :
    ∃ m', (freeLoop m c fuel p).map (freeInto h m c) = some { h with mem := m' } ∧
      FreeChain m' (loadWord m' p) (Extent.insert s L) ∧ isFree m' c ∧
      SameOutside (word p ∪ (s.range ∪ cover L)) m m' := by
  induction fuel generalizing p L with
  | zero => exact absurd hfuel (Nat.not_lt_zero _)
  | succ fuel ih =>
  cases L with
  | nil =>
    obtain ⟨m', hinto, hpush⟩ := freeInto_before (h := h) hhi he
    refine ⟨m', ?_, hpush⟩
    have h0 : loadWord m p = 0 := he.chain
    rw [freeLoop, if_pos h0, Option.map_some, hinto]
  | cons u L =>
    obtain ⟨hd, huhead, hrest⟩ := he.chain
    obtain ⟨hu, hL⟩ := List.forall_mem_cons.mp he.chunks
    have hne0 : loadWord m p ≠ 0 := by
      rw [Ne, ← BitVec.toNat_inj, hd]
      exact Nat.succ_ne_zero _
    have hsu := disjoint_cover.mp he.apart u (by simp)
    have hlt := (disjoint_range he.chunk.pos hu.pos).mp hsu
    have hle : c ≤ loadWord m p ↔ s.start ≤ u.start := by
      rw [BitVec.le_def, he.at_c, hd]
      exact Nat.add_le_add_iff_right
    have hafter := toNat_chunkAfter hhi hu hd huhead (by have := hu.size_aligned; omega)
    rw [freeLoop, if_neg hne0]
    by_cases hsle : s.start ≤ u.start
    · have hne : c ≠ loadWord m p := by
        have hs₁ := he.chunk.pos
        have hu₁ := hu.pos
        rw [Ne, ← BitVec.toNat_inj, he.at_c, hd]
        simp only [fin] at hlt
        omega
      obtain ⟨m', hinto, hpush⟩ := freeInto_before (h := h) hhi he
      refine ⟨m', ?_, ?_⟩
      · rw [if_pos (hle.mpr hsle), if_neg hne, Option.map_some, hinto]
      · rw [Extent.insert, if_pos hsle]
        exact hpush
    rw [if_neg fun hc ↦ hsle (hle.mp hc), Extent.insert, if_neg hsle]
    by_cases hfin : u.fin = s.start
    · obtain ⟨m', hinto, hpush⟩ := freeInto_after (h := h) hhi he hfin
      have hadj : chunkAfter m (loadWord m p) = c := by
        rw [← BitVec.toNat_inj, hafter, he.at_c, hfin]
      refine ⟨m', ?_, ?_⟩
      · rw [if_pos hadj, Option.map_some, hinto]
      · rw [if_pos hfin]
        exact hpush
    · have hnadj : chunkAfter m (loadWord m p) ≠ c := by
        rw [Ne, ← BitVec.toNat_inj, hafter, he.at_c]
        omega
      rw [if_neg hnadj, if_neg hfin]
      have he' := he.tail hhi
      obtain ⟨m', hinto, hchain, hmark, hs⟩ := ih he' (Nat.lt_of_succ_lt_succ hfuel)
      have hpA : Disjoint (word p) (u.range ∪ (s.range ∪ cover L)) := by
        rw [Set.union_left_comm, ← cover_cons]
        exact Set.disjoint_union_right.mpr ⟨he.word_chunk, he.word_apart⟩
      refine ⟨m', hinto, ?_, hmark, ?_⟩
      · refine FreeChain.past hd huhead hu hhi he.word_le hs ?_ hpA hchain
        exact Set.disjoint_union_right.mpr ⟨hsu.symm, he.separated.disjoint⟩
      · refine hs.mono fun x hx ↦ ?_
        have hword := @word_subset _ _ hd hu.min_le x
        simp only [cover_cons, Set.mem_union] at hx ⊢
        tauto

end Esp32c6Fw.Picolibc
