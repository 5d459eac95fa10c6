import Esp32c6Fw.Picolibc.Heap

namespace Esp32c6Fw.Picolibc

open Soc Rv32 Extent

variable {l : Link} {h h' : Heap} {n a : Word} {s : Extent} {free live : List Extent}
  {foreign : Set ℕ} {hi : ℕ}

theorem sbrk_served (hle : h.brk.toNat + n.toNat ≤ l.top) :
    h.sbrk l n = (h.brk, { h with brk := h.brk + n }) ∧
      (h.brk + n).toNat = h.brk.toNat + n.toNat := by
  have htop := Stub.top_le l.toSramLayout
  have hlim := Stub.limit_eq l.toSramLayout
  have hadd : (h.brk + n).toNat = h.brk.toNat + n.toNat := by
    rw [BitVec.toNat_add]
    exact Nat.mod_eq_of_lt (by omega)
  rw [Heap.sbrk, Stub.sbrk_served (by omega)]
  exact ⟨rfl, hadd⟩

theorem sbrk_refused (hb : h.brk.toNat ≤ l.top) (hn : n.toNat < 2 ^ 31)
    (hlt : l.top < h.brk.toNat + n.toNat) : h.sbrk l n = (-1, h.fail enomem) := by
  have htop := Stub.top_le l.toSramLayout
  have hlim := Stub.limit_eq l.toSramLayout
  have hadd : (h.brk + n).toNat = h.brk.toNat + n.toNat := by
    rw [BitVec.toNat_add]
    exact Nat.mod_eq_of_lt (by omega)
  rw [Heap.sbrk, Stub.sbrk_refused (by omega)]
  rfl

/-- `__malloc_sbrk_aligned` got the chunk `s`, from the break up but for what aligns it. -/
structure Fresh (l : Link) (h h' : Heap) (n : ℕ) (a : Addr) (s : Extent) : Prop where
  toNat_eq : a.toNat = s.start
  size_eq : s.size = n
  aligned : s.start % 16 = 12
  brk_le : h.brk.toNat ≤ s.start
  start_lt : s.start < h.brk.toNat + 16
  fin_le : s.fin ≤ l.top
  heap_eq : h' = { h with
    brk := h'.brk
    mallocSbrkTop := h'.brk
    mallocSbrkStart := if h.mallocSbrkStart = 0 then a else h.mallocSbrkStart }
  brk_eq : h'.brk.toNat = s.fin

/-- It got nothing, or only what it cannot align. -/
structure Refused (l : Link) (h h' : Heap) : Prop where
  heap_eq : h' = { h with
    brk := h'.brk, mallocSbrkTop := h'.mallocSbrkTop, errno := h'.errno }
  brk_le : h.brk.toNat ≤ h'.brk.toNat
  brk_le_top : h'.brk.toNat ≤ l.top
  top : h'.brk = h.brk ∧ h'.mallocSbrkTop = h.mallocSbrkTop ∨
    h.brk.toNat + 16 ≤ h'.mallocSbrkTop.toNat ∧ h.brk.toNat % 16 ≠ 12

theorem setSbrkStart_eq (h : Heap) (a : Addr) : setSbrkStart h a = (a, { h with
    mallocSbrkStart := if h.mallocSbrkStart = 0 then a else h.mallocSbrkStart }) := by
  rw [setSbrkStart]
  split <;> rfl

theorem mallocSbrkAligned_spec (hb : h.brk.toNat ≤ l.top) (hn : n.toNat % 16 = 0)
    (h16 : 16 ≤ n.toNat) :
    ∃ a h', mallocSbrkAligned l h n = (a, h') ∧
      (a = -1 ∧ Refused l h h' ∧ l.top < h.brk.toNat + n.toNat + 16 ∨
        ∃ s, Fresh l h h' n.toNat a s) := by
  have htop := Stub.top_le l.toSramLayout
  rw [mallocSbrkAligned]
  by_cases hneg : n.toInt < 0
  · rw [if_pos hneg]
    refine ⟨_, _, rfl, .inl ⟨rfl, ⟨rfl, le_rfl, hb, .inl ⟨rfl, rfl⟩⟩, ?_⟩⟩
    rw [BitVec.toInt_eq_toNat_cond] at hneg
    split at hneg <;> omega
  have hn31 : n.toNat < 2 ^ 31 := by
    rw [BitVec.toInt_eq_toNat_cond] at hneg
    split at hneg <;> omega
  rw [if_neg hneg]
  rcases Nat.lt_or_ge l.top (h.brk.toNat + n.toNat) with hlt | hle
  · rw [sbrk_refused hb hn31 hlt]
    exact ⟨_, _, rfl, .inl ⟨rfl, ⟨rfl, le_rfl, hb, .inl ⟨rfl, rfl⟩⟩, by omega⟩⟩
  obtain ⟨hserved, hadd⟩ := sbrk_served hle
  have hne : h.brk ≠ -1 := by
    intro he
    rw [he] at hb
    exact absurd (hb.trans htop) (by decide)
  let start := (h.brk.toNat + 19) / 16 * 16 - 4
  have hstart :
      (chunkToBlob (alignUp (h.brk + mallocHeadSize) mallocChunkAlign)).toNat = start := by
    have h4 : (h.brk + mallocHeadSize).toNat = h.brk.toNat + 4 := by
      rw [BitVec.toNat_add]
      exact Nat.mod_eq_of_lt (by simp only [toNat_mallocHeadSize]; omega)
    have hal := toNat_alignUp (k := 4) (x := h.brk + mallocHeadSize) (y := mallocChunkAlign) rfl
      (by omega)
    rw [h4] at hal
    rw [chunkToBlob, BitVec.toNat_sub, hal, toNat_mallocHeadSize]
    omega
  let s : Extent := ⟨start, n.toNat⟩
  have hs : s.fin = start + n.toNat := rfl
  have hal12 : s.start % 16 = 12 := by
    simp only [s, start]
    omega
  have hlow : h.brk.toNat ≤ s.start := by
    simp only [s, start]
    omega
  have hlt : s.start < h.brk.toNat + 16 := by
    simp only [s, start]
    omega
  rw [hserved]
  dsimp only
  rw [if_neg hne]
  by_cases hal : start = h.brk.toNat
  · have heq : chunkToBlob (alignUp (h.brk + mallocHeadSize) mallocChunkAlign) = h.brk :=
      BitVec.toNat_inj.mp (hstart.trans hal)
    rw [if_neg (not_not.mpr heq), heq, setSbrkStart_eq]
    exact ⟨_, _, rfl, .inr
      ⟨s, hal.symm, rfl, hal12, hlow, hlt, by omega, rfl, hadd.trans (by omega)⟩⟩
  have hneq : chunkToBlob (alignUp (h.brk + mallocHeadSize) mallocChunkAlign) ≠ h.brk :=
    fun heq ↦ hal (hstart.symm.trans (congrArg BitVec.toNat heq))
  rw [if_pos hneq]
  have hadj : (chunkToBlob (alignUp (h.brk + mallocHeadSize) mallocChunkAlign) - h.brk).toNat =
      start - h.brk.toNat := by
    rw [BitVec.toNat_sub, hstart]
    omega
  let h₁ : Heap := { h with brk := h.brk + n, mallocSbrkTop := h.brk + n }
  rcases Nat.lt_or_ge l.top ((h.brk + n).toNat + (start - h.brk.toNat)) with hgt | hle'
  · have hextra : (-1 : Addr) ≠ h.brk + n := by
      intro he
      rw [← he] at hadd
      exact absurd (hadd.symm ▸ hle.trans htop) (by decide)
    rw [sbrk_refused (h := h₁) (hadd.trans_le hle) (by omega) (by rw [hadj]; exact hgt)]
    dsimp only
    rw [if_pos hextra]
    refine ⟨_, _, rfl, .inl ⟨rfl, ⟨rfl, ?_, hadd.trans_le hle, .inr ⟨?_, by omega⟩⟩, by omega⟩⟩
    · exact (Nat.le_add_right _ _).trans hadd.ge
    · exact (Nat.add_le_add_left h16 _).trans hadd.ge
  · obtain ⟨hserved', hadd'⟩ := sbrk_served (h := h₁) (by rw [hadj]; exact hle')
    rw [hserved']
    dsimp only
    rw [if_neg (not_not.mpr rfl), setSbrkStart_eq]
    refine ⟨_, _, rfl, .inr ⟨s, hstart, rfl, hal12, hlow, hlt, by omega, rfl, ?_⟩⟩
    rw [hadj] at hadd'
    exact hadd'.trans (by simp only [h₁]; omega)

theorem Fresh.blob_ne {n : ℕ} (hf : Fresh l h h' n a s) : a ≠ -1 := by
  intro he
  have htop := Stub.top_le l.toSramLayout
  have hle := hf.fin_le
  have heq := hf.toNat_eq
  have h₁ : (-1 : Word).toNat = 2 ^ 32 - 1 := by decide
  rw [he, h₁] at heq
  simp only [fin] at hle
  omega

theorem Fresh.toNat_chunk {n : ℕ} (hf : Fresh l h h' n a s) :
    (blobToChunk a).toNat = s.start + 4 := by
  have htop := Stub.top_le l.toSramLayout
  have hle := hf.fin_le
  simp only [fin] at hle
  rw [blobToChunk, BitVec.toNat_add, hf.toNat_eq]
  exact Nat.mod_eq_of_lt (by simp only [toNat_mallocHeadSize]; omega)

theorem HeapInv.fresh (inv : HeapInv l h free live foreign hi) {n : ℕ} (hn : n % 16 = 0)
    (h16 : 16 ≤ n) (hf : Fresh l h h' n a s) :
    HeapInv l h' free live foreign s.fin ∧ Loose l s free live foreign s.fin := by
  have hheap := inv.heapEnd_le
  have hhi := inv.hi_le
  have hle := hf.brk_le
  have hsize := hf.size_eq
  have hal := hf.aligned
  have hfin : s.fin = s.start + n := by rw [fin, hsize]
  have hmono : hi ≤ s.fin := by omega
  have hbelow {A : Set ℕ} (hA : ∀ x ∈ A, x < h.brk.toNat) : Disjoint s.range A :=
    Set.disjoint_left.mpr fun x hx hx' ↦ absurd (hA x hx') (not_lt_of_ge (hle.trans hx.1))
  have hcover {L : List Extent} (hL : ∀ t ∈ L, Chunk l.heapEnd.toNat hi t) (x : ℕ)
      (hx : x ∈ cover L) : x < h.brk.toNat := by
    obtain ⟨t, ht, hxt⟩ := hx
    exact hxt.2.trans_le ((hL t ht).fin_le.trans hhi)
  have hmem : h'.mem = h.mem := by rw [hf.heap_eq]
  have htop : h'.mallocSbrkTop = h'.brk := by rw [hf.heap_eq]
  refine ⟨?_, ?_, hbelow (hcover inv.free_chunk), hbelow (hcover inv.live_chunk),
    hbelow fun x hx ↦ (inv.foreign_subset hx).2⟩
  · exact { inv with
      chain := hmem ▸ inv.chain
      headed := hmem ▸ inv.headed
      free_chunk := fun t ht ↦ (inv.free_chunk t ht).mono hmono
      live_chunk := fun t ht ↦ (inv.live_chunk t ht).mono hmono
      foreign_subset := inv.foreign_subset.trans
        (Set.Ico_subset_Ico_right (by rw [hf.brk_eq]; omega))
      hi_le := hf.brk_eq.ge
      heapEnd_le := by rw [hf.brk_eq]; omega
      brk_le := hf.brk_eq.trans_le hf.fin_le
      top := .inl (by rw [htop, hf.brk_eq]; omega) }
  · exact ⟨hheap.trans hle, le_rfl, hal, by omega, by omega⟩

theorem HeapInv.refused (inv : HeapInv l h free live foreign hi) (hr : Refused l h h') :
    HeapInv l h' free live foreign hi := by
  have hmem : h'.mem = h.mem := by rw [hr.heap_eq]
  have hhi := inv.hi_le
  exact { inv with
    chain := hmem ▸ inv.chain
    headed := hmem ▸ inv.headed
    foreign_subset := inv.foreign_subset.trans (Set.Ico_subset_Ico_right hr.brk_le)
    hi_le := hhi.trans hr.brk_le
    heapEnd_le := inv.heapEnd_le.trans hr.brk_le
    brk_le := hr.brk_le_top
    top := by
      rcases hr.top with ⟨-, htop⟩ | ⟨hlt, -⟩
      · rw [htop]
        exact inv.top
      · right
        omega }

/-- Where only the allocator calls `sbrk`: the chunks are all it has got, from its first one
up to the break. -/
def Tidy (h : Heap) (L : List Extent) : Prop :=
  h.mallocSbrkStart = 0 ∧ L = [] ∨
    h.mallocSbrkStart ≠ 0 ∧ h.mallocSbrkTop = h.brk ∧ h.brk.toNat % 16 = 12 ∧
      (∀ s ∈ L, h.mallocSbrkStart.toNat ≤ s.start) ∧
      h.mallocSbrkStart.toNat + total L = h.brk.toNat

theorem Tidy.regroup {L L' : List Extent} (ht : Tidy h L) (htotal : total L' = total L)
    (hL : ∀ b, (∀ s ∈ L, b ≤ s.start) → ∀ s ∈ L', b ≤ s.start) (m : Mem) :
    Tidy { h with mem := m } L' := by
  rcases ht with ⟨h0, rfl⟩ | ⟨h0, htop, hal, hstart, hsum⟩
  · refine .inl ⟨h0, List.eq_nil_iff_forall_not_mem.mpr fun s hs ↦ ?_⟩
    exact absurd (hL (s.start + 1) (by simp) s hs) (Nat.not_succ_le_self _)
  · exact .inr ⟨h0, htop, hal, hL _ hstart, htotal ▸ hsum⟩

theorem Tidy.part {t u : Extent} (ht : Tidy h (free ++ s :: live))
    (hsize : t.size + u.size = s.size) (hst : s.start ≤ t.start) (hsu : s.start ≤ u.start) (m : Mem) :
    Tidy { h with mem := m } (Extent.insert t free ++ u :: live) := by
  refine ht.regroup ?_ (fun b hb ↦ ?_) m
  · simp only [total_append, total_insert, total_cons]
    omega
  · obtain ⟨hfree, hlive⟩ := List.forall_mem_append.mp hb
    obtain ⟨hbs, hlive⟩ := List.forall_mem_cons.mp hlive
    exact List.forall_mem_append.mpr ⟨forall_insert (fun _ _ hs _ _ ↦ hs) (hbs.trans hst) hfree,
      List.forall_mem_cons.mpr ⟨hbs.trans hsu, hlive⟩⟩

theorem Tidy.refused {L : List Extent} (ht : Tidy h L) (hr : Refused l h h') : Tidy h' L := by
  have hstart : h'.mallocSbrkStart = h.mallocSbrkStart := by rw [hr.heap_eq]
  rcases ht with ⟨h0, hL⟩ | ⟨h0, htop, hal, hL, hsum⟩
  · exact .inl ⟨hstart.trans h0, hL⟩
  · rcases hr.top with ⟨hbrk, htop'⟩ | ⟨-, hne⟩
    · right
      rw [hstart, hbrk, htop']
      exact ⟨h0, htop, hal, hL, hsum⟩
    · exact absurd hal hne

theorem Tidy.fresh {L : List Extent} {n : ℕ} (ht : Tidy h L) (hf : Fresh l h h' n a s)
    (hn : n % 16 = 0) : Tidy h' (s :: L) := by
  have hstart : h'.mallocSbrkStart = if h.mallocSbrkStart = 0 then a else h.mallocSbrkStart := by
    rw [hf.heap_eq]
  have htop : h'.mallocSbrkTop = h'.brk := by rw [hf.heap_eq]
  have hbrk := hf.brk_eq
  have hal := hf.aligned
  have hsize := hf.size_eq
  have hfin : s.fin = s.start + n := by rw [fin, hsize]
  right
  rcases ht with ⟨h0, rfl⟩ | ⟨h0, -, hal', hL, hsum⟩
  · rw [if_pos h0] at hstart
    rw [hstart, hf.toNat_eq, ← BitVec.toNat_inj.ne, hf.toNat_eq]
    refine ⟨?_, htop, by omega, by simp, ?_⟩
    · change s.start ≠ 0
      omega
    · simp only [total_cons, total_nil]
      omega
  · have hle := hf.brk_le
    have hlt := hf.start_lt
    rw [if_neg h0] at hstart
    rw [hstart]
    refine ⟨h0, htop, by omega, List.forall_mem_cons.mpr ⟨by omega, hL⟩, ?_⟩
    simp only [total_cons]
    omega

end Esp32c6Fw.Picolibc
