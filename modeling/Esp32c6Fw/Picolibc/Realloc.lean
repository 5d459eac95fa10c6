import Esp32c6Fw.Picolibc.Alloc

namespace Esp32c6Fw.Picolibc

open Soc Rv32 Extent

variable {l : Link} {h h' : Heap} {m m' : Mem} {c p : Addr} {n size : Word} {s t u : Extent}
  {L free live : List Extent} {foreign : Set ℕ} {lo hi fuel : ℕ}

/-- The chunk after a live one would start at the top, and does if `sbrk` has not moved. -/
structure Grown (l : Link) (h h' : Heap) (s : Extent) (n : ℕ) (free live : List Extent)
    (foreign : Set ℕ) (blob : Addr) (u : Extent) : Prop where
  fresh : Fresh l h { h' with mem := h.mem } (n - s.size) blob u
  adjacent : s.fin = u.start
  inv : HeapInv l h' free (s.join u :: live) foreign u.fin
  frame : SameOutside (header s) h.mem h'.mem

structure Kept (l : Link) (h h' : Heap) (free free' live : List Extent) (foreign : Set ℕ)
    (hi : ℕ) : Prop where
  inv : HeapInv l h' free' live foreign hi
  brk_le : h.brk.toNat ≤ h'.brk.toNat
  frame : SameOutside (own l h'.brk.toNat live foreign) h.mem h'.mem
  tidy : Tidy h (free ++ live) → Tidy h' (free' ++ live)

theorem Refused.refl (inv : HeapInv l h free live foreign hi) : Refused l h h :=
  ⟨rfl, le_rfl, inv.brk_le, .inl ⟨rfl, rfl⟩⟩

theorem HeapInv.kept (inv : HeapInv l h free live foreign hi) (hr : Refused l h h') :
    Kept l h h' free free live foreign hi where
  inv := inv.refused hr
  brk_le := hr.brk_le
  frame := by
    have hmem : h'.mem = h.mem := by rw [hr.heap_eq]
    exact hmem ▸ .refl _ _
  tidy := fun ht ↦ ht.refused hr

theorem Loose.join (hs : Loose l s free live foreign hi)
    (hu : Loose l u free (s :: live) foreign hi) (h : s.fin = u.start) : Loose l (s.join u) free live foreign hi := by
  have hlive := hu.live
  rw [cover_cons, Set.disjoint_union_right] at hlive
  refine ⟨hs.chunk.join hu.chunk h, ?_, ?_, ?_⟩ <;> rw [range_join h]
  · exact Set.disjoint_union_left.mpr ⟨hs.free, hu.free⟩
  · exact Set.disjoint_union_left.mpr ⟨hs.live, hlive.2⟩
  · exact Set.disjoint_union_left.mpr ⟨hs.foreign, hu.foreign⟩

theorem toNat_chunkEnd (hhi : hi ≤ 2 ^ 31) (hs : Chunk lo hi s) (hc : c.toNat = s.start + 4)
    (hhead : Headed m s s.size) : (chunkEnd m c).toNat = s.fin := by
  have hfin := hs.fin_le
  simp only [fin] at hfin ⊢
  rw [chunkEnd, BitVec.toNat_add, toNat_sizeRef hc, hhead.sizeRef hc]
  exact Nat.mod_eq_of_lt (by omega)

/-- The end of a chunk is where a header goes, never where a payload does. -/
theorem chunkEnd_mod (hhi : hi ≤ 2 ^ 31) (hs : Chunk lo hi s) (hc : c.toNat = s.start + 4)
    (hhead : Headed m s s.size) : (chunkEnd m c).toNat % 16 = 12 := by
  have h₁ := hs.aligned
  have h₂ := hs.size_aligned
  rw [toNat_chunkEnd hhi hs hc hhead, fin]
  omega

theorem mallocGrowChunk_live (inv : HeapInv l h free (s :: live) foreign hi)
    (hc : c.toNat = s.start + 4) (hn : n.toNat % 16 = 0) (hlt : s.size < n.toNat)
    (hfuel : free.length < fuel) :
    (∃ h' blob u, mallocGrowChunk l fuel h c n = some (true, h') ∧
      Grown l h h' s n.toNat free live foreign blob u) ∨
    ∃ h' free' hi', mallocGrowChunk l fuel h c n = some (false, h') ∧
      Kept l h h' free free' (s :: live) foreign hi' := by
  obtain ⟨inv₀, hs, hhead⟩ := inv.uncons
  have hhi := inv.hi_le_31
  have hb := hs.chunk.toNat_add hhi
  have hal := hs.chunk.size_aligned
  have hfin := hs.chunk.fin_le
  have hend := toNat_chunkEnd hhi hs.chunk hc hhead
  have hsize : (Picolibc.size h.mem c).toNat = s.size := by
    rw [hhead.size hc]
    omega
  let addSize := maxOf mallocChunkMin (n - Picolibc.size h.mem c)
  have hadd : addSize.toNat = n.toNat - s.size := by
    have hnlt := n.isLt
    have hsub : (n - Picolibc.size h.mem c).toNat = n.toNat - s.size := by
      rw [BitVec.toNat_sub, hsize]
      omega
    rw [toNat_maxOf, hsub, toNat_mallocChunkMin]
    omega
  rw [mallocGrowChunk]
  by_cases htop : chunkEnd h.mem c = h.mallocSbrkTop
  · rw [if_neg (not_not.mpr htop)]
    dsimp only
    have hadd16 : addSize.toNat % 16 = 0 := by omega
    have hadd1 : 16 ≤ addSize.toNat := by omega
    obtain ⟨heap, h', hsbrk, ⟨hret, href, -⟩ | ⟨u, hfresh⟩⟩ :=
      mallocSbrkAligned_spec inv.brk_le hadd16 hadd1
    · have hne : heap ≠ chunkEnd h.mem c := by
        intro he
        rw [← he, hret] at hend
        have h₁ : (-1 : Word).toNat = 2 ^ 32 - 1 := by decide
        omega
      rw [hsbrk]
      dsimp only
      rw [if_neg hne, if_neg (not_not.mpr hret)]
      exact .inr ⟨h', free, hi, rfl, inv.kept href⟩
    · have hmem : h'.mem = h.mem := by rw [hfresh.heap_eq]
      obtain ⟨inv', hloose⟩ := inv.fresh hadd16 hadd1 hfresh
      have hfresh' : Fresh l h { h' with mem := h.mem } (n.toNat - s.size) heap u := by
        rw [← hadd, ← hmem]
        exact hfresh
      have hiff : heap = chunkEnd h.mem c ↔ s.fin = u.start := by
        rw [← BitVec.toNat_inj, hfresh.toNat_eq, hend]
        exact eq_comm
      rw [hsbrk]
      dsimp only
      by_cases hadj : s.fin = u.start
      · rw [if_pos (hiff.mpr hadj)]
        obtain ⟨inv₁, hs', hhead'⟩ := inv'.uncons
        have hjoin := hs'.join hloose hadj
        let m := storeWord h'.mem (sizeRef c) (loadWord h'.mem (sizeRef c) + addSize)
        have hw : (loadWord h'.mem (sizeRef c) + addSize).toNat = (s.join u).size := by
          have hu := hloose.chunk.fin_le
          have husize := hfresh.size_eq
          have hhi' := inv'.hi_le_31
          simp only [fin] at hu hadj
          rw [BitVec.toNat_add, hhead'.sizeRef hc, Nat.mod_eq_of_lt (by omega), Extent.join, husize]
        have hm : SameOutside (header s) h'.mem m := by
          have hr : word (sizeRef c) = header s := by rw [word, header, toNat_sizeRef hc]
          rw [← hr]
          exact sameOutside_storeWord _ (by rw [toNat_sizeRef hc]; omega) _
        have hm' := hm.mono (header_subset hs.chunk.min_le)
        have hheadj : Headed m (s.join u) (s.join u).size := hw ▸ headed_storeWord hc
        have inv₂ := (inv₁.frame hm' (HeapInv.disjoint_word l hs.chunk) hs'.free hs'.live).cons
          hjoin hheadj
        exact .inl ⟨_, heap, u, rfl, hfresh', hadj, inv₂,
          fun a ha ↦ (hm a ha).trans (congrFun hmem a)⟩
      · obtain ⟨m, hmake, inv'', hs'⟩ :=
          makeFreeChunk_spec inv' hloose hfresh.toNat_chunk hfresh.size_eq.symm
            hfuel
        rw [if_neg fun he ↦ hadj (hiff.mp he), if_pos hfresh.blob_ne, hmake]
        refine .inr ⟨_, _, _, rfl, inv'', ?_, hmem ▸ hs', fun ht ↦ ?_⟩
        · have hle := hfresh.brk_le
          exact (hle.trans (Nat.le_add_right _ _)).trans hfresh.brk_eq.ge
        · refine (ht.fresh hfresh hadd16).regroup ?_ (fun b hb ↦ ?_) m
          · simp only [total_append, total_insert, total_cons, Nat.add_assoc]
          · obtain ⟨hu, hb⟩ := List.forall_mem_cons.mp hb
            obtain ⟨hfree, hlive⟩ := List.forall_mem_append.mp hb
            exact List.forall_mem_append.mpr
              ⟨forall_insert (fun _ _ hs _ _ ↦ hs) hu hfree, hlive⟩
  · rw [if_pos htop]
    exact .inr ⟨h, free, hi, rfl, inv.kept (.refl inv)⟩

/-- No chunk pointer is what the loop looks for: it is where the header of a chunk would be. -/
theorem reallocLoop_eq {pToRealloc chunkE : Addr} {oldSize : Word}
    (hend : chunkE.toNat % 16 = 12) (hl : FreeList lo hi m p L) (hhi : hi ≤ 2 ^ 31)
    (hfuel : L.length < fuel) :
    reallocLoop pToRealloc chunkE oldSize fuel m p = some (oldSize, m) := by
  induction fuel generalizing p L with
  | zero => exact absurd hfuel (Nat.not_lt_zero _)
  | succ fuel ih =>
  cases L with
  | nil =>
    have h0 : loadWord m p = 0 := hl.chain
    rw [reallocLoop, if_pos h0]
  | cons t L =>
    have hc := hl.chain.1
    have hal := (hl.chunks t (by simp)).aligned
    have hne : loadWord m p ≠ 0 := by
      rw [Ne, ← BitVec.toNat_inj, hc]
      exact Nat.succ_ne_zero _
    have hne' : loadWord m p ≠ chunkE := by
      intro he
      rw [he] at hc
      omega
    rw [reallocLoop, if_neg hne, if_neg hne']
    split
    · rfl
    · exact ih (hl.tail hhi) (Nat.lt_of_succ_lt_succ hfuel)

theorem own_cons_subset {brk : ℕ} : own l brk (s :: live) foreign ⊆ own l brk live foreign := by
  refine Set.sdiff_subset_sdiff_right (Set.union_subset_union_left _ ?_)
  rw [cover_cons]
  exact Set.subset_union_right

theorem Loose.split {k : ℕ} (hs : Loose l s free live foreign hi) (hk : k ≤ s.size)
    (hal : k % 16 = 0) (h16 : 16 ≤ k) (h16' : 16 ≤ s.size - k) :
    Loose l (s.front k) free live foreign hi ∧ Loose l (s.back k) free live foreign hi := by
  have hrange := range_eq_front_back hk
  have hfront : (s.front k).range ⊆ s.range := hrange ▸ Set.subset_union_left
  have hback : (s.back k).range ⊆ s.range := hrange ▸ Set.subset_union_right
  exact ⟨⟨hs.chunk.front hk hal h16, hs.free.mono_left hfront, hs.live.mono_left hfront,
    hs.foreign.mono_left hfront⟩, hs.chunk.back hal h16', hs.free.mono_left hback,
    hs.live.mono_left hback, hs.foreign.mono_left hback⟩

theorem Loose.apart (hs : Loose l s free live foreign hi) (hd : Disjoint s.range t.range) :
    Loose l s free (t :: live) foreign hi where
  chunk := hs.chunk
  free := hs.free
  live := by
    rw [cover_cons]
    exact Set.disjoint_union_right.mpr ⟨hd, hs.live⟩
  foreign := hs.foreign

def Copied (m m' : Mem) (p p' : Addr) (k : ℕ) : Prop :=
  ∀ i : Word, i.toNat < k → m' (p' + i) = m (p + i)

/-- A chunk `s` at `p` is now the chunk `t` at `p'`, with room for `n` bytes. -/
structure Resized (l : Link) (h h' : Heap) (p p' : Addr) (n : ℕ) (s t : Extent)
    (free free' live : List Extent) (foreign : Set ℕ) (hi : ℕ) : Prop
    extends Handed l h h' p' n t free' live foreign hi where
  copied : Copied h.mem h'.mem p p' (min (s.size - 4) n)
  tidy : Tidy h (free ++ s :: live) → Tidy h' (free' ++ t :: live)

theorem toNat_payload {k : ℕ} {i : Word} (hhi : hi ≤ 2 ^ 31) (hc : c.toNat = s.start + 4)
    (hs : Chunk lo hi s) (hk : k + 4 ≤ s.size) (hi : i.toNat < k) :
    (c + i).toNat = s.start + 4 + i.toNat := by
  have hfin := hs.fin_le
  simp only [fin] at hfin
  rw [BitVec.toNat_add, hc]
  exact Nat.mod_eq_of_lt (by omega)

/-- The payload of a chunk in use is not memory of the allocator. -/
theorem copied_of_sameOutside {brk k : ℕ} (hhi : hi ≤ 2 ^ 31) (hc : c.toNat = s.start + 4)
    (hs : Chunk lo hi s) (hk : k + 4 ≤ s.size)
    (hm : SameOutside (header s ∪ own l brk (s :: live) foreign) m m') : Copied m m' c c k := by
  intro i hi
  have hadd := toNat_payload hhi hc hs hk hi
  refine hm _ ?_
  rw [hadd]
  rintro (hx | hx)
  · have hlt := hx.2
    omega
  · refine hx.2 (.inl ⟨s, by simp, ?_⟩)
    rw [mem_range, fin]
    omega

theorem freeBack_spec {extra w : Word} {k : ℕ} (inv : HeapInv l h free (s :: live) foreign hi)
    (hc : c.toNat = s.start + 4) (hw : w.toNat = k) (hextra : extra.toNat = s.size - k)
    (hal : k % 16 = 0) (h16 : 16 ≤ k) (hmin : 16 ≤ s.size - k) (hfuel : free.length < fuel) :
    ∃ m, makeFreeChunk l fuel { h with mem := storeWord h.mem (sizeRef c) w }
        (chunkAfter (storeWord h.mem (sizeRef c) w) c) extra = some { h with mem := m } ∧
      HeapInv l { h with mem := m } (Extent.insert (s.back k) free) (s.front k :: live) foreign hi ∧
      SameOutside (header s ∪ own l h.brk.toNat (s.front k :: live) foreign) h.mem m := by
  obtain ⟨inv₀, hs, hhead⟩ := inv.uncons
  have hhi := inv.hi_le_31
  have hb := hs.chunk.toNat_add hhi
  have hle : k ≤ s.size := by omega
  obtain ⟨hfront, hback⟩ := hs.split hle hal h16 hmin
  let m₁ := storeWord h.mem (sizeRef c) w
  have hm₁ : SameOutside (header s) h.mem m₁ := by
    have hr : word (sizeRef c) = header s := by rw [word, header, toNat_sizeRef hc]
    rw [← hr]
    exact sameOutside_storeWord _ (by rw [toNat_sizeRef hc]; omega) _
  have hm₁' := hm₁.mono (header_subset hs.chunk.min_le)
  have hhead₁ : Headed m₁ (s.front k) k := hw ▸ headed_storeWord hc
  have inv₁ := (inv₀.frame hm₁' (HeapInv.disjoint_word l hs.chunk) hs.free hs.live).cons hfront
    hhead₁
  have hafter : (chunkAfter m₁ c).toNat = (s.back k).start + 4 := by
    rw [toNat_chunkAfter hhi hfront.chunk hc hhead₁ (by simp only [size_front]; omega)]
    rfl
  obtain ⟨m₂, hmake, inv₂, hm₂⟩ := makeFreeChunk_spec inv₁ (hback.apart disjoint_front_back.symm)
    hafter hextra hfuel
  exact ⟨m₂, hmake, inv₂, hm₁.union hm₂⟩

theorem reallocShrink_spec {oldSize : Word} {k : ℕ} (inv : HeapInv l h free (s :: live) foreign hi)
    (hc : c.toNat = s.start + 4) (hold : oldSize.toNat = s.size) (hn : n.toNat % 16 = 0)
    (h16 : 16 ≤ n.toNat) (hle : n.toNat ≤ s.size) (hk : k + 4 ≤ n.toNat)
    (hfuel : free.length < fuel) :
    ∃ h' t free', reallocShrink l fuel h c oldSize n = some (c, h') ∧
      Resized l h h' c c k s t free free' live foreign hi := by
  obtain ⟨-, hs, -⟩ := inv.uncons
  have hextra : (oldSize - n).toNat = s.size - n.toNat := by
    have hlt := n.isLt
    rw [BitVec.toNat_sub, hold]
    omega
  have hiff : mallocChunkMin ≤ oldSize - n ↔ 16 ≤ s.size - n.toNat := by
    rw [BitVec.le_def, hextra]
    rfl
  rw [reallocShrink]
  by_cases hmin : 16 ≤ s.size - n.toNat
  · obtain ⟨m, hmake, inv', hm⟩ := freeBack_spec inv hc rfl hextra hn h16 hmin hfuel
    have hfront := hs.chunk.front hle hn h16
    dsimp only
    rw [if_pos (hiff.mpr hmin), setSize, hmake]
    refine ⟨_, s.front n.toNat, _, rfl, ⟨inv', hc, hk, le_rfl, ?_⟩, ?_, fun ht ↦ ?_⟩
    · exact hm.mono (Set.union_subset ((header_subset hs.chunk.min_le).trans
        (hs.subset inv.hi_le)) own_cons_subset)
    · refine copied_of_sameOutside (s := s.front n.toNat) inv.hi_le_31 hc hfront ?_ hm
      simp only [size_front]
      omega
    · exact ht.part (t := s.back n.toNat) (u := s.front n.toNat) (Nat.sub_add_cancel hle)
        (Nat.le_add_right _ _) le_rfl m
  · rw [if_neg fun hle ↦ hmin (hiff.mp hle)]
    exact ⟨h, s, free, rfl, ⟨inv, hc, by omega, le_rfl, .refl _ _⟩, fun _ _ ↦ rfl, id⟩

theorem reallocGrow_none {oldSize : Word} (inv : HeapInv l h free (s :: live) foreign hi)
    (hc : c.toNat = s.start + 4) (htop : chunkEnd h.mem c ≠ h.mallocSbrkTop)
    (hfuel : free.length < fuel) : reallocGrow l fuel h c oldSize n = some (oldSize, h) := by
  obtain ⟨-, hs, hhead⟩ := inv.uncons
  have hal := chunkEnd_mod inv.hi_le_31 hs.chunk hc hhead
  have hloop : reallocLoop c (chunkEnd h.mem c) oldSize fuel h.mem l.mallocFreeList =
      some (oldSize, h.mem) := reallocLoop_eq hal inv.freeList inv.hi_le_31 hfuel
  simp only [reallocGrow, mallocGrowChunk, if_pos htop, Option.bind_eq_bind, Option.bind_some,
    hloop]
  rfl

theorem reallocGrow_spec {oldSize : Word} {k : ℕ} (inv : HeapInv l h free (s :: live) foreign hi)
    (hc : c.toNat = s.start + 4) (hold : oldSize.toNat = s.size) (hn : n.toNat % 16 = 0)
    (hlt : s.size < n.toNat) (hk : k + 4 ≤ n.toNat) (hfuel : 2 ^ 15 < fuel) :
    (∃ h' t, reallocGrow l fuel h c oldSize n = some (n, h') ∧
      Resized l h h' c c k s t free free live foreign t.fin) ∨
    ∃ h' free' hi', reallocGrow l fuel h c oldSize n = some (oldSize, h') ∧
      Kept l h h' free free' (s :: live) foreign hi' := by
  obtain ⟨-, hs, hhead⟩ := inv.uncons
  have hend : (chunkEnd h.mem c).toNat = s.fin := toNat_chunkEnd inv.hi_le_31 hs.chunk hc hhead
  rcases mallocGrowChunk_live inv hc hn hlt
    (inv.length_lt hfuel) with
    ⟨h', blob, u, hgrow, hg⟩ | ⟨h', free', hi', hgrow, hkept⟩
  · left
    have hadd : (n - oldSize).toNat = n.toNat - s.size := by
      have hnlt := n.isLt
      rw [BitVec.toNat_sub, hold]
      omega
    obtain ⟨inv₁, hs₁, hhead₁⟩ := hg.inv.uncons
    have hfin : u.fin ≤ h'.brk.toNat := hg.inv.hi_le
    have h₁₆ := hs.chunk.size_aligned
    have hmin := hs.chunk.min_le
    have hadd16 : (n.toNat - s.size) % 16 = 0 := by omega
    have hu := (inv.fresh hadd16 (by omega) hg.fresh).2
    have hbrk : h.brk.toNat ≤ h'.brk.toNat :=
      (hg.fresh.brk_le.trans (Nat.le_add_right _ _)).trans hg.fresh.brk_eq.ge
    have hsize := hg.fresh.size_eq
    have hrange := range_join hg.adjacent
    have hsub : u.range ⊆ (s.join u).range := hrange ▸ Set.subset_union_right
    let m := memset h'.mem (chunkEnd h.mem c) 0 (n - oldSize)
    have hm : SameOutside u.range h'.mem m := by
      have hle := hu.chunk.fin_le.trans hg.inv.hi_le_31
      have hms := sameOutside_memset h'.mem (p := chunkEnd h.mem c) (n := n - oldSize)
        (by rw [hend, hadd, hg.adjacent, ← hsize]; exact hle.trans (by decide)) 0
      rwa [hend, hadd, hg.adjacent, ← hsize] at hms
    have hheader : Disjoint (header (s.join u)) u.range := by
      have hadj := hg.adjacent
      simp only [fin] at hadj
      rw [header, range, start_join, Set.Ico_disjoint_Ico]
      omega
    have hmF : SameOutside (header s ∪ own l h'.brk.toNat (s :: live) foreign) h.mem m :=
      hg.frame.union (hm.mono (hu.subset hfin))
    refine ⟨{ h' with mem := m }, s.join u, ?_, ?_⟩
    · simp only [reallocGrow, hgrow, Option.bind_eq_bind, Option.bind_some]
      rfl
    · have inv₂ := (inv₁.frame (hm.mono hsub) (HeapInv.disjoint_word l hs₁.chunk) hs₁.free
        hs₁.live).cons hs₁ (hhead₁.frame hm hheader (hs₁.chunk.toNat_add hg.inv.hi_le_31))
      refine ⟨⟨(fin_join hg.adjacent).symm ▸ inv₂, hc, ?_, hbrk, ?_⟩, ?_, fun ht ↦ ?_⟩
      · simp only [Extent.join]
        omega
      · exact hmF.mono (Set.union_subset ((header_subset hs.chunk.min_le).trans
          (hs.subset (inv.hi_le.trans hbrk))) own_cons_subset)
      · exact copied_of_sameOutside inv.hi_le_31 hc hs.chunk (by omega) hmF
      · refine (ht.fresh hg.fresh hadd16).regroup ?_ (fun b hb ↦ ?_) m
        · simp only [total_append, total_cons, Extent.join]
          omega
        · obtain ⟨-, hb⟩ := List.forall_mem_cons.mp hb
          obtain ⟨hfree, hlive⟩ := List.forall_mem_append.mp hb
          obtain ⟨hsb, hlive⟩ := List.forall_mem_cons.mp hlive
          exact List.forall_mem_append.mpr ⟨hfree, List.forall_mem_cons.mpr ⟨hsb, hlive⟩⟩
  · right
    have hal := chunkEnd_mod inv.hi_le_31 hs.chunk hc hhead
    have hloop : reallocLoop c (chunkEnd h.mem c) oldSize fuel h'.mem l.mallocFreeList =
        some (oldSize, h'.mem) :=
      reallocLoop_eq hal hkept.inv.freeList hkept.inv.hi_le_31 (hkept.inv.length_lt hfuel)
    refine ⟨h', free', hi', ?_, hkept⟩
    simp only [reallocGrow, hgrow, Option.bind_eq_bind, Option.bind_some, hloop]
    rfl

theorem Copied.trans {m'' : Mem} {p' p'' : Addr} {k : ℕ} (h : Copied m m' p p' k)
    (h' : Copied m' m'' p' p'' k) : Copied m m'' p p'' k :=
  fun i hi ↦ (h' i hi).trans (h i hi)

theorem reallocMove_spec {oldSize : Word} (inv : HeapInv l h free (s :: live) foreign hi)
    (hc : c.toNat = s.start + 4) (hold : oldSize.toNat = s.size)
    (hlt : s.size < sizeFor size.toNat) (hfuel : 2 ^ 15 < fuel) :
    ∃ p' h', reallocMove l fuel h c oldSize size = some (p', h') ∧
      (Failed l h h' p' ∨ p' ≠ c ∧ ∃ t free' hi',
        Resized l h h' c p' size.toNat s t free free' live foreign hi') := by
  obtain ⟨p', h₁, hmalloc, ⟨hfail, -⟩ | ⟨u, free', hi', hg⟩⟩ :=
    malloc_spec inv size (inv.length_lt hfuel)
  · refine ⟨0, h₁, ?_, .inl { hfail with null := rfl }⟩
    simp only [reallocMove, hmalloc, Option.bind_eq_bind, Option.bind_some, if_pos hfail.null]
  obtain ⟨inv₁, hu, hheadu⟩ := hg.inv.uncons
  obtain ⟨-, hs, -⟩ := inv.uncons
  have hhi := hg.inv.hi_le_31
  have hule := hg.sizeFor_le
  have hufin := hu.chunk.fin_le
  have hp := hg.at_p
  have hlen : (mallocSize oldSize).toNat = s.size - 4 := by
    have hmin := hs.chunk.min_le
    rw [mallocSize, BitVec.toNat_sub, hold, toNat_mallocHeadSize]
    omega
  simp only [fin] at hufin
  let m := memcpy h₁.mem p' c (mallocSize oldSize)
  have hm := sameOutside_memcpy h₁.mem (p := p') (a := c) (n := mallocSize oldSize) (by omega)
  have hm' : SameOutside u.range h₁.mem m := hm.mono fun x hx ↦ by
    rw [Set.mem_Ico] at hx
    rw [mem_range, fin]
    omega
  have hheader :
      Disjoint (header u) (Set.Ico p'.toNat (p'.toNat + (mallocSize oldSize).toNat)) := by
    rw [header, Set.Ico_disjoint_Ico]
    omega
  have inv₂ : HeapInv l { h₁ with mem := m } free' (s :: u :: live) foreign hi' :=
    ((inv₁.frame hm' (HeapInv.disjoint_word l hu.chunk) hu.free hu.live).cons hu
      (hheadu.frame hm hheader (hu.chunk.toNat_add hhi))).perm (.swap _ _ _)
  obtain ⟨m₂, hfree, inv₃, -, hm₂⟩ := free_spec inv₂ hc (inv₂.length_lt hfuel)
  refine ⟨p', _, ?_, .inr ⟨?_, u, _, hi', ⟨inv₃, hp, hg.size_le, hg.brk_le, ?_⟩, ?_, fun ht ↦ ?_⟩⟩
  · have hne : p' ≠ 0 := by
      rw [Ne, ← BitVec.toNat_inj, hp]
      exact Nat.succ_ne_zero _
    simp only [reallocMove, hmalloc, Option.bind_eq_bind, Option.bind_some, if_neg hne]
    rw [hfree]
    rfl
  · rintro rfl
    have hd := disjoint_cover.mp hu.live s (by simp)
    have hpos := hs.chunk.pos
    rw [disjoint_range hu.chunk.pos hpos] at hd
    simp only [fin] at hd
    omega
  · have hown := hu.subset hg.inv.hi_le
    exact (((hg.frame.mono own_cons_subset).trans (hm'.mono (hown.trans own_cons_subset))).trans
      (hm₂.mono own_cons_subset))
  · have hcopy₁ : Copied h.mem h₁.mem c c (min (s.size - 4) size.toNat) := by
      have h16 := hs.chunk.min_le
      exact copied_of_sameOutside inv.hi_le_31 hc hs.chunk (by omega)
        (hg.frame.mono Set.subset_union_right)
    have hcopy₂ : Copied h₁.mem m c p' (min (s.size - 4) size.toNat) :=
      fun i hi ↦ memcpy_add (by omega)
    have hcopy₃ : Copied m m₂ p' p' (min (s.size - 4) size.toNat) := by
      have hsize := hg.size_le
      exact copied_of_sameOutside hhi hp hu.chunk (by omega) (hm₂.mono Set.subset_union_right)
    exact (hcopy₁.trans hcopy₂).trans hcopy₃
  · refine (hg.tidy ht).regroup ?_ (fun b hb ↦ ?_) m₂
    · simp only [total_append, total_insert, total_cons]
      omega
    · obtain ⟨hfree, hlive⟩ := List.forall_mem_append.mp hb
      obtain ⟨hub, hlive⟩ := List.forall_mem_cons.mp hlive
      obtain ⟨hsb, hlive⟩ := List.forall_mem_cons.mp hlive
      exact List.forall_mem_append.mpr ⟨forall_insert (fun _ _ hs _ _ ↦ hs) hsb hfree,
        List.forall_mem_cons.mpr ⟨hub, hlive⟩⟩

theorem Kept.trans {h'' : Heap} {free' free'' : List Extent} {hi' hi'' : ℕ}
    (hk : Kept l h h' free free' live foreign hi')
    (hk' : Kept l h' h'' free' free'' live foreign hi'') :
    Kept l h h'' free free'' live foreign hi'' where
  inv := hk'.inv
  brk_le := hk.brk_le.trans hk'.brk_le
  frame := (hk.frame.mono (own_mono hk'.brk_le)).trans hk'.frame
  tidy := hk'.tidy ∘ hk.tidy

theorem Kept.resized {h'' : Heap} {free' free'' : List Extent} {hi' hi'' k : ℕ}
    (inv : HeapInv l h free (s :: live) foreign hi) (hc : c.toNat = s.start + 4)
    (hk : Kept l h h' free free' (s :: live) foreign hi')
    (hr : Resized l h' h'' c p k s t free' free'' live foreign hi'') :
    Resized l h h'' c p k s t free free'' live foreign hi'' where
  inv := hr.inv
  at_p := hr.at_p
  size_le := hr.size_le
  copied := by
    have hs := inv.live_chunk s (by simp)
    have h16 := hs.min_le
    exact (copied_of_sameOutside inv.hi_le_31 hc hs (by omega)
      (hk.frame.mono Set.subset_union_right)).trans hr.copied
  brk_le := hk.brk_le.trans hr.brk_le
  frame := ((hk.frame.mono own_cons_subset).mono (own_mono hr.brk_le)).trans hr.frame
  tidy := hr.tidy ∘ hk.tidy

theorem realloc_spec (inv : HeapInv l h free (s :: live) foreign hi) (hc : c.toNat = s.start + 4)
    (hsize : size ≠ 0) (hfuel : 2 ^ 15 < fuel) :
    ∃ p' h', realloc l fuel h c size = some (p', h') ∧
      (p' = 0 ∧ h'.errno = enomem ∧
          (∃ free' hi', Kept l h h' free free' (s :: live) foreign hi') ∨
        ∃ t free' hi', Resized l h h' c p' size.toNat s t free free' live foreign hi') := by
  obtain ⟨-, hs, hhead⟩ := inv.uncons
  have hal := hs.chunk.size_aligned
  have hne : c ≠ 0 := by
    rw [Ne, ← BitVec.toNat_inj, hc]
    exact Nat.succ_ne_zero _
  have hfail : Kept l h (h.fail enomem) free free (s :: live) foreign hi :=
    inv.kept ⟨rfl, le_rfl, inv.brk_le, .inl ⟨rfl, rfl⟩⟩
  rw [realloc, if_neg hne, if_neg hsize]
  by_cases hmax : mallocAllocMax < size
  · rw [if_pos hmax]
    exact ⟨0, _, rfl, .inl ⟨rfl, rfl, free, hi, hfail⟩⟩
  have hbusy : ¬ isFree h.mem c := by
    rw [hhead.isFree_iff hc]
    omega
  have hold : (Picolibc.size h.mem c).toNat = s.size := by
    rw [hhead.size hc]
    omega
  have hn := toNat_chunkSize (BitVec.not_lt.mp hmax)
  obtain ⟨hspec, hn16, hmin, -⟩ := sizeFor_spec size.toNat
  rw [if_neg hmax, if_neg hbusy]
  dsimp only
  by_cases hlt : Picolibc.size h.mem c < chunkSize size
  · rw [if_pos hlt]
    rw [BitVec.lt_def, hold] at hlt
    rcases reallocGrow_spec inv hc hold (hn ▸ hn16) hlt (hn ▸ hspec) hfuel with
      ⟨h', t, hgrow, hr⟩ | ⟨h₁, free₁, hi₁, hgrow, hkept⟩
    · refine ⟨c, h', ?_, .inr ⟨t, free, t.fin, hr⟩⟩
      have hmin' : ¬ mallocChunkMin ≤ chunkSize size - chunkSize size := by
        rw [BitVec.sub_self]
        decide
      simp only [hgrow, Option.bind_eq_bind, Option.bind_some, if_pos (BitVec.le_refl _),
        reallocShrink, if_neg hmin']
    · have hnle : ¬ chunkSize size ≤ Picolibc.size h.mem c := by
        rw [BitVec.le_def, hold]
        exact Nat.not_le_of_lt hlt
      have hlt' : s.size < sizeFor size.toNat := hn ▸ hlt
      obtain ⟨p', h', hmove, hmoved⟩ := reallocMove_spec hkept.inv hc hold hlt' hfuel
      refine ⟨p', h', ?_, ?_⟩
      · simp only [hgrow, Option.bind_eq_bind, Option.bind_some, if_neg hnle, hmove]
      · rcases hmoved with hfailed | ⟨-, t, free', hi', hr⟩
        · exact .inl ⟨hfailed.null, hfailed.errno, free₁, hi₁,
            hkept.trans (hkept.inv.kept hfailed.refused)⟩
        · exact .inr ⟨t, free', hi', hkept.resized inv hc hr⟩
  · rw [if_neg hlt]
    rw [BitVec.lt_def, hold] at hlt
    obtain ⟨h', t, free', hshrink, hr⟩ :=
      reallocShrink_spec inv hc hold (hn ▸ hn16) (hn ▸ hmin) (Nat.le_of_not_lt hlt) (hn ▸ hspec)
        (inv.length_lt hfuel)
    refine ⟨c, h', ?_, .inr ⟨t, free', hi, hr⟩⟩
    have hle : chunkSize size ≤ Picolibc.size h.mem c := by
      rw [BitVec.le_def, hold]
      exact Nat.le_of_not_lt hlt
    simp only [Option.bind_eq_bind, Option.bind_some, if_pos hle, hshrink]

end Esp32c6Fw.Picolibc
