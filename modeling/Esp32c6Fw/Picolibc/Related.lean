import Esp32c6Fw.Picolibc.Memalign
import Esp32c6Fw.Picolibc.Store

namespace Esp32c6Fw.Picolibc

open Soc Rv32 Extent

/-- The chunks of the heap are the blocks of the store, and nothing of the allocator is the
program's. -/
structure Related (l : Link) (σ : Store) (h : Heap) (free live : List Extent) (hi : ℕ) : Prop where
  inv : HeapInv l h free live σ.got hi
  block : ∀ {p n}, σ.block p = some n → ∃ s ∈ live, p.toNat = s.start + 4 ∧ n + 4 ≤ s.size
  live : ∀ s ∈ live, ∃ p n, σ.block p = some n ∧ p.toNat = s.start + 4
  mem : ∀ {a b}, σ.mem a = some b → h.mem a = b
  visible : ∀ {a : Addr}, σ.mem a ≠ none →
    a.toNat ∈ word l.mallocFreeList ∪ Set.Ico l.heapEnd.toNat l.top →
    a.toNat ∈ σ.got ∨ ∃ p n, σ.block p = some n ∧ a.toNat ∈ Stub.block p n

variable {l : Link} {σ : Store} {h h' : Heap} {m : Mem} {free free' live live' : List Extent}
  {hi hi' fuel n k : ℕ} {p : Addr} {s t : Extent} {v : Addr → BitVec 8}

theorem block_subset (hp : p.toNat = s.start + 4) (hn : n + 4 ≤ s.size) :
    Stub.block p n ⊆ s.range :=
  Set.Ico_subset_Ico (by omega) (by simp only [fin]; omega)

namespace Related

theorem block_subset_cover (hr : Related l σ h free live hi) (hp : σ.block p = some n) :
    Stub.block p n ⊆ cover live := by
  obtain ⟨s, hs, hps, hn⟩ := hr.block hp
  exact (block_subset hps hn).trans (range_subset_cover hs)

theorem not_own (hr : Related l σ h free live hi) {a : Addr} {brk : ℕ} (ha : σ.mem a ≠ none)
    (hbrk : brk ≤ l.top) : a.toNat ∉ own l brk live σ.got := by
  rintro ⟨hx, hn⟩
  rcases hr.visible ha (Set.union_subset_union_right _ (Set.Ico_subset_Ico_right hbrk) hx) with
    hgot | ⟨p, n, hp, hx⟩
  · exact hn (.inr hgot)
  · exact hn (.inl (hr.block_subset_cover hp hx))

theorem perm (hr : Related l σ h free live hi) (hp : live.Perm live') :
    Related l σ h free live' hi where
  inv := hr.inv.perm hp
  block := fun hb ↦ by
    obtain ⟨s, hs, hps⟩ := hr.block hb
    exact ⟨s, hp.mem_iff.mp hs, hps⟩
  live := fun s hs ↦ hr.live s (hp.mem_iff.mpr hs)
  mem := hr.mem
  visible := hr.visible

theorem keep (hr : Related l σ h free live hi) (inv : HeapInv l h' free' live σ.got hi')
    (hs : SameOutside (own l h'.brk.toNat live σ.got) h.mem h'.mem) :
    Related l σ h' free' live hi' where
  inv := inv
  block := hr.block
  live := hr.live
  mem := fun {a} b hab ↦ by
    have hne : σ.mem a ≠ none := by
      rw [hab]
      exact Option.some_ne_none _
    rw [hs a (hr.not_own hne inv.brk_le)]
    exact hr.mem hab
  visible := hr.visible

theorem drop (hr : Related l σ h free (s :: live) hi) (hp : p.toNat = s.start + 4)
    (hb : σ.block p = some k) : Related l (σ.drop p k) h free live hi := by
  obtain ⟨inv, hs, -⟩ := hr.inv.uncons
  refine ⟨inv, fun {q n} hq ↦ ?_, fun t ht ↦ ?_, fun {a b} hab ↦ ?_, fun {a} ha hx ↦ ?_⟩
  · obtain ⟨hqp, hq⟩ := Store.block_drop.mp hq
    obtain ⟨t, ht, hqt, hn⟩ := hr.block hq
    rcases List.mem_cons.mp ht with rfl | ht
    · exact absurd (BitVec.toNat_inj.mp (hqt.trans hp.symm)) hqp
    · exact ⟨t, ht, hqt, hn⟩
  · obtain ⟨q, n, hq, hqt⟩ := hr.live t (List.mem_cons_of_mem _ ht)
    refine ⟨q, n, Store.block_drop.mpr ⟨?_, hq⟩, hqt⟩
    rintro rfl
    have hd := disjoint_cover.mp hs.live t ht
    have hst : s.start = t.start := Nat.add_right_cancel (hp.symm.trans hqt)
    have hpos := hs.chunk.pos
    have htpos := (inv.live_chunk t ht).pos
    rw [disjoint_range hpos htpos] at hd
    simp only [fin] at hd
    omega
  · simp only [Store.drop] at hab
    split at hab
    · cases hab
    · exact hr.mem hab
  · simp only [Store.drop] at ha
    split at ha
    · exact absurd rfl ha
    next hn =>
      rcases hr.visible ha hx with hgot | ⟨q, n, hq, hxq⟩
      · exact .inl hgot
      · refine .inr ⟨q, n, Store.block_drop.mpr ⟨?_, hq⟩, hxq⟩
        rintro rfl
        rw [hb] at hq
        cases hq
        exact hn hxq

theorem put (hr : Related l σ h free live hi) (hh : Handed l h h' p n t free' live σ.got hi')
    (hv : ∀ a : Addr, a.toNat ∈ Stub.block p n → h'.mem a = v a) :
    σ.New p n ∧ Related l (σ.put p n v) h' free' (t :: live) hi' := by
  obtain ⟨inv, ht, -⟩ := hh.inv.uncons
  have hp := hh.at_p
  have hsub := block_subset hp hh.size_le
  have hal := ht.chunk.aligned
  have hfin := ht.chunk.fin_le
  have hhi := inv.hi_le_31
  have hle := hh.size_le
  simp only [fin] at hfin
  have hnone (a : Addr) (ha : a.toNat ∈ Stub.block p n) : σ.mem a = none := by
    by_contra hne
    have hx := hsub ha
    have htop := ht.chunk.fin_le.trans (inv.hi_le.trans inv.brk_le)
    rcases hr.visible hne (.inr ⟨ht.chunk.lo_le.trans hx.1, hx.2.trans_le htop⟩) with
      hgot | ⟨q, k, hq, hxq⟩
    · exact Set.disjoint_left.mp ht.foreign hx hgot
    · exact Set.disjoint_left.mp ht.live hx (hr.block_subset_cover hq hxq)
  have hkeep := hr.keep inv hh.frame
  have hblock : σ.block p = none := by
    by_contra hne
    obtain ⟨k, hk⟩ := Option.ne_none_iff_exists'.mp hne
    obtain ⟨s, hs, hps, -⟩ := hr.block hk
    have hd := disjoint_cover.mp ht.live s hs
    have hst : t.start = s.start := Nat.add_right_cancel (hp.symm.trans hps)
    have hpos := ht.chunk.pos
    have hspos := (inv.live_chunk s hs).pos
    rw [disjoint_range hpos hspos] at hd
    simp only [fin] at hd
    omega
  refine ⟨⟨?_, by omega, hblock, by omega, hnone⟩,
    ⟨hh.inv, fun {q k} hq ↦ ?_, fun s hs ↦ ?_, fun {a b} hab ↦ ?_, fun {a} ha hx ↦ ?_⟩⟩
  · rw [Ne, ← BitVec.toNat_inj, hp]
    exact Nat.succ_ne_zero _
  · rcases Store.block_put.mp hq with ⟨rfl, rfl⟩ | ⟨-, hq⟩
    · exact ⟨t, by simp, hp, hle⟩
    · obtain ⟨s, hs, hqs⟩ := hr.block hq
      exact ⟨s, List.mem_cons_of_mem _ hs, hqs⟩
  · rcases List.mem_cons.mp hs with rfl | hs
    · exact ⟨p, n, Store.block_put.mpr (.inl ⟨rfl, rfl⟩), hp⟩
    · obtain ⟨q, k, hq, hqs⟩ := hr.live s hs
      refine ⟨q, k, Store.block_put.mpr (.inr ⟨?_, hq⟩), hqs⟩
      rintro rfl
      rw [hblock] at hq
      cases hq
  · simp only [Store.put] at hab
    split at hab
    next hn => exact (hv a hn).trans (Option.some_inj.mp hab)
    next => exact hkeep.mem hab
  · simp only [Store.put] at ha
    split at ha
    next hn => exact .inr ⟨p, n, Store.block_put.mpr (.inl ⟨rfl, rfl⟩), hn⟩
    next =>
      rcases hr.visible ha hx with hgot | ⟨q, k, hq, hxq⟩
      · exact .inl hgot
      · refine .inr ⟨q, k, Store.block_put.mpr (.inr ⟨?_, hq⟩), hxq⟩
        rintro rfl
        rw [hblock] at hq
        cases hq

theorem grow (hr : Related l σ h free live hi) {incr : Word} (errno : Word)
    (hle : h.brk.toNat + incr.toNat ≤ l.top)
    (hb : (h.brk + incr).toNat = h.brk.toNat + incr.toNat) :
    σ.Vacant h.brk incr.toNat ∧ Related l (σ.grow h.brk incr.toNat h.mem)
      { h with brk := h.brk + incr, errno } free live hi := by
  have htop := Stub.top_le l.toSramLayout
  have hnone (a : Addr) (ha : a.toNat ∈ Stub.block h.brk incr.toNat) : σ.mem a = none := by
    by_contra hne
    rcases hr.visible hne (.inr ⟨hr.inv.heapEnd_le.trans ha.1, ha.2.trans_le hle⟩) with
      hgot | ⟨q, k, hq, hxq⟩
    · exact absurd (hr.inv.foreign_subset hgot).2 (not_lt_of_ge ha.1)
    · obtain ⟨s, hs, hx⟩ := hr.block_subset_cover hq hxq
      have hfin := (hr.inv.live_chunk s hs).fin_le.trans hr.inv.hi_le
      exact absurd (hx.2.trans_le hfin) (not_lt_of_ge ha.1)
  have inv := hr.inv.moved errno (hb.symm ▸ Nat.le_add_right _ _) (hb.trans_le hle)
  rw [hb] at inv
  refine ⟨⟨by omega, hnone⟩, ⟨inv, hr.block, hr.live, fun {a b} hab ↦ ?_, fun {a} ha hx ↦ ?_⟩⟩
  · simp only [Store.grow] at hab
    split at hab
    next => exact Option.some_inj.mp hab
    next => exact hr.mem hab
  · simp only [Store.grow] at ha
    split at ha
    next hn => exact .inl (.inr hn)
    next =>
      rcases hr.visible ha hx with hgot | hblock
      · exact .inl (.inl hgot)
      · exact .inr hblock

theorem store (hr : Related l σ h free live hi) {a : Addr} (ha : σ.mem a ≠ none) (b : BitVec 8) :
    Related l { σ with mem := Function.update σ.mem a (some b) }
      { h with mem := Function.update h.mem a b } free live hi := by
  have hnot := hr.not_own ha hr.inv.brk_le
  have hs : SameOutside {a.toNat} h.mem (Function.update h.mem a b) := fun x hx ↦
    Function.update_of_ne (fun he ↦ hx (congrArg BitVec.toNat he)) _ _
  have hword : a.toNat ∉ word l.mallocFreeList := fun hx ↦
    hnot (hr.inv.listed_subset (.inl hx))
  have hfree : a.toNat ∉ cover free := fun hx ↦ hnot (hr.inv.listed_subset (.inr hx))
  have hheader (s : Extent) (hsl : s ∈ live) : a.toNat ∉ header s := by
    intro hx
    have hchunk := hr.inv.live_chunk s hsl
    have hxs := header_subset hchunk.min_le hx
    have hfin := hchunk.fin_le.trans (hr.inv.hi_le.trans hr.inv.brk_le)
    rcases hr.visible ha (.inr ⟨hchunk.lo_le.trans hxs.1, hxs.2.trans_le hfin⟩) with
      hgot | ⟨q, k, hq, hxq⟩
    · exact Set.disjoint_left.mp hr.inv.foreign_live hgot ⟨s, hsl, hxs⟩
    · obtain ⟨t, ht, hqt, hk⟩ := hr.block hq
      have hst : s = t := by
        by_contra hne
        have : Std.Symm fun s t : Extent ↦ Disjoint s.range t.range := ⟨fun _ _ h ↦ h.symm⟩
        exact Set.disjoint_left.mp (hr.inv.live_apart.forall hsl ht hne) hxs
          (block_subset hqt hk hxq)
      have hlt := hx.2
      have hge := hxq.1
      subst hst
      omega
  refine ⟨hr.inv.frame_header hs (Set.disjoint_singleton_right.mpr hword)
    (Set.disjoint_singleton_left.mpr hfree)
    fun s hs ↦ Set.disjoint_singleton_right.mpr (hheader s hs), hr.block, hr.live,
    fun {x y} hxy ↦ ?_, fun {x} hx hxl ↦ ?_⟩
  · by_cases hxa : x = a
    · subst hxa
      simp only [Function.update_self] at hxy ⊢
      exact Option.some_inj.mp hxy
    · simp only [Function.update_of_ne hxa] at hxy ⊢
      exact hr.mem hxy
  · by_cases hxa : x = a
    · exact hr.visible (hxa ▸ ha) hxl
    · exact hr.visible (fun hnone ↦ hx ((Function.update_of_ne hxa _ _).trans hnone)) hxl

end Related

def Represents (l : Link) (σ : Store) (h : Heap) : Prop :=
  ∃ free live hi, Related l σ h free live hi ∧ (σ.got = ∅ → Tidy h (free ++ live))

theorem Represents.uncons (hr : Represents l σ h) (hp : σ.block p = some k) :
    ∃ free s live hi, Related l σ h free (s :: live) hi ∧ p.toNat = s.start + 4 ∧
      k + 4 ≤ s.size ∧ (σ.got = ∅ → Tidy h (free ++ s :: live)) := by
  obtain ⟨free, live, hi, hrel, ht⟩ := hr
  obtain ⟨s, hs, hps, hk⟩ := hrel.block hp
  have hperm : live.Perm (s :: live.erase s) := List.perm_cons_erase hs
  refine ⟨free, s, live.erase s, hi, hrel.perm hperm, hps, hk, fun hgot ↦ ?_⟩
  refine (ht hgot).regroup ?_ (fun b hb t ht ↦ hb t ?_) h.mem
  · exact ((hperm.append_left free).map Extent.size).sum_eq.symm
  · exact ((hperm.append_left free).mem_iff).mpr ht

end Esp32c6Fw.Picolibc
