import Esp32c6Fw.Picolibc.Realloc
import Mathlib.Algebra.Order.Ring.Nat

namespace Esp32c6Fw.Picolibc

open Soc Rv32 Extent

variable {l : Link} {h h' : Heap} {m m' : Mem} {c p : Addr} {n size align : Word} {s t u : Extent}
  {L free live : List Extent} {foreign : Set ℕ} {lo hi fuel k : ℕ}

theorem toNat_align (h : align &&& (align - 1) = 0) :
    ∃ k, 2 ≤ k ∧ (maxOf align (upPot mallocChunkMin)).toNat = 2 ^ k ∧
      max align.toNat 16 = max (2 ^ k) 16 := by
  have hpot : (upPot mallocChunkMin).toNat = 4 := by decide
  rw [toNat_maxOf, hpot]
  by_cases h0 : align.toNat = 0
  · exact ⟨2, le_rfl, by rw [h0]; rfl, by rw [h0]; rfl⟩
  have hsub : (align - 1).toNat = align.toNat - 1 := by
    have hlt := align.isLt
    rw [BitVec.toNat_sub]
    change (2 ^ 32 - 1 + align.toNat) % 2 ^ 32 = _
    omega
  have hand : align.toNat &&& (align.toNat - 1) = 0 := by
    rw [← hsub, ← BitVec.toNat_and, h]
    rfl
  obtain ⟨k, hk⟩ := (Nat.and_sub_one_eq_zero_iff_isPowerOfTwo h0).mp hand
  rw [hk]
  rcases Nat.lt_or_ge k 2 with hlt | hge
  · have hle : 2 ^ k ≤ 2 ^ 2 := Nat.pow_le_pow_right (by decide) hlt.le
    exact ⟨2, le_rfl, max_eq_right hle, by omega⟩
  · have hle : 2 ^ 2 ≤ 2 ^ k := Nat.pow_le_pow_right (by decide) hge
    exact ⟨k, hge, max_eq_left hle, rfl⟩

/-- An aligned address is a whole number of chunk alignments further. -/
theorem alignUp_offset {a k : ℕ} (ha : a % 16 = 0) (hk : 2 ≤ k) :
    a ≤ (a + 2 ^ k - 1) / 2 ^ k * 2 ^ k ∧ (a + 2 ^ k - 1) / 2 ^ k * 2 ^ k < a + 2 ^ k ∧
      (a + 2 ^ k - 1) / 2 ^ k * 2 ^ k % 16 = 0 ∧
      (a + 2 ^ k - 1) / 2 ^ k * 2 ^ k % max (2 ^ k) 16 = 0 := by
  have hpos : 0 < 2 ^ k := Nat.two_pow_pos k
  have hmod := Nat.div_add_mod (a + 2 ^ k - 1) (2 ^ k)
  have hlt := Nat.mod_lt (a + 2 ^ k - 1) hpos
  rw [Nat.mul_comm] at hmod
  refine ⟨by omega, by omega, ?_⟩
  rcases Nat.lt_or_ge k 4 with hk4 | hk4
  · have h16 : (a + 2 ^ k - 1) / 2 ^ k * 2 ^ k % 16 = 0 := by
      obtain rfl | rfl : k = 2 ∨ k = 3 := by omega
      all_goals omega
    have hle : 2 ^ k ≤ 16 := Nat.pow_le_pow_right (n := 2) (j := 4) (by decide) hk4.le
    rw [max_eq_right hle]
    exact ⟨h16, h16⟩
  · have hdvd : 16 ∣ 2 ^ k := Nat.pow_dvd_pow 2 (m := 4) hk4
    rw [max_eq_left (Nat.le_of_dvd hpos hdvd)]
    exact ⟨Nat.mod_eq_zero_of_dvd (hdvd.mul_left _), Nat.mul_mod_left _ _⟩

theorem Handed.trans {h'' : Heap} {p' : Addr} {n n' : ℕ} {free' free'' : List Extent} {hi' hi'' : ℕ}
    (hd : Handed l h h' p n u free' live foreign hi')
    (hd' : Handed l h' h'' p' n' t free'' live foreign hi'') :
    Handed l h h'' p' n' t free'' live foreign hi'' :=
  { hd' with
    brk_le := hd.brk_le.trans hd'.brk_le
    frame := (hd.frame.mono (own_mono hd'.brk_le)).trans hd'.frame }

theorem memalignFront_spec (alignedP : Addr) (align : Word) {d n : ℕ}
    (inv : HeapInv l h free (u :: live) foreign hi) (hc : c.toNat = u.start + 4)
    (hd : alignedP.toNat = c.toNat + d) (hal : d % 16 = 0) (hle : d + 16 ≤ u.size)
    (hn : n + 4 ≤ u.size - d) (hfuel : free.length < fuel) :
    ∃ h' free', memalignFront l fuel h c alignedP align = some (alignedP, h') ∧
      Handed l h h' alignedP n (u.back d) free' live foreign hi ∧
      (Tidy h (free ++ u :: live) → Tidy h' (free' ++ u.back d :: live)) := by
  obtain ⟨inv₀, hu, hhead⟩ := inv.uncons
  have hhi := inv.hi_le_31
  have hc' : alignedP.toNat = (u.back d).start + 4 := by
    rw [hd, hc, start_back]
    omega
  have hoff : (alignedP - c).toNat = d := by
    have hlt := alignedP.isLt
    rw [BitVec.toNat_sub, hd]
    omega
  have hzero : alignedP - c = 0 ↔ d = 0 := by
    rw [← BitVec.toNat_inj, hoff]
    rfl
  rw [memalignFront]
  by_cases h0 : d = 0
  · have heq : alignedP = c := by
      rw [← BitVec.toNat_inj, hd, h0, Nat.add_zero]
    have hback : u.back d = u := by
      rw [h0]
      rfl
    dsimp only
    rw [if_pos (hzero.mpr h0), heq, hback]
    exact ⟨h, free, rfl, ⟨inv, hc, by omega, le_rfl, .refl _ _⟩, id⟩
  have h16 : 16 ≤ d := by omega
  have hmin : ¬ alignedP - c < mallocChunkMin := by
    rw [BitVec.lt_def, hoff]
    exact Nat.not_lt.mpr h16
  have hual := hu.chunk.size_aligned
  obtain ⟨hfront, hback⟩ := hu.split (by omega : d ≤ u.size) hal h16 (by omega)
  have hfront' := hfront.apart disjoint_front_back
  have hw : (Picolibc.size h.mem c - (alignedP - c)).toNat = u.size - d := by
    have hlt := (Picolibc.size h.mem c).isLt
    have hsize := hhead.size hc
    rw [BitVec.toNat_sub, hoff]
    omega
  let m₁ := setSize h.mem alignedP (Picolibc.size h.mem c - (alignedP - c))
  have hb := hback.chunk.toNat_add hhi
  have hm₁ : SameOutside (u.back d).range h.mem m₁ :=
    sameOutside_sizeRef hc' hb hback.chunk.min_le
  have hhead₁ : Headed m₁ (u.back d) (u.size - d) := hw ▸ headed_storeWord hc'
  have inv₁ := (inv₀.frame hm₁ (HeapInv.disjoint_word l hback.chunk) hback.free hback.live).cons
    hback hhead₁
  obtain ⟨m₂, hmake, inv₂, hm₂⟩ := makeFreeChunk_spec inv₁ hfront' hc hoff hfuel
  dsimp only
  rw [if_neg fun hz ↦ h0 (hzero.mp hz), if_neg hmin, hmake]
  refine ⟨_, _, rfl, ⟨inv₂, hc', by simpa using hn, le_rfl, ?_⟩, fun ht ↦ ?_⟩
  · exact (hm₁.mono (hback.subset inv.hi_le)).trans (hm₂.mono own_cons_subset)
  · exact ht.part (t := u.front d) (u := u.back d) (by simp only [size_front, size_back]; omega)
      le_rfl (Nat.le_add_right _ _) m₂

theorem memalignBack_spec (size : Word) {n : ℕ} (inv : HeapInv l h free (u :: live) foreign hi)
    (hc : c.toNat = u.start + 4) (hal : size.toNat % 16 = 0) (h16 : 16 ≤ size.toNat)
    (hle : size.toNat ≤ u.size) (hn : n + 4 ≤ size.toNat) (hfuel : free.length < fuel) :
    ∃ h' t free', memalignBack l fuel h c size = some (c, h') ∧
      Handed l h h' c n t free' live foreign hi ∧
      (Tidy h (free ++ u :: live) → Tidy h' (free' ++ t :: live)) := by
  obtain ⟨-, hu, hhead⟩ := inv.uncons
  have hual := hu.chunk.size_aligned
  have hsize := hhead.size hc
  have hoff : (Picolibc.size h.mem c - size).toNat = u.size - size.toNat := by
    have hlt := size.isLt
    rw [BitVec.toNat_sub]
    omega
  have hw : (loadWord h.mem (sizeRef c) - (Picolibc.size h.mem c - size)).toNat = size.toNat := by
    have hword := hhead.sizeRef hc
    have hlt := (loadWord h.mem (sizeRef c)).isLt
    rw [BitVec.toNat_sub, hoff]
    omega
  have hiff : mallocChunkMin ≤ Picolibc.size h.mem c - size ↔ 16 ≤ u.size - size.toNat := by
    rw [BitVec.le_def, hoff]
    rfl
  rw [memalignBack]
  by_cases hmin : 16 ≤ u.size - size.toNat
  · obtain ⟨m, hmake, inv', hm⟩ := freeBack_spec inv hc hw hoff hal h16 hmin hfuel
    dsimp only
    rw [if_pos (hiff.mpr hmin), hmake]
    refine ⟨_, u.front size.toNat, _, rfl, ⟨inv', hc, hn, le_rfl, ?_⟩, fun ht ↦ ?_⟩
    · exact hm.mono (Set.union_subset ((header_subset hu.chunk.min_le).trans
        (hu.subset inv.hi_le)) own_cons_subset)
    · exact ht.part (t := u.back size.toNat) (u := u.front size.toNat) (Nat.sub_add_cancel hle)
        (Nat.le_add_right _ _) le_rfl m
  · rw [if_neg fun hle ↦ hmin (hiff.mp hle)]
    exact ⟨h, u, free, rfl, ⟨inv, hc, by omega, le_rfl, .refl _ _⟩, id⟩

theorem memalign_spec (inv : HeapInv l h free live foreign hi) (align n : Word)
    (hfuel : 2 ^ 15 < fuel) :
    ∃ p h', memalign l fuel h align n = some (p, h') ∧
      (p = 0 ∧ (h'.errno = enomem ∨ h'.errno = einval ∧ align &&& (align - 1) ≠ 0) ∧
          Kept l h h' free free live foreign hi ∨
        ∃ t free' hi', Handed l h h' p n.toNat t free' live foreign hi' ∧
          (Tidy h (free ++ live) → Tidy h' (free' ++ t :: live)) ∧
          p.toNat % max align.toNat 16 = 0) := by
  have hrefused (e : Word) : Kept l h (h.fail e) free free live foreign hi :=
    inv.kept ⟨rfl, le_rfl, inv.brk_le, .inl ⟨rfl, rfl⟩⟩
  rw [memalign]
  by_cases hpow : align &&& (align - 1) = 0
  swap
  · rw [if_pos hpow]
    exact ⟨0, _, rfl, .inl ⟨rfl, .inr ⟨rfl, hpow⟩, hrefused einval⟩⟩
  obtain ⟨k, hk, hal, hmax⟩ := toNat_align hpow
  rw [if_neg (not_not.mpr hpow), hmax]
  generalize maxOf align (upPot mallocChunkMin) = a at hal
  dsimp only
  by_cases hbig : mallocAllocMax < a ∨ mallocAllocMax - a < n
  · rw [if_pos hbig]
    exact ⟨0, _, rfl, .inl ⟨rfl, .inl rfl, hrefused enomem⟩⟩
  rw [if_neg hbig]
  rw [not_or, BitVec.not_lt, BitVec.not_lt, BitVec.le_def, BitVec.le_def, BitVec.toNat_sub,
    toNat_mallocAllocMax, hal] at hbig
  have hn : n ≤ mallocAllocMax := by
    rw [BitVec.le_def, toNat_mallocAllocMax]
    omega
  have hsize := toNat_chunkSize hn
  obtain ⟨hle, hn16, hmin, hmax'⟩ := sizeFor_spec n.toNat
  have hpad : (chunkSize n + a + mallocChunkMin).toNat = sizeFor n.toNat + 2 ^ k + 16 := by
    rw [BitVec.toNat_add, BitVec.toNat_add, hsize, hal, toNat_mallocChunkMin]
    omega
  obtain ⟨p, h₁, hmalloc, ⟨hfail, -⟩ | ⟨u, free₁, hi₁, hg⟩⟩ :=
    malloc_spec inv (chunkSize n + a + mallocChunkMin) (inv.length_lt hfuel)
  · refine ⟨0, h₁, ?_, .inl ⟨rfl, .inl hfail.errno, inv.kept hfail.refused⟩⟩
    simp only [hmalloc, Option.bind_eq_bind, Option.bind_some, if_pos hfail.null]
  have hp := hg.at_p
  have husize := hg.size_le
  have hchunk := hg.inv.live_chunk u (by simp)
  have hfin := hchunk.fin_le
  have hhi := hg.inv.hi_le_31
  have halign := hchunk.aligned
  rw [hpad] at husize
  simp only [fin] at hfin
  have hup := toNat_alignUp (x := p) hal (by omega)
  obtain ⟨hge, hlt, h16, hmod⟩ := alignUp_offset (a := p.toNat) (by omega) hk
  rw [← hup] at hge hlt h16 hmod
  have hd16 : ((alignUp p a).toNat - p.toNat) % 16 = 0 := by omega
  obtain ⟨h₂, free₂, hfront, hfronted, htidy₂⟩ :=
    memalignFront_spec (alignUp p a) a (n := n.toNat) hg.inv hp
      (Nat.add_sub_cancel' hge).symm hd16 (by omega) (by omega) (hg.inv.length_lt hfuel)
  obtain ⟨h₃, t, free₃, hback, hbacked, htidy₃⟩ :=
    memalignBack_spec (chunkSize n) (n := n.toNat) hfronted.inv hfronted.at_p
      (hsize ▸ hn16) (hsize ▸ hmin) (by simp only [size_back]; omega) (hsize ▸ hle)
      (hfronted.inv.length_lt hfuel)
  refine ⟨alignUp p a, h₃, ?_, .inr ⟨t, free₃, hi₁, ?_, ?_, hmod⟩⟩
  · have hne : p ≠ 0 := by
      rw [Ne, ← BitVec.toNat_inj, hp]
      exact Nat.succ_ne_zero _
    simp only [hmalloc, Option.bind_eq_bind, Option.bind_some, if_neg hne, hfront, hback]
  · exact (hg.toHanded.trans hfronted).trans hbacked
  · exact fun ht ↦ htidy₃ (htidy₂ (hg.tidy ht))

end Esp32c6Fw.Picolibc
