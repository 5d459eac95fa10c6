import Esp32c6Fw.Lib.Extents
import Esp32c6Fw.Picolibc.Malloc

namespace Esp32c6Fw.Picolibc

open Soc Rv32 Extent

variable {m m' : Mem} {c p v : Addr} {s t u : Extent} {L : List Extent} {F : Set ℕ} {lo hi : ℕ}

section Words

theorem toNat_and_not {x y : Word} {k : ℕ} (hy : y.toNat = 2 ^ k - 1) :
    (x &&& ~~~y).toNat = x.toNat / 2 ^ k * 2 ^ k := by
  have h : x &&& ~~~y = x >>> k <<< k := by
    ext i hi
    have hyi : y[i] = decide (i < k) := by
      rw [BitVec.getElem_eq_testBit_toNat, hy, Nat.testBit_two_pow_sub_one]
    rw [BitVec.getElem_and, BitVec.getElem_not, hyi, BitVec.getElem_shiftLeft]
    by_cases hik : i < k
    · simp [hik]
    · simp [hik, BitVec.getElem_ushiftRight, BitVec.getLsbD_eq_getElem hi,
        Nat.add_sub_cancel' (Nat.le_of_not_lt hik)]
  rw [h, BitVec.toNat_shiftLeft, BitVec.toNat_ushiftRight, Nat.shiftLeft_eq,
    Nat.shiftRight_eq_div_pow]
  exact Nat.mod_eq_of_lt (lt_of_le_of_lt (Nat.div_mul_le_self _ _) x.isLt)

theorem toNat_alignUp {x y : Word} {k : ℕ} (hy : y.toNat = 2 ^ k)
    (hx : x.toNat + 2 ^ k ≤ 2 ^ 32) :
    (alignUp x y).toNat = (x.toNat + 2 ^ k - 1) / 2 ^ k * 2 ^ k := by
  have hpos : 0 < 2 ^ k := Nat.two_pow_pos k
  have hy' : (y - 1).toNat = 2 ^ k - 1 := by bv_omega
  rw [alignUp, toNat_and_not hy', BitVec.toNat_add, hy', Nat.mod_eq_of_lt (by omega)]
  congr 2
  omega

theorem toNat_maxOf (a b : Word) : (maxOf a b).toNat = max a.toNat b.toNat := by
  rw [maxOf]
  split
  next h => exact (max_eq_left (BitVec.lt_def.mp h).le).symm
  next h => exact (max_eq_right (BitVec.le_def.mp (BitVec.not_lt.mp h))).symm

@[simp] theorem toNat_mallocHeadSize : mallocHeadSize.toNat = 4 := rfl

@[simp] theorem toNat_mallocChunkMin : mallocChunkMin.toNat = 16 := by decide

theorem toNat_mallocAllocMax : mallocAllocMax.toNat = 2 ^ 32 - 37 := by decide

def sizeFor (n : ℕ) : ℕ := max 16 ((n + 4 + 15) / 16 * 16)

theorem toNat_chunkSize {n : Word} (h : n ≤ mallocAllocMax) :
    (chunkSize n).toNat = sizeFor n.toNat := by
  have hn := BitVec.le_def.mp h
  rw [toNat_mallocAllocMax] at hn
  have hadd : (n + mallocHeadSize).toNat = n.toNat + 4 := by
    rw [BitVec.toNat_add]
    exact Nat.mod_eq_of_lt (by simp only [toNat_mallocHeadSize]; omega)
  have hal : mallocChunkAlign.toNat = 2 ^ 4 := rfl
  rw [chunkSize, toNat_maxOf, toNat_alignUp hal (by omega), hadd, sizeFor]
  rfl

theorem sizeFor_spec (n : ℕ) : n + 4 ≤ sizeFor n ∧ sizeFor n % 16 = 0 ∧ 16 ≤ sizeFor n ∧
    sizeFor n ≤ n + 19 := by
  simp only [sizeFor]
  omega

/-- A word of a header is the size of the chunk, one more if the chunk is free. -/
theorem toNat_clear (w : Word) : (w &&& ~~~1).toNat = w.toNat - w.toNat % 2 := by
  have h : (w &&& ~~~1).toNat = w.toNat / 2 ^ 1 * 2 ^ 1 := toNat_and_not rfl
  rw [h]
  omega

theorem and_one_ne_zero (w : Word) : w &&& 1 ≠ 0 ↔ w.toNat % 2 = 1 := by
  have h : (w &&& 1).toNat = w.toNat % 2 := by
    rw [BitVec.toNat_and]
    exact Nat.and_one_is_mod _
  rw [Ne, ← BitVec.toNat_inj, h]
  change ¬ w.toNat % 2 = 0 ↔ _
  omega

theorem toNat_or_one {w : Word} (h : w.toNat % 2 = 0) : (w ||| 1).toNat = w.toNat + 1 := by
  have hw : w.toNat = 2 ^ 1 * (w.toNat / 2) := by omega
  rw [BitVec.toNat_or, hw]
  exact (Nat.two_pow_add_eq_or_of_lt (by decide : 1 < 2 ^ 1) _).symm

end Words

/-- A chunk of the heap from `lo` to `hi`: its header is a word below an aligned address. -/
structure Chunk (lo hi : ℕ) (s : Extent) : Prop where
  lo_le : lo ≤ s.start
  fin_le : s.fin ≤ hi
  aligned : s.start % 16 = 12
  size_aligned : s.size % 16 = 0
  min_le : 16 ≤ s.size

namespace Chunk

theorem pos (h : Chunk lo hi s) : 0 < s.size := lt_of_lt_of_le (by decide) h.min_le

theorem mono {hi' : ℕ} (h : Chunk lo hi s) (hle : hi ≤ hi') : Chunk lo hi' s :=
  { h with fin_le := h.fin_le.trans hle }

theorem join (hs : Chunk lo hi s) (ht : Chunk lo hi t) (h : s.fin = t.start) :
    Chunk lo hi (s.join t) where
  lo_le := hs.lo_le
  fin_le := (fin_join h).trans_le ht.fin_le
  aligned := hs.aligned
  size_aligned := by
    have h₁ := hs.size_aligned
    have h₂ := ht.size_aligned
    simp only [Extent.join]
    omega
  min_le := hs.min_le.trans (Nat.le_add_right _ _)

theorem front {n : ℕ} (h : Chunk lo hi t) (hn : n ≤ t.size) (hal : n % 16 = 0) (hmin : 16 ≤ n) :
    Chunk lo hi (t.front n) where
  lo_le := h.lo_le
  fin_le := (Nat.add_le_add_left hn _).trans h.fin_le
  aligned := h.aligned
  size_aligned := hal
  min_le := hmin

theorem back {n : ℕ} (h : Chunk lo hi t) (hal : n % 16 = 0) (hmin : 16 ≤ t.size - n) :
    Chunk lo hi (t.back n) where
  lo_le := h.lo_le.trans (Nat.le_add_right _ _)
  fin_le := by
    have hf := h.fin_le
    simp only [fin, start_back, size_back] at hf ⊢
    omega
  aligned := by
    have ha := h.aligned
    simp only [start_back]
    omega
  size_aligned := by
    have ha := h.size_aligned
    simp only [size_back]
    omega
  min_le := hmin

theorem toNat_add (h : Chunk lo hi s) (hhi : hi ≤ 2 ^ 31) : s.start + 16 ≤ 2 ^ 32 := by
  have h₁ := h.fin_le
  have h₂ := h.min_le
  simp only [fin] at h₁
  omega

end Chunk

def header (s : Extent) : Set ℕ := Set.Ico s.start (s.start + 4)

theorem header_subset (h : 16 ≤ s.size) : header s ⊆ s.range :=
  Set.Ico_subset_Ico_right (Nat.add_le_add_left (h.trans' (by decide)) _)

theorem word_subset (hc : c.toNat = s.start + 4) (h : 16 ≤ s.size) : word c ⊆ s.range := by
  intro x hx
  rw [mem_word, hc] at hx
  rw [mem_range, fin]
  omega

theorem disjoint_header_word (hc : c.toNat = s.start + 4) : Disjoint (header s) (word c) := by
  rw [header, word, hc, Set.Ico_disjoint_Ico]
  omega

def Headed (m : Mem) (s : Extent) (n : ℕ) : Prop :=
  ∀ a : Addr, a.toNat = s.start → (loadWord m a).toNat = n

def FreeChain (m : Mem) : Addr → List Extent → Prop
  | v, [] => v = 0
  | v, s :: L => v.toNat = s.start + 4 ∧ Headed m s (s.size + 1) ∧ FreeChain m (next m v) L

theorem Headed.frame {n : ℕ} (h : Headed m s n) (hs : SameOutside F m m')
    (hd : Disjoint (header s) F) (hf : s.start + 16 ≤ 2 ^ 32) : Headed m' s n := by
  intro a ha
  have hw : word a = header s := by rw [word, header, ha]
  rw [← h a ha, hs.loadWord (by omega) (hw ▸ hd)]

section Header

variable (hc : c.toNat = s.start + 4) (hf : s.start + 16 ≤ 2 ^ 32)

include hc

theorem toNat_sizeRef : (sizeRef c).toNat = s.start := by
  have h₄ := toNat_mallocHeadSize
  rw [sizeRef]
  bv_omega

theorem Headed.sizeRef {n : ℕ} (h : Headed m s n) : (loadWord m (sizeRef c)).toNat = n :=
  h _ (toNat_sizeRef hc)

theorem Headed.size {n : ℕ} (h : Headed m s n) : (size m c).toNat = n - n % 2 := by
  rw [Picolibc.size, toNat_clear, h.sizeRef hc]

theorem Headed.isFree_iff {n : ℕ} (h : Headed m s n) : isFree m c ↔ n % 2 = 1 := by
  rw [isFree, and_one_ne_zero, h.sizeRef hc]

theorem headed_storeWord {w : Word} : Headed (storeWord m (Picolibc.sizeRef c) w) s w.toNat := by
  intro a ha
  have he : a = Picolibc.sizeRef c := BitVec.toNat_inj.mp (ha.trans (toNat_sizeRef hc).symm)
  rw [he, loadWord_storeWord]

include hf

theorem sameOutside_sizeRef {w : Word} (h16 : 16 ≤ s.size) :
    SameOutside s.range m (storeWord m (Picolibc.sizeRef c) w) := by
  have hr := toNat_sizeRef hc
  have hw : word (Picolibc.sizeRef c) = header s := by rw [word, header, hr]
  exact (sameOutside_storeWord m (by omega) w).mono (hw ▸ header_subset h16)

theorem sameOutside_setNext {w : Addr} (h16 : 16 ≤ s.size) :
    SameOutside s.range m (setNext m c w) :=
  (sameOutside_storeWord m (by omega) w).mono (word_subset hc h16)

omit hf in
theorem Headed.setNext {n : ℕ} {w : Addr} (h : Headed m s n) (hf : s.start + 16 ≤ 2 ^ 32) :
    Headed (setNext m c w) s n :=
  h.frame (sameOutside_storeWord m (by omega) w) (disjoint_header_word hc) hf

theorem next_sizeRef {w : Word} : next (storeWord m (Picolibc.sizeRef c) w) c = next m c := by
  have hr := toNat_sizeRef hc
  have hw : word (Picolibc.sizeRef c) = header s := by rw [word, header, hr]
  exact (sameOutside_storeWord m (by omega) w).loadWord (by omega)
    (hw ▸ (disjoint_header_word hc).symm)

theorem next_frame (hs : SameOutside F m m') (hd : Disjoint s.range F) (h16 : 16 ≤ s.size) :
    next m' c = next m c :=
  hs.loadWord (by omega) (hd.mono_left (word_subset hc h16))

end Header

theorem FreeChain.frame (h : FreeChain m v L) (hs : SameOutside F m m')
    (hd : Disjoint F (cover L)) (hL : ∀ s ∈ L, Chunk lo hi s) (hhi : hi ≤ 2 ^ 31) :
    FreeChain m' v L := by
  induction L generalizing v with
  | nil => exact h
  | cons s L ih =>
    obtain ⟨hv, hhead, hrest⟩ := h
    obtain ⟨hs', hL'⟩ := List.forall_mem_cons.mp hL
    rw [cover_cons, Set.disjoint_union_right] at hd
    have hb := hs'.toNat_add hhi
    refine ⟨hv, hhead.frame hs (hd.1.symm.mono_left (header_subset hs'.min_le)) hb, ?_⟩
    rw [next_frame hv hb hs hd.1.symm hs'.min_le]
    exact ih hrest hd.2 hL'

/-- The list behind the chunk `u` has been changed, from the pointer in `u` on. -/
theorem FreeChain.past {A : Set ℕ} (hd : (loadWord m p).toNat = u.start + 4)
    (hhead : Headed m u (u.size + 1)) (hu : Chunk lo hi u) (hhi : hi ≤ 2 ^ 31)
    (hp : p.toNat + 4 ≤ 2 ^ 32) (hs : SameOutside (word (loadWord m p) ∪ A) m m')
    (huA : Disjoint u.range A) (hpA : Disjoint (word p) (u.range ∪ A))
    (h : FreeChain m' (next m' (loadWord m p)) L) : FreeChain m' (loadWord m' p) (u :: L) := by
  have hword := word_subset hd hu.min_le
  have hload : loadWord m' p = loadWord m p :=
    hs.loadWord hp (hpA.mono_right (Set.union_subset_union_left _ hword))
  rw [hload]
  refine ⟨hd, hhead.frame hs ?_ (hu.toNat_add hhi), h⟩
  exact Set.disjoint_union_right.mpr
    ⟨disjoint_header_word hd, huA.mono_left (header_subset hu.min_le)⟩

/-- The list that `p` points to, of chunks apart from that pointer. -/
structure FreeList (lo hi : ℕ) (m : Mem) (p : Addr) (L : List Extent) : Prop where
  chain : FreeChain m (loadWord m p) L
  chunks : ∀ u ∈ L, Chunk lo hi u
  separated : Separated L
  word_le : p.toNat + 4 ≤ 2 ^ 32
  word_apart : Disjoint (word p) (cover L)

theorem FreeList.tail (hhi : hi ≤ 2 ^ 31) (h : FreeList lo hi m p (u :: L)) :
    FreeList lo hi m (loadWord m p) L := by
  obtain ⟨hd, -, hrest⟩ := h.chain
  obtain ⟨hu, hL⟩ := List.forall_mem_cons.mp h.chunks
  have hb := hu.toNat_add hhi
  exact ⟨hrest, hL, h.separated.tail, by omega,
    h.separated.disjoint.mono_left (word_subset hd hu.min_le)⟩

end Esp32c6Fw.Picolibc
