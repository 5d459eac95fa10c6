import Mathlib.Algebra.Group.Nat.Defs
import Mathlib.Data.List.Forall2

namespace Esp32c6Fw.Packing

variable {w : ℕ}

theorem bit_ne_zero (x : BitVec w) (i : ℕ) : x >>> i &&& 1#w ≠ 0#w ↔ x.getLsbD i = true := by
  rw [BitVec.and_one_eq_setWidth_ofBool_getLsbD, BitVec.getLsbD_ushiftRight, Nat.add_zero]
  constructor
  · intro h
    by_contra hx
    rw [Bool.not_eq_true] at hx
    rw [hx] at h
    exact h (by simp)
  · intro h h₀
    have hw := BitVec.lt_of_getLsbD h
    have hb := congrArg (·.getLsbD 0) h₀
    rw [h] at hb
    simp at hb
    omega

structure Accessor (w : ℕ) where
  shift : ℕ
  mask : BitVec w

namespace Accessor

def value (a : Accessor w) (raw : BitVec w) : BitVec w := (raw &&& a.mask) >>> a.shift

def raw (a : Accessor w) (v : BitVec w) : BitVec w := v <<< a.shift

/-- The mask covers the bits of a field of this width at the shift. -/
structure Spans (a : Accessor w) (width : ℕ) : Prop where
  le : a.shift + width ≤ w
  mask : ∀ i, a.mask.getLsbD i = true ↔ a.shift ≤ i ∧ i < a.shift + width

structure Fits (a : Accessor w) (v : BitVec w) : Prop where
  value_raw : a.value (a.raw v) = v
  raw_and : a.raw v &&& a.mask = a.raw v

end Accessor

def orAll (xs : List (BitVec w)) : BitVec w := xs.foldr (· ||| ·) 0#w

def packed (as : List (Accessor w)) (vs : List (BitVec w)) : BitVec w :=
  orAll (List.zipWith Accessor.raw as vs)

def masks (as : List (Accessor w)) : BitVec w := orAll (as.map (·.mask))

variable {a b : Accessor w} {as : List (Accessor w)} {v x y m : BitVec w} {vs : List (BitVec w)}

@[simp] theorem orAll_nil : orAll ([] : List (BitVec w)) = 0#w := rfl

@[simp] theorem orAll_cons (x : BitVec w) (xs : List (BitVec w)) :
    orAll (x :: xs) = x ||| orAll xs := rfl

theorem and_orAll (x : BitVec w) (xs : List (BitVec w)) :
    x &&& orAll xs = orAll (xs.map (x &&& ·)) := by
  induction xs with
  | nil => exact BitVec.and_zero
  | cons y xs ih => rw [orAll_cons, BitVec.and_or_distrib_left, ih, List.map_cons, orAll_cons]

theorem and_not_orAll {xs : List (BitVec w)} (h : x ∈ xs) : x &&& ~~~orAll xs = 0#w := by
  induction xs with
  | nil => cases h
  | cons y xs ih =>
    rw [orAll_cons, BitVec.not_or]
    rcases List.mem_cons.mp h with rfl | h
    · rw [← BitVec.and_assoc, BitVec.and_not_self]
      exact BitVec.zero_and
    · rw [BitVec.and_comm (~~~y), ← BitVec.and_assoc, ih h, BitVec.zero_and]

theorem not_and_of_and_eq_zero (h : x &&& y = 0#w) : ~~~x &&& y = y := by
  calc ~~~x &&& y = (x &&& y) ||| (~~~x &&& y) := by rw [h, BitVec.zero_or]
    _ = (x ||| ~~~x) &&& y := BitVec.and_or_distrib_right.symm
    _ = y := by rw [BitVec.or_not_self, BitVec.allOnes_and]

namespace Accessor

theorem value_or (a : Accessor w) (x y : BitVec w) :
    a.value (x ||| y) = a.value x ||| a.value y := by
  rw [value, BitVec.and_or_distrib_right, BitVec.ushiftRight_or_distrib]
  rfl

theorem value_eq_zero (h : x &&& a.mask = 0#w) : a.value x = 0#w := by
  rw [value, h, BitVec.zero_ushiftRight]

theorem value_or_of_and_eq_zero (h : y &&& a.mask = 0#w) : a.value (x ||| y) = a.value x := by
  rw [value_or, value_eq_zero h, BitVec.or_zero]

theorem Fits.and_eq_zero (h : a.Fits v) (hm : a.mask &&& m = 0#w) : a.raw v &&& m = 0#w := by
  rw [← h.raw_and, BitVec.and_assoc, hm, BitVec.and_zero]

namespace Spans

variable {width : ℕ}

theorem raw_value (h : a.Spans width) (x : BitVec w) : a.raw (a.value x) = x &&& a.mask := by
  apply BitVec.eq_of_getLsbD_eq
  intro i hi
  have hm := h.mask i
  simp only [raw, value, BitVec.getLsbD_shiftLeft, BitVec.getLsbD_ushiftRight, BitVec.getLsbD_and,
    hi, decide_true, Bool.true_and]
  by_cases hs : i < a.shift
  · have hf : a.mask.getLsbD i = false := Bool.eq_false_iff.mpr fun ht ↦ by
      have := hm.mp ht
      omega
    simp only [hs, hf, decide_true, Bool.not_true, Bool.false_and, Bool.and_false]
  · have hadd : a.shift + (i - a.shift) = i := by
      omega
    simp only [hs, hadd, decide_false, Bool.not_false, Bool.true_and]

theorem fits (h : a.Spans width) (hv : v.toNat < 2 ^ width) : a.Fits v := by
  have hbit (i : ℕ) (hi : width ≤ i) : v.getLsbD i = false :=
    Nat.testBit_lt_two_pow (Nat.lt_of_lt_of_le hv (Nat.pow_le_pow_right (by omega) hi))
  have hle := h.le
  constructor
  · apply BitVec.eq_of_getLsbD_eq
    intro i hi
    have hm := h.mask (a.shift + i)
    simp only [raw, value, BitVec.getLsbD_ushiftRight, BitVec.getLsbD_and, BitVec.getLsbD_shiftLeft,
      Nat.add_sub_cancel_left, Nat.not_lt.mpr (Nat.le_add_right a.shift i), decide_false,
      Bool.not_false, Bool.and_true]
    by_cases hw : i < width
    · have ht : a.mask.getLsbD (a.shift + i) = true := hm.mpr ⟨by omega, by omega⟩
      have hlt : a.shift + i < w := by
        omega
      simp only [ht, hlt, decide_true, Bool.true_and, Bool.and_true]
    · simp only [hbit i (by omega), Bool.and_false, Bool.false_and]
  · apply BitVec.eq_of_getLsbD_eq
    intro i hi
    have hm := h.mask i
    simp only [raw, BitVec.getLsbD_and, BitVec.getLsbD_shiftLeft, hi, decide_true, Bool.true_and]
    by_cases hin : a.shift ≤ i ∧ i < a.shift + width
    · rw [hm.mpr hin, Bool.and_true]
    · by_cases hs : i < a.shift
      · simp only [hs, decide_true, Bool.not_true, Bool.false_and]
      · simp only [hbit (i - a.shift) (by omega), Bool.and_false, Bool.false_and]

end Spans

end Accessor

open Accessor

theorem packed_and_eq_zero (hv : List.Forall₂ Fits as vs) (hm : ∀ a ∈ as, a.mask &&& m = 0#w) :
    packed as vs &&& m = 0#w := by
  induction hv with
  | nil => exact BitVec.zero_and
  | cons h _ ih =>
    rw [List.forall_mem_cons] at hm
    rw [packed, List.zipWith_cons_cons, orAll_cons, BitVec.and_or_distrib_right,
      h.and_eq_zero hm.1, BitVec.zero_or]
    exact ih hm.2

/-- Fields apart from each other give back the values packed into them. -/
theorem map_value_packed (hv : List.Forall₂ Fits as vs)
    (ha : as.Pairwise fun a b ↦ a.mask &&& b.mask = 0#w) :
    as.map (·.value (packed as vs)) = vs := by
  induction hv with
  | nil => rfl
  | @cons a v as vs h hv ih =>
    obtain ⟨hhead, htail⟩ := List.pairwise_cons.mp ha
    have hrest : packed as vs &&& a.mask = 0#w := packed_and_eq_zero hv fun b hb ↦ by
      rw [BitVec.and_comm]
      exact hhead b hb
    have hp : packed (a :: as) (v :: vs) = a.raw v ||| packed as vs := rfl
    rw [List.map_cons, hp, value_or_of_and_eq_zero hrest, h.value_raw]
    congr 1
    refine (List.map_congr_left fun b hb ↦ ?_).trans (ih htail)
    rw [BitVec.or_comm, value_or_of_and_eq_zero (h.and_eq_zero (hhead b hb))]

/-- Packing what was unpacked keeps the bits of the fields and drops the others. -/
theorem packed_map_value (h : ∀ a ∈ as, ∃ width, a.Spans width) (x : BitVec w) :
    packed as (as.map (·.value x)) = x &&& masks as := by
  rw [masks, and_orAll, packed, List.zipWith_map_right, List.zipWith_self, List.map_map]
  congr 1
  apply List.map_congr_left
  intro a ha
  obtain ⟨width, hw⟩ := h a ha
  exact hw.raw_value x

def updated (a : Accessor w) (x v : BitVec w) : BitVec w := (x &&& ~~~a.mask) ||| a.raw v

theorem value_updated_self (h : a.Fits v) (x : BitVec w) : a.value (updated a x v) = v := by
  have hz : (x &&& ~~~a.mask) &&& a.mask = 0#w := by
    rw [BitVec.and_assoc, BitVec.and_comm (~~~a.mask), BitVec.and_not_self]
    exact BitVec.and_zero
  rw [updated, BitVec.or_comm, value_or_of_and_eq_zero hz, h.value_raw]

theorem value_updated_of_apart (h : a.Fits v) (hab : a.mask &&& b.mask = 0#w) (x : BitVec w) :
    b.value (updated a x v) = b.value x := by
  rw [updated, value_or_of_and_eq_zero (h.and_eq_zero hab), value, BitVec.and_assoc,
    not_and_of_and_eq_zero hab]
  rfl

theorem updated_and_not_masks (h : a.Fits v) (ha : a ∈ as) (x : BitVec w) :
    updated a x v &&& ~~~masks as = x &&& ~~~masks as := by
  have hm : a.mask &&& ~~~masks as = 0#w := and_not_orAll (List.mem_map_of_mem ha)
  rw [updated, BitVec.and_or_distrib_right, h.and_eq_zero hm, BitVec.or_zero, BitVec.and_assoc,
    not_and_of_and_eq_zero hm]

end Esp32c6Fw.Packing
