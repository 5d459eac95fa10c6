import Mathlib.Algebra.Order.Field.Power
import Mathlib.Algebra.Order.Field.Rat
import Mathlib.Tactic.Positivity
import Mathlib.Tactic.Ring
import Mathlib.Tactic.NormNum

namespace Esp32c6Fw.Interchange

/-- The widths of the exponent and fraction fields of a binary interchange format. -/
structure Format where
  exponentBits : ℕ
  fractionBits : ℕ

namespace Format

variable (F : Format) {N : ℕ}

/-- The exponent field of infinities and NaNs. -/
def top : ℕ := 2 ^ F.exponentBits - 1

def bias : ℤ := 2 ^ (F.exponentBits - 1) - 1

def sign (u : BitVec N) : Bool := u.getLsbD (F.exponentBits + F.fractionBits)

def exponentField (u : BitVec N) : BitVec F.exponentBits :=
  u.extractLsb' F.fractionBits F.exponentBits

def exponent (u : BitVec N) : ℕ := (F.exponentField u).toNat

def fractionField (u : BitVec N) : BitVec F.fractionBits := u.extractLsb' 0 F.fractionBits

def fraction (u : BitVec N) : ℕ := (F.fractionField u).toNat

/-- The fraction with the leading bit that only the exponent field tells. -/
def significand (u : BitVec N) : ℕ :=
  if F.exponent u = 0 then F.fraction u else 2 ^ F.fractionBits + F.fraction u

/-- Subnormals share the exponent of the least normals. -/
def power (u : BitVec N) : ℤ := (max (F.exponent u) 1 : ℕ) - F.bias - F.fractionBits

def signum (u : BitVec N) : ℚ := if F.sign u then -1 else 1

/-- The rational that a finite pattern denotes. -/
def value (u : BitVec N) : ℚ := F.signum u * (F.significand u * 2 ^ F.power u)

def IsFinite (u : BitVec N) : Prop := F.exponent u ≠ F.top

def IsNormal (u : BitVec N) : Prop := F.exponent u ≠ 0 ∧ F.exponent u ≠ F.top

def IsZero (u : BitVec N) : Prop := F.exponent u = 0 ∧ F.fraction u = 0

def IsInfinite (u : BitVec N) : Prop := F.exponent u = F.top ∧ F.fraction u = 0

def IsNaN (u : BitVec N) : Prop := F.exponent u = F.top ∧ F.fraction u ≠ 0

instance (u : BitVec N) : Decidable (F.IsFinite u) := inferInstanceAs (Decidable (¬_))

instance (u : BitVec N) : Decidable (F.IsNormal u) := inferInstanceAs (Decidable (_ ∧ _))

instance (u : BitVec N) : Decidable (F.IsZero u) := inferInstanceAs (Decidable (_ ∧ _))

instance (u : BitVec N) : Decidable (F.IsInfinite u) := inferInstanceAs (Decidable (_ ∧ _))

instance (u : BitVec N) : Decidable (F.IsNaN u) := inferInstanceAs (Decidable (_ ∧ _))

def Representable (N : ℕ) (q : ℚ) : Prop := ∃ v : BitVec N, F.IsFinite v ∧ F.value v = q

/-- The order of the format's numbers, infinities included; NaNs are not ordered. -/
def Le (u v : BitVec N) : Prop :=
  ¬F.IsNaN u ∧ ¬F.IsNaN v ∧
    ((F.IsInfinite u ∧ F.sign u = true) ∨ (F.IsInfinite v ∧ F.sign v = false) ∨
      (F.IsFinite u ∧ F.IsFinite v ∧ F.value u ≤ F.value v))

def zeroOf (u : BitVec N) : BitVec N := u &&& 1#N <<< (F.exponentBits + F.fractionBits)

def infinityOf (u : BitVec N) : BitVec N :=
  F.zeroOf u ||| BitVec.ofNat N F.top <<< F.fractionBits

def withExponent (u e : BitVec N) : BitVec N :=
  u &&& ~~~(BitVec.ofNat N F.top <<< F.fractionBits) ||| e <<< F.fractionBits

variable {F} {u v : BitVec N}

theorem exponent_le_top (u : BitVec N) : F.exponent u ≤ F.top :=
  Nat.le_sub_one_of_lt (F.exponentField u).isLt

theorem fraction_lt (u : BitVec N) : F.fraction u < 2 ^ F.fractionBits :=
  (F.fractionField u).isLt

theorem eq_of_fields (hN : N = F.exponentBits + F.fractionBits + 1) (hs : F.sign u = F.sign v)
    (he : F.exponent u = F.exponent v) (hf : F.fraction u = F.fraction v) : u = v := by
  have he' : F.exponentField u = F.exponentField v := BitVec.eq_of_toNat_eq he
  have hf' : F.fractionField u = F.fractionField v := BitVec.eq_of_toNat_eq hf
  apply BitVec.eq_of_getLsbD_eq
  intro i hi
  by_cases hfrac : i < F.fractionBits
  · have hbit := congrArg (BitVec.getLsbD · i) hf'
    simpa [fractionField, hfrac] using hbit
  by_cases hexp : i < F.exponentBits + F.fractionBits
  · have hbit := congrArg (BitVec.getLsbD · (i - F.fractionBits)) he'
    have hlt : i - F.fractionBits < F.exponentBits := by omega
    have hadd : F.fractionBits + (i - F.fractionBits) = i := by omega
    simpa [exponentField, hlt, hadd] using hbit
  · have htop : i = F.exponentBits + F.fractionBits := by omega
    rw [htop]
    exact hs

section Value

theorem abs_signum (u : BitVec N) : |F.signum u| = 1 := by
  unfold signum
  split <;> simp

theorem abs_value (u : BitVec N) : |F.value u| = F.significand u * 2 ^ F.power u := by
  rw [value, abs_mul, abs_signum, one_mul, abs_of_nonneg (by positivity)]

theorem significand_eq_zero_iff : F.significand u = 0 ↔ F.IsZero u := by
  unfold significand IsZero
  split
  next h => simp [h]
  next h => simp [h]

theorem value_eq_zero_iff : F.value u = 0 ↔ F.IsZero u := by
  have hpow : (2 : ℚ) ^ F.power u ≠ 0 := zpow_ne_zero _ two_ne_zero
  rw [← significand_eq_zero_iff, ← abs_eq_zero, abs_value, mul_eq_zero, or_iff_left hpow,
    Nat.cast_eq_zero]

theorem significand_lt (u : BitVec N) : F.significand u < 2 ^ (F.fractionBits + 1) := by
  have h := fraction_lt (F := F) u
  have htwo : 2 ^ (F.fractionBits + 1) = 2 ^ F.fractionBits + 2 ^ F.fractionBits := by ring
  unfold significand
  split <;> omega

theorem le_significand (h : F.exponent u ≠ 0) : 2 ^ F.fractionBits ≤ F.significand u := by
  rw [significand, if_neg h]
  exact Nat.le_add_right _ _

/-- A finite number is below the power of two that the next exponent field would stand for. -/
theorem abs_value_lt (u : BitVec N) :
    |F.value u| < 2 ^ ((max (F.exponent u) 1 : ℕ) - F.bias + 1) := by
  have hsig : (F.significand u : ℚ) < 2 ^ ((F.fractionBits : ℤ) + 1) := by
    exact_mod_cast significand_lt u
  have hpow : (0 : ℚ) < 2 ^ F.power u := zpow_pos two_pos _
  rw [abs_value]
  calc F.significand u * (2 : ℚ) ^ F.power u
      < 2 ^ ((F.fractionBits : ℤ) + 1) * 2 ^ F.power u := mul_lt_mul_of_pos_right hsig hpow
    _ = 2 ^ ((max (F.exponent u) 1 : ℕ) - F.bias + 1) := by
      rw [← zpow_add₀ two_ne_zero, power]
      ring_nf

theorem le_abs_value (h : F.exponent u ≠ 0) : 2 ^ (F.exponent u - F.bias) ≤ |F.value u| := by
  have hsig : (2 : ℚ) ^ (F.fractionBits : ℤ) ≤ F.significand u := by
    exact_mod_cast le_significand h
  have hpow : (0 : ℚ) < 2 ^ F.power u := zpow_pos two_pos _
  have hmax : max (F.exponent u) 1 = F.exponent u := max_eq_left (Nat.pos_of_ne_zero h)
  rw [abs_value]
  calc (2 : ℚ) ^ (F.exponent u - F.bias)
      = 2 ^ (F.fractionBits : ℤ) * 2 ^ F.power u := by
        rw [← zpow_add₀ two_ne_zero, power, hmax]
        ring_nf
    _ ≤ F.significand u * 2 ^ F.power u := mul_le_mul_of_nonneg_right hsig hpow.le

theorem value_pos (hs : F.sign u = false) (h : F.exponent u ≠ 0) : 0 < F.value u := by
  have hsig := lt_of_lt_of_le (Nat.two_pow_pos _) (le_significand h)
  have hpos : (0 : ℚ) < F.significand u := by exact_mod_cast hsig
  rw [value, signum, hs, if_neg Bool.false_ne_true, one_mul]
  exact mul_pos hpos (zpow_pos two_pos _)

/-- Moving the exponent field within the normal range is a multiplication by a power of two. -/
theorem value_scale (hs : F.sign v = F.sign u) (hf : F.fraction v = F.fraction u)
    (hu : F.exponent u ≠ 0) (hv : F.exponent v ≠ 0) :
    F.value v = F.value u * 2 ^ (F.exponent v - F.exponent u : ℤ) := by
  have hsig : F.significand v = F.significand u := by
    rw [significand, significand, if_neg hu, if_neg hv, hf]
  have hpow : F.power v = F.power u + (F.exponent v - F.exponent u) := by
    have hmu : max (F.exponent u) 1 = F.exponent u := max_eq_left (Nat.pos_of_ne_zero hu)
    have hmv : max (F.exponent v) 1 = F.exponent v := max_eq_left (Nat.pos_of_ne_zero hv)
    rw [power, power, hmu, hmv]
    ring
  rw [value, value, signum, signum, hs, hsig, hpow, zpow_add₀ two_ne_zero]
  ring

/-- A normal number times a power of two that a finite pattern denotes has its exponent
below the top. -/
theorem exponent_add_lt (ht : 2 ≤ F.top) (h : F.IsNormal u) {n : ℤ}
    (hr : F.Representable N (F.value u * 2 ^ n)) : F.exponent u + n < F.top := by
  obtain ⟨v, hfin, hv⟩ := hr
  have hle : (2 : ℚ) ^ (F.exponent u - F.bias + n) ≤ |F.value v| := by
    have hpow : (0 : ℚ) < 2 ^ n := zpow_pos two_pos _
    rw [hv, abs_mul, abs_of_pos hpow, zpow_add₀ two_ne_zero]
    exact mul_le_mul_of_nonneg_right (le_abs_value h.1) hpow.le
  have hlt := (zpow_lt_zpow_iff_right₀ (one_lt_two (α := ℚ))).mp (hle.trans_lt (abs_value_lt v))
  have htop := lt_of_le_of_ne (exponent_le_top v) hfin
  omega

end Value

section Fields

theorem getElem_top {i : ℕ} (hi : i < N) :
    (BitVec.ofNat N F.top)[i] = decide (i < F.exponentBits) := by
  rw [← BitVec.getLsbD_eq_getElem, BitVec.getLsbD_ofNat]
  simp [hi, top]

theorem getLsbD_of_le_top {e : BitVec N} (he : e.toNat ≤ F.top) {i : ℕ}
    (hi : F.exponentBits ≤ i) : e.getLsbD i = false := by
  have hpos := Nat.two_pow_pos F.exponentBits
  have hpow : 2 ^ F.exponentBits ≤ 2 ^ i := Nat.pow_le_pow_right two_pos hi
  have hlt : e.toNat < 2 ^ i := by
    unfold top at he
    omega
  rw [← BitVec.testBit_toNat]
  exact Nat.testBit_lt_two_pow hlt

theorem exponentField_zeroOf (u : BitVec N) : F.exponentField (F.zeroOf u) = 0 := by
  apply BitVec.eq_of_getLsbD_eq
  intro i hi
  simp [exponentField, zeroOf, hi]
  omega

theorem fractionField_zeroOf (u : BitVec N) : F.fractionField (F.zeroOf u) = 0 := by
  apply BitVec.eq_of_getLsbD_eq
  intro i hi
  simp [fractionField, zeroOf, hi]
  omega

theorem isZero_zeroOf (u : BitVec N) : F.IsZero (F.zeroOf u) := by
  simp [IsZero, exponent, fraction, exponentField_zeroOf, fractionField_zeroOf]

variable (hN : N = F.exponentBits + F.fractionBits + 1)
include hN

theorem sign_zeroOf (u : BitVec N) : F.sign (F.zeroOf u) = F.sign u := by
  simp [sign, zeroOf, hN]

theorem sign_infinityOf (u : BitVec N) : F.sign (F.infinityOf u) = F.sign u := by
  simp [sign, infinityOf, zeroOf, hN, getElem_top]

theorem exponent_infinityOf (u : BitVec N) : F.exponent (F.infinityOf u) = F.top := by
  have hfield : F.exponentField (F.infinityOf u) = BitVec.allOnes F.exponentBits := by
    apply BitVec.eq_of_getLsbD_eq
    intro i hi
    have hlt : F.fractionBits + i < N := by omega
    simp [exponentField, infinityOf, hi, hlt, getElem_top]
  rw [exponent, hfield, BitVec.toNat_allOnes, top]

theorem fraction_infinityOf (u : BitVec N) : F.fraction (F.infinityOf u) = 0 := by
  have hfield : F.fractionField (F.infinityOf u) = 0 := by
    apply BitVec.eq_of_getLsbD_eq
    intro i hi
    simp [fractionField, infinityOf, zeroOf, hi]
    omega
  rw [fraction, hfield]
  rfl

theorem fraction_withExponent (u e : BitVec N) :
    F.fraction (F.withExponent u e) = F.fraction u := by
  apply congrArg BitVec.toNat
  apply BitVec.eq_of_getLsbD_eq
  intro i hi
  simp [fractionField, withExponent, hi]
  omega

variable {e : BitVec N} (he : e.toNat ≤ F.top)
include he

theorem sign_withExponent (u : BitVec N) : F.sign (F.withExponent u e) = F.sign u := by
  have hlt : F.exponentBits < N := by omega
  have hbit := getLsbD_of_le_top he le_rfl
  rw [BitVec.getLsbD_eq_getElem hlt] at hbit
  simp [sign, withExponent, hN, getElem_top, hbit]

theorem exponent_withExponent (u : BitVec N) : F.exponent (F.withExponent u e) = e.toNat := by
  have hfield : F.exponentField (F.withExponent u e) = e.setWidth _ := by
    apply BitVec.eq_of_getLsbD_eq
    intro i hi
    have hlt : F.fractionBits + i < N := by omega
    have hlt' : i < N := by omega
    simp [exponentField, withExponent, hi, hlt, hlt', getElem_top]
  rw [exponent, hfield, BitVec.toNat_setWidth]
  apply Nat.mod_eq_of_lt
  have hpos := Nat.two_pow_pos F.exponentBits
  unfold top at he
  omega

end Fields

section Order

theorem IsFinite.not_isNaN (h : F.IsFinite u) : ¬F.IsNaN u := fun hn ↦ h hn.1

theorem IsInfinite.not_isNaN (h : F.IsInfinite u) : ¬F.IsNaN u := fun hn ↦ hn.2 h.2

theorem le_of_value_le (hu : F.IsFinite u) (hv : F.IsFinite v) (h : F.value u ≤ F.value v) :
    F.Le u v := ⟨hu.not_isNaN, hv.not_isNaN, Or.inr (Or.inr ⟨hu, hv, h⟩)⟩

theorem le_infinite (hu : ¬F.IsNaN u) (hv : F.IsInfinite v) (hs : F.sign v = false) :
    F.Le u v := ⟨hu, hv.not_isNaN, Or.inr (Or.inl ⟨hv, hs⟩)⟩

end Order

end Format

end Esp32c6Fw.Interchange
