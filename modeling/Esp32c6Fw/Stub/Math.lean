import Esp32c6Fw.Lib.Interchange

namespace Esp32c6Fw.Stub

open Interchange

/-- A double, as the `u` of the union reads it. -/
abbrev Double := BitVec 64

/-- An `int`; its arithmetic is taken modulo `2 ^ 32`. -/
abbrev CInt := BitVec 32

def binary64 : Format := ⟨11, 52⟩

/-- The `e` both functions start from. -/
def biasedExponent (u : Double) : CInt := ((u >>> 52) &&& 0x7ff#64).setWidth 32

def ldexp (x : Double) (n : CInt) : Double :=
  let e := biasedExponent x
  if e = 0 ∨ e = 0x7ff then x
  else
    let e := e + n
    if 0x7ff ≤ e.toInt then x &&& 1#64 <<< 63 ||| 0x7ff#64 <<< 52
    else if e.toInt ≤ 0 then x &&& 1#64 <<< 63
    else x &&& ~~~(0x7ff#64 <<< 52) ||| e.signExtend 64 <<< 52

/-- The mantissa, and what is stored through `ep`. -/
def frexp (x : Double) : Double × CInt :=
  let e := biasedExponent x
  if e = 0 ∨ e = 0x7ff then (x, 0)
  else (x &&& ~~~(0x7ff#64 <<< 52) ||| 1022#64 <<< 52, e - 1022)

variable {x : Double} {n : CInt}

theorem width : 64 = binary64.exponentBits + binary64.fractionBits + 1 := rfl

theorem toNat_biasedExponent (x : Double) : (biasedExponent x).toNat = binary64.exponent x := by
  have hmask : x.toNat >>> 52 &&& 0x7ff = x.toNat >>> 52 % 2 ^ 11 :=
    Nat.and_two_pow_sub_one_eq_mod _ 11
  have hlt : x.toNat >>> 52 % 2 ^ 11 < 2 ^ 32 := by omega
  calc (biasedExponent x).toNat
      = (x.toNat >>> 52 &&& 0x7ff) % 2 ^ 32 := by
        rw [biasedExponent, BitVec.toNat_setWidth, BitVec.toNat_and, BitVec.toNat_ushiftRight]
        rfl
    _ = x.toNat >>> 52 % 2 ^ 11 := by rw [hmask, Nat.mod_eq_of_lt hlt]
    _ = binary64.exponent x := by
      rw [Format.exponent, Format.exponentField, BitVec.extractLsb'_toNat]
      rfl

theorem toInt_biasedExponent (x : Double) : (biasedExponent x).toInt = binary64.exponent x := by
  have hle := Format.exponent_le_top (F := binary64) x
  have htop : binary64.top = 2047 := rfl
  rw [BitVec.toInt_eq_toNat_of_lt, toNat_biasedExponent]
  rw [toNat_biasedExponent]
  omega

theorem special_iff :
    biasedExponent x = 0 ∨ biasedExponent x = 0x7ff ↔ ¬binary64.IsNormal x := by
  have hzero : biasedExponent x = 0 ↔ binary64.exponent x = 0 := by
    rw [← toNat_biasedExponent, ← BitVec.toNat_inj]
    rfl
  have htop : biasedExponent x = 0x7ff ↔ binary64.exponent x = binary64.top := by
    rw [← toNat_biasedExponent, ← BitVec.toNat_inj]
    rfl
  rw [hzero, htop, Format.IsNormal]
  tauto

theorem ldexp_special (h : ¬binary64.IsNormal x) : ldexp x n = x := if_pos (special_iff.mpr h)

theorem ldexp_overflow (h : binary64.IsNormal x) (hn : 0x7ff ≤ (biasedExponent x + n).toInt) :
    ldexp x n = binary64.infinityOf x := by
  rw [ldexp, if_neg (special_iff.not_left.mpr h), if_pos hn]
  rfl

theorem ldexp_underflow (h : binary64.IsNormal x) (hn : (biasedExponent x + n).toInt ≤ 0) :
    ldexp x n = binary64.zeroOf x := by
  rw [ldexp, if_neg (special_iff.not_left.mpr h), if_neg (by omega), if_pos hn]
  rfl

def NoOverflow (e n : CInt) : Prop := e.toInt + n.toInt < 2 ^ 31 ∧ -2 ^ 31 ≤ e.toInt + n.toInt

/-- A biased exponent is not negative, so the sum can only be too large, and then it is
negative modulo `2 ^ 32`. -/
theorem toInt_sum (x : Double) (n : CInt) :
    (binary64.exponent x + n.toInt < 2 ^ 31 ∧
        (biasedExponent x + n).toInt = binary64.exponent x + n.toInt) ∨
      (2 ^ 31 ≤ binary64.exponent x + n.toInt ∧ (biasedExponent x + n).toInt < 0) := by
  have hle := Format.exponent_le_top (F := binary64) x
  have htop : binary64.top = 2047 := rfl
  have hlt := BitVec.toInt_lt (x := n)
  have hge := BitVec.le_toInt n
  rw [BitVec.toInt_add, toInt_biasedExponent, Int.bmod_def]
  omega

theorem noOverflow_iff (x : Double) (n : CInt) :
    NoOverflow (biasedExponent x) n ↔ binary64.exponent x + n.toInt < 2 ^ 31 := by
  have hge := BitVec.le_toInt n
  rw [NoOverflow, toInt_biasedExponent]
  omega

theorem toNat_signExtend {e : CInt} (h : 0 ≤ e.toInt) :
    ((e.signExtend 64).toNat : ℤ) = e.toInt := by
  have hmsb : e.msb = false := by
    rw [BitVec.msb_eq_toInt]
    exact decide_eq_false (not_lt.mpr h)
  rw [BitVec.signExtend_eq_setWidth_of_msb_false hmsb, BitVec.toNat_setWidth,
    Nat.mod_eq_of_lt (by omega), BitVec.toInt_eq_toNat_of_msb hmsb]

/-- Within the normal range only the exponent field moves, by `n`. -/
theorem ldexp_inside (h : binary64.IsNormal x) (hpos : 1 ≤ binary64.exponent x + n.toInt)
    (hlt : binary64.exponent x + n.toInt < 0x7ff) :
    binary64.sign (ldexp x n) = binary64.sign x ∧
      binary64.fraction (ldexp x n) = binary64.fraction x ∧
      (binary64.exponent (ldexp x n) : ℤ) = binary64.exponent x + n.toInt := by
  have hsum : (biasedExponent x + n).toInt = binary64.exponent x + n.toInt := by
    have := toInt_sum x n
    omega
  have he := toNat_signExtend (e := biasedExponent x + n) (by omega)
  have htop : ((biasedExponent x + n).signExtend 64).toNat ≤ binary64.top := by
    have : binary64.top = 2047 := rfl
    omega
  have hrun : ldexp x n =
      binary64.withExponent x ((biasedExponent x + n).signExtend 64) := by
    rw [ldexp, if_neg (special_iff.not_left.mpr h), if_neg (by omega), if_neg (by omega)]
    rfl
  have hexp := Format.exponent_withExponent width htop x
  rw [hrun]
  exact ⟨Format.sign_withExponent width htop x, Format.fraction_withExponent width x _, by omega⟩

theorem value_ldexp (h : binary64.IsNormal x) (hpos : 1 ≤ binary64.exponent x + n.toInt)
    (hlt : binary64.exponent x + n.toInt < 0x7ff) :
    binary64.value (ldexp x n) = binary64.value x * 2 ^ n.toInt := by
  obtain ⟨hs, hf, he⟩ := ldexp_inside h hpos hlt
  have hne : binary64.exponent (ldexp x n) ≠ 0 := by omega
  rw [Format.value_scale hs hf h.1 hne, he, add_sub_cancel_left]

/-- What a result of `ldexp` that loses nothing is: the number `x * 2 ^ n`, with the sign
of `x` also when it is zero. -/
def ScalesExactly (x : Double) (n : CInt) : Prop :=
  binary64.IsFinite (ldexp x n) ∧ binary64.sign (ldexp x n) = binary64.sign x ∧
    binary64.value (ldexp x n) = binary64.value x * 2 ^ n.toInt

theorem scalesExactly_of_same (hx : binary64.IsFinite x) (h : ldexp x n = x)
    (hv : binary64.value x = binary64.value x * 2 ^ n.toInt) : ScalesExactly x n := by
  rw [ScalesExactly, h]
  exact ⟨hx, rfl, hv⟩

theorem ldexp_zero (x : Double) : ldexp x 0 = x := by
  by_cases h : binary64.IsNormal x
  · have hlt := lt_of_le_of_ne (Format.exponent_le_top x) h.2
    have htop : binary64.top = 2047 := rfl
    have hzero : (0 : CInt).toInt = 0 := rfl
    have hpos := Nat.pos_of_ne_zero h.1
    obtain ⟨hs, hf, he⟩ := ldexp_inside (n := 0) h (by omega) (by omega)
    exact Format.eq_of_fields width hs (by omega) hf
  · exact ldexp_special h

theorem two_zpow_eq_one_iff (n : CInt) : (2 : ℚ) ^ n.toInt = 1 ↔ n = 0 := by
  rw [zpow_eq_one_iff_right₀ two_pos.le (by norm_num)]
  exact BitVec.toInt_inj (y := 0)

/-- A subnormal number is returned as it is, and a normal one whose scaled exponent leaves the
normal range downwards becomes zero. -/
theorem scalesExactly_iff (hx : binary64.IsFinite x)
    (hr : binary64.Representable 64 (binary64.value x * 2 ^ n.toInt)) :
    ScalesExactly x n ↔ binary64.IsZero x ∨ n = 0 ∨
      (1 ≤ binary64.exponent x ∧ 1 ≤ binary64.exponent x + n.toInt) := by
  constructor
  · rintro ⟨-, -, hv⟩
    by_cases hzero : binary64.IsZero x
    · exact Or.inl hzero
    have hne : binary64.value x ≠ 0 := Format.value_eq_zero_iff.not.mpr hzero
    right
    by_cases h : binary64.IsNormal x
    · right
      refine ⟨Nat.one_le_iff_ne_zero.mpr h.1, ?_⟩
      by_contra hlow
      have hsum := toInt_sum x n
      rw [ldexp_underflow h (by omega), Format.value_eq_zero_iff.mpr (Format.isZero_zeroOf x)] at hv
      exact mul_ne_zero hne (zpow_ne_zero _ two_ne_zero) hv.symm
    · left
      rw [ldexp_special h] at hv
      rw [← two_zpow_eq_one_iff]
      exact mul_left_cancel₀ hne (hv.symm.trans (mul_one _).symm)
  · rintro (hzero | rfl | ⟨hone, hpos⟩)
    · have h : ¬binary64.IsNormal x := fun h ↦ h.1 hzero.1
      apply scalesExactly_of_same hx (ldexp_special h)
      rw [Format.value_eq_zero_iff.mpr hzero, zero_mul]
    · apply scalesExactly_of_same hx (ldexp_zero x)
      exact (mul_one _).symm
    · have h : binary64.IsNormal x := ⟨Nat.one_le_iff_ne_zero.mp hone, hx⟩
      have htop : binary64.top = 2047 := rfl
      have hlt := Format.exponent_add_lt (by omega) h hr
      obtain ⟨hs, hf, he⟩ := ldexp_inside h hpos (by omega)
      refine ⟨?_, hs, value_ldexp h hpos (by omega)⟩
      rw [Format.IsFinite]
      omega

theorem scalesExactly_iff_pi :
    ScalesExactly 0x400921FB54442D18#64 1022#32 ↔
      binary64.IsZero 0x400921FB54442D18#64 ∨ 1022#32 = 0 ∨
        (1 ≤ binary64.exponent 0x400921FB54442D18#64 ∧
          1 ≤ binary64.exponent 0x400921FB54442D18#64 + (1022#32).toInt) := by
  have hfin : binary64.IsFinite 0x400921FB54442D18#64 := by decide
  apply scalesExactly_iff hfin
  refine ⟨0x7FE921FB54442D18#64, by decide, ?_⟩
  exact Format.value_scale (v := 0x7FE921FB54442D18#64) rfl rfl (by decide) (by decide)

/-- Twice the least subnormal is the next one, but `ldexp` returns the least. -/
theorem ldexp_least_subnormal :
    binary64.IsFinite 1#64 ∧ binary64.Representable 64 (binary64.value 1#64 * 2 ^ (1#32).toInt) ∧
      ldexp 1#64 1#32 = 1#64 ∧ ¬ScalesExactly 1#64 1#32 := by
  have hsame : ldexp 1#64 1#32 = 1#64 := by decide
  have hne : binary64.value 1#64 ≠ 0 := Format.value_eq_zero_iff.not.mpr (by decide)
  refine ⟨by decide, ⟨2#64, by decide, ?_⟩, hsame, ?_⟩
  · have hone : binary64.significand 1#64 = 1 := by decide
    have htwo : binary64.significand 2#64 = 2 := by decide
    have hpow : binary64.power 2#64 = binary64.power 1#64 := rfl
    have hsign : binary64.signum 2#64 = binary64.signum 1#64 := rfl
    have hn : (1#32).toInt = 1 := rfl
    rw [Format.value, Format.value, hone, htwo, hpow, hsign, hn, zpow_one]
    push_cast
    ring
  · rintro ⟨-, -, hv⟩
    rw [hsame] at hv
    have hone : (2 : ℚ) ^ (1#32).toInt = 1 :=
      mul_left_cancel₀ hne (hv.symm.trans (mul_one _).symm)
    exact absurd ((two_zpow_eq_one_iff _).mp hone) (by decide)

section Order

theorem ldexp_high (hs : binary64.sign x = false) (h : binary64.IsNormal x)
    (hn : 0x7ff ≤ binary64.exponent x + n.toInt) (hlt : binary64.exponent x + n.toInt < 2 ^ 31) :
    ldexp x n = 0x7FF0000000000000#64 := by
  have hsum := toInt_sum x n
  rw [ldexp_overflow h (by omega)]
  apply Format.eq_of_fields width
  · exact (Format.sign_infinityOf width x).trans hs
  · exact Format.exponent_infinityOf width x
  · exact Format.fraction_infinityOf width x

theorem ldexp_low (hs : binary64.sign x = false) (h : binary64.IsNormal x)
    (hn : binary64.exponent x + n.toInt ≤ 0 ∨ 2 ^ 31 ≤ binary64.exponent x + n.toInt) :
    ldexp x n = 0#64 := by
  have hsum := toInt_sum x n
  rw [ldexp_underflow h (by omega)]
  apply Format.eq_of_fields width
  · exact (Format.sign_zeroOf width x).trans hs
  · exact (Format.isZero_zeroOf x).1
  · exact (Format.isZero_zeroOf x).2

theorem isFinite_inside (h : binary64.IsNormal x) (hpos : 1 ≤ binary64.exponent x + n.toInt)
    (hlt : binary64.exponent x + n.toInt < 0x7ff) : binary64.IsFinite (ldexp x n) := by
  have he := (ldexp_inside h hpos hlt).2.2
  have htop : binary64.top = 2047 := rfl
  rw [Format.IsFinite]
  omega

theorem ldexp_le {n₁ n₂ : CInt} (hs : binary64.sign x = false) (h : binary64.IsNormal x)
    (hle : n₁.toInt ≤ n₂.toInt) (hlt : binary64.exponent x + n₂.toInt < 2 ^ 31) :
    binary64.Le (ldexp x n₁) (ldexp x n₂) := by
  have hvalue := Format.value_pos hs h.1
  have hzero : binary64.value 0#64 = 0 := Format.value_eq_zero_iff.mpr (by decide)
  have hfin : binary64.IsFinite 0#64 := by decide
  by_cases hhigh : 0x7ff ≤ binary64.exponent x + n₂.toInt
  · rw [ldexp_high hs h hhigh hlt]
    apply Format.le_infinite _ (by decide) rfl
    by_cases hhigh₁ : 0x7ff ≤ binary64.exponent x + n₁.toInt
    · rw [ldexp_high hs h hhigh₁ (by omega)]
      decide
    by_cases hlow₁ : binary64.exponent x + n₁.toInt ≤ 0
    · rw [ldexp_low hs h (Or.inl hlow₁)]
      decide
    · exact (isFinite_inside h (by omega) (by omega)).not_isNaN
  by_cases hlow₁ : binary64.exponent x + n₁.toInt ≤ 0
  · rw [ldexp_low hs h (Or.inl hlow₁)]
    by_cases hlow : binary64.exponent x + n₂.toInt ≤ 0
    · rw [ldexp_low hs h (Or.inl hlow)]
      exact Format.le_of_value_le hfin hfin le_rfl
    · apply Format.le_of_value_le hfin (isFinite_inside h (by omega) (by omega))
      rw [hzero, value_ldexp h (by omega) (by omega)]
      exact (mul_pos hvalue (zpow_pos two_pos _)).le
  · apply Format.le_of_value_le (isFinite_inside h (by omega) (by omega))
      (isFinite_inside h (by omega) (by omega))
    rw [value_ldexp h (by omega) (by omega), value_ldexp h (by omega) (by omega)]
    exact mul_le_mul_of_nonneg_left (zpow_le_zpow_right₀ one_le_two hle) hvalue.le

theorem ldexp_monotone_iff (hs : binary64.sign x = false) (h : binary64.IsNormal x) :
    (∀ n₁ n₂ : CInt, n₁.toInt ≤ n₂.toInt →
        (NoOverflow (biasedExponent x) n₁ ∧ NoOverflow (biasedExponent x) n₂ ∧
            binary64.Le (ldexp x n₁) (ldexp x n₂) ↔
          binary64.exponent x + n₂.toInt < 2 ^ 31)) ∧
      (∀ n : CInt, 0x7ff ≤ binary64.exponent x + n.toInt →
        (ldexp x n = 0x7FF0000000000000#64 ↔ binary64.exponent x + n.toInt < 2 ^ 31)) ∧
      ∀ n : CInt, binary64.exponent x + n.toInt ≤ 0 → ldexp x n = 0#64 := by
  refine ⟨fun n₁ n₂ hle ↦ ⟨fun hp ↦ (noOverflow_iff x n₂).mp hp.2.1, fun hlt ↦ ?_⟩,
    fun n hn ↦ ⟨fun hinf ↦ ?_, ldexp_high hs h hn⟩, fun n hn ↦ ldexp_low hs h (Or.inl hn)⟩
  · exact ⟨(noOverflow_iff x n₁).mpr (by omega), (noOverflow_iff x n₂).mpr hlt,
      ldexp_le hs h hle hlt⟩
  · by_contra hwrap
    rw [ldexp_low hs h (Or.inr (by omega))] at hinf
    exact absurd hinf (by decide)

theorem ldexp_monotone_iff_one :
    (∀ n₁ n₂ : CInt, n₁.toInt ≤ n₂.toInt →
        (NoOverflow (biasedExponent 0x3FF0000000000000#64) n₁ ∧
            NoOverflow (biasedExponent 0x3FF0000000000000#64) n₂ ∧
            binary64.Le (ldexp 0x3FF0000000000000#64 n₁) (ldexp 0x3FF0000000000000#64 n₂) ↔
          binary64.exponent 0x3FF0000000000000#64 + n₂.toInt < 2 ^ 31)) ∧
      (∀ n : CInt, 0x7ff ≤ binary64.exponent 0x3FF0000000000000#64 + n.toInt →
        (ldexp 0x3FF0000000000000#64 n = 0x7FF0000000000000#64 ↔
          binary64.exponent 0x3FF0000000000000#64 + n.toInt < 2 ^ 31)) ∧
      ∀ n : CInt, binary64.exponent 0x3FF0000000000000#64 + n.toInt ≤ 0 →
        ldexp 0x3FF0000000000000#64 n = 0#64 :=
  ldexp_monotone_iff rfl (by decide)

/-- One times two to the power of the greatest `int` is zero, less than one. -/
theorem ldexp_one_int_max :
    binary64.IsNormal 0x3FF0000000000000#64 ∧ (0#32).toInt ≤ (0x7FFFFFFF#32).toInt ∧
      ¬NoOverflow (biasedExponent 0x3FF0000000000000#64) 0x7FFFFFFF#32 ∧
      ldexp 0x3FF0000000000000#64 0x7FFFFFFF#32 = 0#64 ∧
      ¬binary64.Le (ldexp 0x3FF0000000000000#64 0#32)
        (ldexp 0x3FF0000000000000#64 0x7FFFFFFF#32) := by
  have hzero : ldexp 0x3FF0000000000000#64 0x7FFFFFFF#32 = 0#64 := by decide
  have hsame : ldexp 0x3FF0000000000000#64 0#32 = 0x3FF0000000000000#64 := by decide
  have hovf : ¬NoOverflow (biasedExponent 0x3FF0000000000000#64) 0x7FFFFFFF#32 := by
    rw [noOverflow_iff]
    decide
  refine ⟨by decide, by decide, hovf, hzero, ?_⟩
  rw [hzero, hsame]
  intro hle
  obtain ⟨hinf, -⟩ | ⟨hinf, -⟩ | ⟨-, -, hv⟩ := hle.2.2
  · exact absurd hinf (by decide)
  · exact absurd hinf (by decide)
  · have hpos : 0 < binary64.value 0x3FF0000000000000#64 := Format.value_pos rfl (by decide)
    have hvalue : binary64.value 0#64 = 0 := Format.value_eq_zero_iff.mpr (by decide)
    exact absurd hpos (not_lt.mpr (hv.trans hvalue.le))

end Order

section Frexp

theorem frexp_special (h : ¬binary64.IsNormal x) : frexp x = (x, 0) :=
  if_pos (special_iff.mpr h)

/-- A normal number's mantissa has the exponent field of the binade from one half on. -/
theorem frexp_normal (h : binary64.IsNormal x) :
    binary64.sign (frexp x).1 = binary64.sign x ∧
      binary64.fraction (frexp x).1 = binary64.fraction x ∧
      binary64.exponent (frexp x).1 = 1022 ∧
      (frexp x).2.toInt = binary64.exponent x - 1022 := by
  have hle := Format.exponent_le_top (F := binary64) x
  have htop : binary64.top = 2047 := rfl
  have hrun : frexp x = (binary64.withExponent x 1022#64, biasedExponent x - 1022) := by
    rw [frexp, if_neg (special_iff.not_left.mpr h)]
    rfl
  have hfit : (1022#64).toNat ≤ binary64.top := by decide
  have hn : (1022 : CInt).toInt = 1022 := rfl
  rw [hrun]
  refine ⟨Format.sign_withExponent width hfit x, Format.fraction_withExponent width x _,
    Format.exponent_withExponent width hfit x, ?_⟩
  rw [BitVec.toInt_sub, toInt_biasedExponent, hn, Int.bmod_def]
  omega

theorem abs_value_lt_half (h : binary64.exponent x = 0) : |binary64.value x| < 1 / 2 := by
  have hbias : binary64.bias = 1023 := rfl
  have hlt := Format.abs_value_lt (F := binary64) x
  rw [h, hbias] at hlt
  calc |binary64.value x| < 2 ^ (((max 0 1 : ℕ) : ℤ) - 1023 + 1) := hlt
    _ ≤ 2 ^ (-1 : ℤ) := zpow_le_zpow_right₀ one_le_two (by norm_num)
    _ = 1 / 2 := by norm_num

def SplitsExactly (x : Double) : Prop :=
  binary64.IsFinite (frexp x).1 ∧ binary64.sign (frexp x).1 = binary64.sign x ∧
    1 / 2 ≤ |binary64.value (frexp x).1| ∧ |binary64.value (frexp x).1| < 1 ∧
    binary64.value (frexp x).1 * 2 ^ (frexp x).2.toInt = binary64.value x

/-- The mantissa of a subnormal number is the number itself, which is below one half. -/
theorem splitsExactly_iff (hx : binary64.IsFinite x) :
    SplitsExactly x ↔ binary64.IsNormal x := by
  have hbias : binary64.bias = 1023 := rfl
  constructor
  · intro hp
    by_contra h
    have hsub : binary64.exponent x = 0 := by
      by_contra he
      exact h ⟨he, hx⟩
    have hhalf := hp.2.2.1
    rw [frexp_special h] at hhalf
    exact absurd (abs_value_lt_half hsub) (not_lt.mpr hhalf)
  · intro h
    obtain ⟨hs, hf, he, hn⟩ := frexp_normal h
    have hne : binary64.exponent (frexp x).1 ≠ 0 := by omega
    have hlow := Format.le_abs_value hne
    have hhigh := Format.abs_value_lt (F := binary64) (frexp x).1
    have hhalf : (2 : ℚ) ^ (((1022 : ℕ) : ℤ) - 1023) = 1 / 2 := by norm_num
    have hone : (2 : ℚ) ^ (((max 1022 1 : ℕ) : ℤ) - 1023 + 1) = 1 := by norm_num
    rw [he, hbias, hhalf] at hlow
    rw [he, hbias, hone] at hhigh
    refine ⟨?_, hs, hlow, hhigh, ?_⟩
    · rw [Format.IsFinite, he]
      decide
    · rw [Format.value_scale hs hf h.1 hne, he, hn, mul_assoc, ← zpow_add₀ two_ne_zero]
      norm_num

theorem splitsExactly_iff_pi :
    SplitsExactly 0x400921FB54442D18#64 ↔ binary64.IsNormal 0x400921FB54442D18#64 :=
  splitsExactly_iff (by decide)

theorem frexp_least_subnormal :
    binary64.IsFinite 1#64 ∧ binary64.value 1#64 ≠ 0 ∧ frexp 1#64 = (1#64, 0#32) ∧
      ¬SplitsExactly 1#64 := by
  have hsame : frexp 1#64 = (1#64, 0#32) := by decide
  refine ⟨by decide, Format.value_eq_zero_iff.not.mpr (by decide), hsame, ?_⟩
  intro hp
  have hhalf := hp.2.2.1
  rw [hsame] at hhalf
  exact absurd (abs_value_lt_half rfl) (not_lt.mpr hhalf)

/-- `ldexp` puts back the exponent field that `frexp` took out; on zeros, subnormals,
infinities and NaNs both return their argument. -/
theorem ldexp_frexp (x : Double) :
    ldexp (frexp x).1 (frexp x).2 = x ∧
      (binary64.IsNormal x →
        NoOverflow (biasedExponent (frexp x).1) (frexp x).2 ∧
          1 ≤ (biasedExponent (frexp x).1 + (frexp x).2).toInt ∧
          (biasedExponent (frexp x).1 + (frexp x).2).toInt ≤ 2046) := by
  by_cases h : binary64.IsNormal x
  · obtain ⟨hs, hf, he, hn⟩ := frexp_normal h
    have hlt := lt_of_le_of_ne (Format.exponent_le_top x) h.2
    have hpos := Nat.pos_of_ne_zero h.1
    have htop : binary64.top = 2047 := rfl
    have hm : binary64.IsNormal (frexp x).1 := by
      rw [Format.IsNormal, he]
      decide
    obtain ⟨hs', hf', he'⟩ := ldexp_inside (n := (frexp x).2) hm (by omega) (by omega)
    have hsum := toInt_sum (frexp x).1 (frexp x).2
    refine ⟨Format.eq_of_fields width (hs'.trans hs) (by omega) (hf'.trans hf), fun _ ↦ ?_⟩
    rw [noOverflow_iff]
    omega
  · rw [frexp_special h]
    exact ⟨ldexp_zero x, fun hnormal ↦ absurd hnormal h⟩

end Frexp

end Esp32c6Fw.Stub
