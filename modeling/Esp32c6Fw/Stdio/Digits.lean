import Esp32c6Fw.Stdio.Vfprintf
import Mathlib.Data.Nat.Digits.Lemmas

namespace Esp32c6Fw.Stdio

open Formatted Output Soc

/-- The base as `vfprintf_int.c` hands it to `__ultoa_invert`, 48 for 16 in upper case letters. -/
def baseWord : Base → Word
  | .decimal => 10
  | .octal => 8
  | .hex upper => if upper then 48 else 16

theorem one_lt_radix (base : Base) : 1 < base.radix := by
  cases base with
  | hex upper => exact (by decide : 1 < 16)
  | _ => decide

theorem toNat_baseWord (base : Base) :
    ((baseWord base &&& 31).setWidth 64).toNat = base.radix := by
  cases base with
  | hex upper => cases upper <;> rfl
  | _ => rfl

theorem digit_eq {base : Base} {d : ℕ} (h : d < base.radix) {hex : Byte}
    (hhex : hex = chr 'a' - chr '0' - 10 + 16 - (baseWord base).setWidth 8) :
    (if 9 < BitVec.ofNat 8 d then BitVec.ofNat 8 d + hex else BitVec.ofNat 8 d) + chr '0' =
      base.digit d := by
  subst hhex
  cases base with
  | decimal =>
    revert d
    decide
  | octal =>
    revert d
    decide
  | hex upper =>
    revert d
    cases upper <;> decide

def digitBuffer (base : Base) (n : ℕ) : List Byte :=
  if n = 0 then [chr '0'] else (Nat.digits base.radix n).map base.digit

theorem digitBuffer_of_lt {base : Base} {n : ℕ} (h : n < base.radix) :
    digitBuffer base n = [base.digit n] := by
  rw [digitBuffer]
  split
  next hn =>
    rw [hn]
    rfl
  next hn =>
    rw [Nat.digits_of_lt _ _ hn h, List.map_singleton]

theorem digitBuffer_of_le {base : Base} {n : ℕ} (h : base.radix ≤ n) :
    digitBuffer base n = base.digit (n % base.radix) :: digitBuffer base (n / base.radix) := by
  have hr := one_lt_radix base
  have hq : 0 < n / base.radix := Nat.div_pos h (by omega)
  rw [digitBuffer, digitBuffer, if_neg (by omega), if_neg (by omega),
    Nat.digits_def' hr (by omega), List.map_cons]

section Loop

variable {base : Base} {room : ℕ} {val : BitVec 64} {hex : Byte}
  (hhex : hex = chr 'a' - chr '0' - 10 + 16 - (baseWord base).setWidth 8)

include hhex

theorem ultoaLoop_succ :
    ultoaLoop ((baseWord base &&& 31).setWidth 64) hex (room + 1) val =
      if val.toNat < base.radix then .ret [base.digit (val.toNat % base.radix)]
      else ultoaLoop ((baseWord base &&& 31).setWidth 64) hex room
        (val / (baseWord base &&& 31).setWidth 64) >>= fun buf ↦
          .ret (base.digit (val.toNat % base.radix) :: buf) := by
  have hr := one_lt_radix base
  have hv : (val % (baseWord base &&& 31).setWidth 64).setWidth 8 =
      BitVec.ofNat 8 (val.toNat % base.radix) := by
    apply BitVec.eq_of_toNat_eq
    rw [BitVec.toNat_setWidth, BitVec.toNat_umod, toNat_baseWord, BitVec.toNat_ofNat]
  have hq : val / (baseWord base &&& 31).setWidth 64 = 0 ↔ val.toNat < base.radix := by
    rw [← BitVec.toNat_inj, BitVec.toNat_udiv, toNat_baseWord]
    exact Nat.div_eq_zero_iff_lt (by omega)
  rw [ultoaLoop, hv, digit_eq (Nat.mod_lt _ (by omega)) hhex]
  simp only [hq]
  rfl

theorem ultoaLoop_eq (h : val.toNat < base.radix ^ (room + 1)) :
    ultoaLoop ((baseWord base &&& 31).setWidth 64) hex (room + 1) val =
      .ret (digitBuffer base val.toNat) := by
  induction room generalizing val with
  | zero =>
    rw [zero_add, pow_one] at h
    rw [ultoaLoop_succ hhex, if_pos h, digitBuffer_of_lt h, Nat.mod_eq_of_lt h]
  | succ room ih =>
    rw [ultoaLoop_succ hhex]
    split
    next hlt => rw [digitBuffer_of_lt hlt, Nat.mod_eq_of_lt hlt]
    next hle =>
      have hq : (val / (baseWord base &&& 31).setWidth 64).toNat = val.toNat / base.radix := by
        rw [BitVec.toNat_udiv, toNat_baseWord]
      have hlt : (val / (baseWord base &&& 31).setWidth 64).toNat < base.radix ^ (room + 1) := by
        rw [hq]
        exact Nat.div_lt_of_lt_mul (by rwa [← pow_succ'])
      rw [ih hlt, hq, digitBuffer_of_le (not_lt.mp hle)]
      rfl

end Loop

theorem ultoaInvert_eq (base : Base) (val : BitVec 64) :
    ultoaInvert val (baseWord base) = .ret (digitBuffer base val.toNat) := by
  have hroom : 2 ^ 64 ≤ base.radix ^ 22 := by
    cases base with
    | hex upper => exact (by decide : 2 ^ 64 ≤ 16 ^ 22)
    | _ => decide
  exact ultoaLoop_eq rfl (val.isLt.trans_le hroom)

/-- What `vfprintf_int.c` takes as the digits of a number, last one first. -/
def bufferOf (base : Base) (precision : Option ℕ) (n : ℕ) : List Byte :=
  if n = 0 ∧ precision = some 0 then [] else digitBuffer base n

theorem length_digitBuffer_pos (base : Base) (n : ℕ) : 0 < (digitBuffer base n).length := by
  rw [digitBuffer]
  split
  next => exact Nat.one_pos
  next hn =>
    rw [List.length_map]
    exact List.length_pos_of_ne_nil (Nat.digits_ne_nil_iff_ne_zero.mpr hn)

theorem reverse_bufferOf {base : Base} {precision : Option ℕ} {n : ℕ} (hn : n ≠ 0) :
    (bufferOf base precision n).reverse = base.digits n := by
  rw [bufferOf, if_neg (fun h ↦ hn h.1), digitBuffer, if_neg hn, ← List.map_reverse, Base.digits]

theorem length_bufferOf {base : Base} {precision : Option ℕ} {n : ℕ} (hn : n ≠ 0) :
    (bufferOf base precision n).length = (base.digits n).length := by
  rw [← @reverse_bufferOf base precision n hn, List.length_reverse]

theorem zeros_bufferOf (f : Field) (base : Base) (n : ℕ) :
    List.replicate (f.precision.getD 0 - (bufferOf base f.precision n).length) (chr '0') ++
      (bufferOf base f.precision n).reverse = f.atLeast (base.digits n) := by
  rw [Field.atLeast]
  by_cases hn : n = 0
  · have hd : base.digits n = [] := by
      rw [hn, Base.digits, Nat.digits_zero]
      rfl
    rw [hd, bufferOf, digitBuffer, if_pos hn]
    match f.precision with
    | none =>
      rw [if_neg (by simp)]
      rfl
    | some 0 =>
      rw [if_pos ⟨hn, rfl⟩]
      rfl
    | some (p + 1) =>
      rw [if_neg (by simp)]
      exact (List.append_nil _).symm ▸ (List.replicate_succ' ..).symm
  · have hpos := length_digitBuffer_pos base n
    have hbuf : bufferOf base f.precision n = digitBuffer base n := if_neg fun h ↦ hn h.1
    rw [← hbuf, length_bufferOf hn] at hpos
    rw [length_bufferOf hn, reverse_bufferOf hn]
    cases f.precision with
    | none =>
      congr 2
      simp only [Option.getD_none]
      omega
    | some p => rfl

end Esp32c6Fw.Stdio
