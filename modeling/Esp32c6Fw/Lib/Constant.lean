import Mathlib.Data.List.Basic
import Mathlib.Data.Nat.Init

namespace Esp32c6Fw.Constant

def digitValue (c : Char) : Option ℕ :=
  if '0' ≤ c ∧ c ≤ '9' then some (c.toNat - '0'.toNat)
  else if 'A' ≤ c ∧ c ≤ 'F' then some (c.toNat - 'A'.toNat + 10)
  else if 'a' ≤ c ∧ c ≤ 'f' then some (c.toNat - 'a'.toNat + 10)
  else none

def readDigits (base : ℕ) (cs : List Char) : Option ℕ :=
  cs.foldlM (fun n c ↦ (digitValue c).bind fun d ↦ if d < base then some (base * n + d) else none) 0

/-- The value of an integer constant, in base 16, 8 or 10 by its first characters. -/
def read : List Char → Option ℕ
  | [] => none
  | '0' :: 'x' :: cs => if cs = [] then none else readDigits 16 cs
  | '0' :: cs => readDigits 8 cs
  | cs => readDigits 10 cs

variable {base n : ℕ} {g : Char → Char}

theorem readDigits_append_singleton {cs : List Char} {c : Char} {d : ℕ}
    (h : readDigits base cs = some n) (hc : digitValue c = some d) (hd : d < base) :
    readDigits base (cs ++ [c]) = some (base * n + d) := by
  rw [readDigits, List.foldlM_append, ← readDigits, h]
  simp only [List.foldlM_cons, hc, Option.bind_some, if_pos hd]
  rfl

/-- A number comes back from its digits, in whatever case these are. -/
theorem readDigits_toDigits (hb : 1 < base)
    (hg : ∀ d < base, digitValue (g d.digitChar) = some d) (n : ℕ) :
    readDigits base ((Nat.toDigits base n).map g) = some n := by
  induction n using Nat.strong_induction_on with
  | _ n ih =>
    have hone {n : ℕ} (hn : n < base) : readDigits base [g n.digitChar] = some n := by
      have h₀ : readDigits base [] = some 0 := rfl
      have h := readDigits_append_singleton h₀ (hg n hn) hn
      rwa [Nat.mul_zero, Nat.zero_add] at h
    by_cases hn : n < base
    · rw [Nat.toDigits_of_lt_base hn]
      exact hone hn
    · have hlt : n / base < n := Nat.div_lt_self (by omega) hb
      have hmod : n % base < base := Nat.mod_lt _ (by omega)
      rw [Nat.toDigits_of_base_le hb (by omega), List.map_append, List.map_singleton,
        readDigits_append_singleton (ih _ hlt) (hg _ hmod) hmod, Nat.div_add_mod]

theorem readDigits_zeros (hb : 0 < base) (k : ℕ) (cs : List Char) :
    readDigits base (List.replicate k '0' ++ cs) = readDigits base cs := by
  induction k with
  | zero => rfl
  | succ k ih =>
    have hz : digitValue '0' = some 0 := by decide
    rw [List.replicate_succ, List.cons_append, readDigits, List.foldlM_cons, hz]
    simp only [Option.bind_some, if_pos hb, Nat.mul_zero, Nat.add_zero]
    exact ih

theorem head?_toDigits (hn : 0 < n) : (Nat.toDigits 10 n).head? ≠ some '0' := by
  induction n using Nat.strong_induction_on with
  | _ n ih =>
    by_cases hlt : n < 10
    · have hall : ∀ n < 10, 0 < n → n.digitChar ≠ '0' := by decide
      rw [Nat.toDigits_of_lt_base hlt]
      simpa using hall n hlt hn
    · have hne : Nat.toDigits 10 (n / 10) ≠ [] := Nat.toDigits_ne_nil
      rw [Nat.toDigits_of_base_le (by decide) (by omega), List.head?_append_of_ne_nil _ hne]
      exact ih (n / 10) (by omega) (by omega)

theorem read_toDigits (n : ℕ) : read (Nat.toDigits 10 n) = some n := by
  have hdigit : ∀ d < 10, digitValue d.digitChar = some d := by decide
  have hread := @readDigits_toDigits 10 id (by decide) hdigit n
  rw [List.map_id] at hread
  rcases Nat.eq_zero_or_pos n with rfl | hn
  · rw [Nat.toDigits_zero]
    rfl
  · have hhead := head?_toDigits hn
    have hne : Nat.toDigits 10 n ≠ [] := Nat.toDigits_ne_nil
    cases hcs : Nat.toDigits 10 n with
    | nil => exact absurd hcs hne
    | cons c cs =>
      rw [hcs] at hhead hread
      have hc : c ≠ '0' := fun he ↦ hhead (congrArg some he)
      rw [← hread]
      unfold read
      split
      next h => cases h
      next h => exact absurd (List.cons_eq_cons.mp h).1 hc
      next h => exact absurd (List.cons_eq_cons.mp h).1 hc
      next => rfl

theorem read_hex (k n : ℕ) :
    read ('0' :: 'x' :: (List.replicate k '0' ++ (Nat.toDigits 16 n).map Char.toUpper)) =
      some n := by
  have hdigit : ∀ d < 16, digitValue d.digitChar.toUpper = some d := by decide
  have hne : List.replicate k '0' ++ (Nat.toDigits 16 n).map Char.toUpper ≠ [] := by
    simp [Nat.toDigits_ne_nil]
  rw [read, if_neg hne, readDigits_zeros (by decide)]
  exact readDigits_toDigits (by decide) hdigit n

end Esp32c6Fw.Constant
