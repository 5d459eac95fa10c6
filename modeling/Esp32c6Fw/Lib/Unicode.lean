import Mathlib.Data.Nat.Notation

namespace Esp32c6Fw

def spaces (n : ℕ) : String := String.ofList (List.replicate n ' ')

/-- What an interpreter has of the character database, in whatever version: decimal digits, white
space around a number, and lower case. -/
class Unicode where
  digit : Char → Option ℕ
  isSpace : Char → Bool
  lower : String → String
  digit_lt {c : Char} {d : ℕ} : digit c = some d → d < 10
  digit_ascii (c : Char) : c.toNat < 128 →
    digit c = if c.isDigit then some (c.toNat - '0'.toNat) else none
  isSpace_ascii (c : Char) : c.toNat < 128 →
    isSpace c = decide (c = ' ' ∨ 9 ≤ c.toNat ∧ c.toNat ≤ 13)
  isSpace_digit {c : Char} {d : ℕ} : digit c = some d → isSpace c = false
  lower_spaces (s : String) (n : ℕ) : lower (s ++ spaces n) = lower s ++ spaces n

namespace Unicode

variable [Unicode] {c : Char} {d : ℕ}

theorem digit_digitChar (h : d < 10) : digit d.digitChar = some d := by
  have hall : ∀ d < 10, d.digitChar.toNat < 128 ∧ d.digitChar.isDigit = true ∧
      d.digitChar.toNat - '0'.toNat = d := by decide
  obtain ⟨hlt, hdigit, hsub⟩ := hall d h
  rw [digit_ascii _ hlt, if_pos hdigit, hsub]

theorem digit_eq_none (hlt : c.toNat < 128) (hc : c.isDigit = false) : digit c = none := by
  rw [digit_ascii c hlt, hc]
  rfl

theorem ne_of_digit (h : digit c = some d) (c' : Char) (hlt : c'.toNat < 128)
    (hc : c'.isDigit = false) : c ≠ c' := by
  rintro rfl
  rw [digit_eq_none hlt hc] at h
  cases h

end Unicode

end Esp32c6Fw
