import Esp32c6Fw.Lib.Unicode
import Mathlib.Data.List.Defs

namespace Esp32c6Fw.Docskit

namespace Python

/-- The zeros of the decimal digits of Unicode 15; the other nine of each follow it. -/
def zeros : List ℕ :=
  [0x30, 0x660, 0x6F0, 0x7C0, 0x966, 0x9E6, 0xA66, 0xAE6, 0xB66, 0xBE6, 0xC66, 0xCE6, 0xD66, 0xDE6,
    0xE50, 0xED0, 0xF20, 0x1040, 0x1090, 0x17E0, 0x1810, 0x1946, 0x19D0, 0x1A80, 0x1A90, 0x1B50,
    0x1BB0, 0x1C40, 0x1C50, 0xA620, 0xA8D0, 0xA900, 0xA9D0, 0xA9F0, 0xAA50, 0xABF0, 0xFF10, 0x104A0,
    0x10D30, 0x11066, 0x110F0, 0x11136, 0x111D0, 0x112F0, 0x11450, 0x114D0, 0x11650, 0x116C0,
    0x11730, 0x118E0, 0x11950, 0x11C50, 0x11D50, 0x11DA0, 0x11F50, 0x16A60, 0x16AC0, 0x16B50,
    0x1D7CE, 0x1D7D8, 0x1D7E2, 0x1D7EC, 0x1D7F6, 0x1E140, 0x1E2F0, 0x1E4F0, 0x1E950, 0x1FBF0]

def digit (c : Char) : Option ℕ :=
  (zeros.find? fun z ↦ z ≤ c.toNat ∧ c.toNat < z + 10).map (c.toNat - ·)

def whiteSpace : List ℕ :=
  [0x09, 0x0A, 0x0B, 0x0C, 0x0D, 0x20, 0x85, 0xA0, 0x1680, 0x2000, 0x2001, 0x2002, 0x2003, 0x2004,
    0x2005, 0x2006, 0x2007, 0x2008, 0x2009, 0x200A, 0x2028, 0x2029, 0x202F, 0x205F, 0x3000]

def isSpace (c : Char) : Bool := c.toNat ∈ whiteSpace

variable {c : Char} {d : ℕ}

theorem exists_zero (h : digit c = some d) :
    ∃ z ∈ zeros, (z ≤ c.toNat ∧ c.toNat < z + 10) ∧ c.toNat - z = d := by
  obtain ⟨z, hz, hd⟩ := Option.map_eq_some_iff.mp h
  exact ⟨z, List.mem_of_find?_eq_some hz, of_decide_eq_true (List.find?_some hz :), hd⟩

theorem digit_lt (h : digit c = some d) : d < 10 := by
  obtain ⟨z, -, hin, rfl⟩ := exists_zero h
  omega

theorem ascii_of_all {P : Char → Prop} (h : ∀ n < 128, P (Char.ofNat n)) (c : Char)
    (hc : c.toNat < 128) : P c := by
  have hp := h c.toNat hc
  rwa [Char.ofNat_toNat] at hp

theorem digit_ascii (c : Char) (hc : c.toNat < 128) :
    digit c = if c.isDigit then some (c.toNat - '0'.toNat) else none := by
  apply ascii_of_all (P := fun c ↦ digit c = if c.isDigit then some (c.toNat - '0'.toNat) else none)
    _ c hc
  decide +kernel

theorem isSpace_ascii (c : Char) (hc : c.toNat < 128) :
    isSpace c = decide (c = ' ' ∨ 9 ≤ c.toNat ∧ c.toNat ≤ 13) := by
  apply ascii_of_all (P := fun c ↦ isSpace c = decide (c = ' ' ∨ 9 ≤ c.toNat ∧ c.toNat ≤ 13)) _ c hc
  decide +kernel

theorem isSpace_digit (h : digit c = some d) : isSpace c = false := by
  obtain ⟨z, hz, hin, -⟩ := exists_zero h
  have hall : ∀ z ∈ zeros, ∀ n ∈ whiteSpace, ¬(z ≤ n ∧ n < z + 10) := by decide +kernel
  rw [isSpace, decide_eq_false_iff_not]
  exact fun hs ↦ hall z hz _ hs hin

theorem toList_toLower (s : String) : s.toLower.toList = s.toList.map Char.toLower :=
  String.toList_map

theorem lower_spaces (s : String) (n : ℕ) : (s ++ spaces n).toLower = s.toLower ++ spaces n := by
  have hspaces : (List.replicate n ' ').map Char.toLower = List.replicate n ' ' := by
    rw [List.map_replicate]
    rfl
  apply String.toList_injective
  rw [toList_toLower, String.toList_append, String.toList_append, spaces, String.toList_ofList,
    List.map_append, hspaces, toList_toLower]

/-- The database of Python 3.12, with lower case for ASCII alone. -/
scoped instance database : Unicode where
  digit := digit
  isSpace := isSpace
  lower := String.toLower
  digit_lt := digit_lt
  digit_ascii := digit_ascii
  isSpace_ascii := isSpace_ascii
  isSpace_digit := isSpace_digit
  lower_spaces := lower_spaces

end Python

end Esp32c6Fw.Docskit
