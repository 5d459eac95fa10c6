import Esp32c6Fw.Lib.Framing

namespace Esp32c6Fw.Espctl

abbrev Bytes := List UInt8

def slipEnd : UInt8 := 0xC0
def slipEsc : UInt8 := 0xDB
def slipEscEnd : UInt8 := 0xDC
def slipEscEsc : UInt8 := 0xDD

inductive Error
  | serialException (msg : String)
  | serialTimeout (msg : String)
  | valueError (msg : String)
  | structError
  | indexError
  | nameError (name : String)
  | unboundLocalError (name : String)
  | runtimeError (msg : String)
  | systemExit
  deriving DecidableEq

def slipEncode : Bytes → Bytes
  | [] => []
  | b :: data =>
    if b = slipEnd then slipEsc :: slipEscEnd :: slipEncode data
    else if b = slipEsc then slipEsc :: slipEscEsc :: slipEncode data
    else b :: slipEncode data

/-- An escape at the very end indexes past the data; an unknown one is dropped. -/
def slipDecode : Bytes → Except Error Bytes
  | [] => .ok []
  | b :: data =>
    if b = slipEsc then
      match data with
      | [] => .error .indexError
      | c :: data =>
        if c = slipEscEnd then (slipDecode data).map (slipEnd :: ·)
        else if c = slipEscEsc then (slipDecode data).map (slipEsc :: ·)
        else slipDecode data
    else (slipDecode data).map (b :: ·)

theorem slipDecode_cons {b : UInt8} (h : b ≠ slipEsc) (data : Bytes) :
    slipDecode (b :: data) = (slipDecode data).map (b :: ·) := by
  cases data <;> simp [slipDecode, h]

theorem slipDecode_slipEncode (data : Bytes) : slipDecode (slipEncode data) = .ok data := by
  induction data with
  | nil => rfl
  | cons b data ih =>
    by_cases he : b = slipEnd
    · subst he
      simp only [slipEncode, if_true, slipDecode, ih]
      rfl
    · by_cases hs : b = slipEsc
      · subst hs
        simp only [slipEncode, if_neg he, if_true, slipDecode, ih]
        rw [if_neg (by decide)]
        rfl
      · rw [slipEncode, if_neg he, if_neg hs, slipDecode_cons hs, ih]
        rfl

theorem slipEnd_notMem_slipEncode (data : Bytes) : slipEnd ∉ slipEncode data := by
  induction data with
  | nil => exact List.not_mem_nil
  | cons b data ih =>
    unfold slipEncode
    split
    · simp only [List.mem_cons, ih, or_false, not_or]
      decide
    · rename_i he
      split
      · simp only [List.mem_cons, ih, or_false, not_or]
        decide
      · simp only [List.mem_cons, ih, or_false]
        exact fun h ↦ he h.symm

theorem slipEncode_ne_nil {data : Bytes} (h : data ≠ []) : slipEncode data ≠ [] := by
  cases data with
  | nil => exact absurd rfl h
  | cons b data =>
    unfold slipEncode
    split
    · exact List.cons_ne_nil _ _
    · split <;> exact List.cons_ne_nil _ _

end Esp32c6Fw.Espctl
