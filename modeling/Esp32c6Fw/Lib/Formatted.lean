import Mathlib.Data.Int.Notation
import Mathlib.Data.List.Basic
import Mathlib.Data.Nat.Digits.Defs

/-! Formatted output as the C standard describes it, with 32 bits for `int`, `long`, pointers. -/

namespace Esp32c6Fw.Formatted

abbrev Text := List (BitVec 8)

def chr (c : Char) : BitVec 8 := BitVec.ofNat 8 c.toNat

/-- A string in memory, up to its NUL. -/
structure CString where
  bytes : Text
  no_nul : 0 ∉ bytes

/-- An argument as the caller passes it: an `int`, a `long` or a pointer to print, a
`long long` or a `double`, or a pointer to a string, perhaps NULL. -/
inductive Arg
  | word (v : BitVec 32)
  | dword (v : BitVec 64)
  | str (s : Option CString)

inductive Flag | zero | plus | space | minus | alt | quote
  deriving DecidableEq

def Flag.char : Flag → BitVec 8
  | .zero => chr '0'
  | .plus => chr '+'
  | .space => chr ' '
  | .minus => chr '-'
  | .alt => chr '#'
  | .quote => chr '\''

inductive Length | hh | h | none | l | ll | j | z | t

namespace Length

def text : Length → Text
  | .hh => [chr 'h', chr 'h']
  | .h => [chr 'h']
  | .none => []
  | .l => [chr 'l']
  | .ll => [chr 'l', chr 'l']
  | .j => [chr 'j']
  | .z => [chr 'z']
  | .t => [chr 't']

def bits : Length → ℕ
  | .hh => 8
  | .h => 16
  | .none | .l | .z | .t => 32
  | .ll | .j => 64

/-- The argument, once converted to the type that the modifier stands for. -/
def integer (length : Length) : Arg → Option (BitVec length.bits)
  | .word v => if length.bits ≤ 32 then some (v.setWidth _) else .none
  | .dword v => if length.bits = 64 then some (v.setWidth _) else .none
  | .str _ => .none

end Length

inductive Amount
  | digits (ds : List (Fin 10))
  | star

namespace Amount

def digit (d : Fin 10) : BitVec 8 := chr '0' + BitVec.ofNat 8 d.val

def digitsFrom (n : ℕ) (ds : List (Fin 10)) : ℕ := ds.foldl (fun n d ↦ 10 * n + d.val) n

def text : Amount → Text
  | .digits ds => ds.map digit
  | .star => [chr '*']

def value : Amount → List Arg → Option (ℤ × List Arg)
  | .digits ds, args => some (digitsFrom 0 ds, args)
  | .star, .word v :: args => some (v.toInt, args)
  | .star, _ => none

theorem head_ne_star (ds : List (Fin 10)) (h : Amount.star = .digits ds) :
    ds.head? ≠ some 0 := by
  cases h

theorem head_ne_nil (ds : List (Fin 10)) (h : Amount.digits [] = .digits ds) :
    ds.head? ≠ some 0 := by
  cases h
  simp

theorem le_digitsFrom (n : ℕ) (ds : List (Fin 10)) : n ≤ digitsFrom n ds := by
  induction ds generalizing n with
  | nil => exact le_rfl
  | cons d ds ih =>
    have hd : n ≤ 10 * n + d.val := by omega
    exact hd.trans (ih _)

end Amount

inductive Base
  | decimal
  | octal
  | hex (upper : Bool)

namespace Base

def radix : Base → ℕ
  | .decimal => 10
  | .octal => 8
  | .hex _ => 16

def letter : Base → BitVec 8
  | .decimal => chr 'u'
  | .octal => chr 'o'
  | .hex upper => if upper then chr 'X' else chr 'x'

def digit (base : Base) (d : ℕ) : BitVec 8 :=
  if d < 10 then chr '0' + BitVec.ofNat 8 d
  else if base.letter = chr 'X' then chr 'A' + BitVec.ofNat 8 (d - 10)
  else chr 'a' + BitVec.ofNat 8 (d - 10)

/-- The digits of a number, and none of 0. -/
def digits (base : Base) (n : ℕ) : Text := (Nat.digits base.radix n).reverse.map base.digit

end Base

inductive Conversion
  | signed (length : Length) (i : Bool)
  | unsigned (length : Length) (base : Base)
  | pointer
  | char
  | string

namespace Conversion

def length : Conversion → Length
  | .signed length _ | .unsigned length _ => length
  | _ => .none

def letter : Conversion → BitVec 8
  | .signed _ i => if i then chr 'i' else chr 'd'
  | .unsigned _ base => base.letter
  | .pointer => chr 'p'
  | .char => chr 'c'
  | .string => chr 's'

def text (c : Conversion) : Text := c.length.text ++ [c.letter]

def letters : List Char := ['d', 'i', 'u', 'o', 'x', 'X', 'p', 'c', 's']

theorem exists_letter (c : Conversion) : ∃ x ∈ letters, c.letter = chr x := by
  cases c with
  | signed length i =>
    cases i with
    | false => exact ⟨'d', by decide, rfl⟩
    | true => exact ⟨'i', by decide, rfl⟩
  | unsigned length base =>
    cases base with
    | decimal => exact ⟨'u', by decide, rfl⟩
    | octal => exact ⟨'o', by decide, rfl⟩
    | hex upper =>
      cases upper with
      | false => exact ⟨'x', by decide, rfl⟩
      | true => exact ⟨'X', by decide, rfl⟩
  | pointer => exact ⟨'p', by decide, rfl⟩
  | char => exact ⟨'c', by decide, rfl⟩
  | string => exact ⟨'s', by decide, rfl⟩

end Conversion

def null : Text := "(null)".toList.map chr

/-- What a directive asks for, once its width and precision are known. -/
structure Field where
  minus : Bool
  plus : Bool
  space : Bool
  alt : Bool
  zero : Bool
  width : ℕ
  precision : Option ℕ

namespace Field

variable (f : Field)

def pad (s : Text) : Text :=
  let spaces := List.replicate (f.width - s.length) (chr ' ')
  if f.minus then s ++ spaces else spaces ++ s

/-- The precision is the least number of digits. -/
def atLeast (ds : Text) : Text := List.replicate (f.precision.getD 1 - ds.length) (chr '0') ++ ds

def number (start body : Text) : Text :=
  if f.zero && !f.minus && f.precision.isNone then
    start ++ List.replicate (f.width - (start ++ body).length) (chr '0') ++ body
  else f.pad (start ++ body)

def sign (v : ℤ) : Text :=
  if v < 0 then [chr '-'] else if f.plus then [chr '+'] else if f.space then [chr ' '] else []

def signed (v : ℤ) : Text := f.number (f.sign v) (f.atLeast (Base.decimal.digits v.natAbs))

def unsigned (base : Base) (n : ℕ) : Text :=
  let body := f.atLeast (base.digits n)
  match base with
  | .decimal => f.number [] body
  | .octal => f.number [] (if f.alt && body.head? ≠ some (chr '0') then chr '0' :: body else body)
  | .hex _ => f.number (if f.alt && n ≠ 0 then [chr '0', base.letter] else []) body

def string (s : Text) : Text := f.pad (s.take (f.precision.getD s.length))

/-- What comes out, and the arguments left. The standard leaves open what NULL prints. -/
def convert : Conversion → List Arg → Option (Text × List Arg)
  | .signed length _, a :: args => (length.integer a).map fun v ↦ (f.signed v.toInt, args)
  | .unsigned length base, a :: args =>
    (length.integer a).map fun v ↦ (f.unsigned base v.toNat, args)
  | .pointer, .word v :: args => some ({ f with alt := true }.unsigned (.hex false) v.toNat, args)
  | .char, .word v :: args => some (f.pad [v.setWidth 8], args)
  | .string, .str s :: args => some (f.string (s.elim null CString.bytes), args)
  | _, _ => none

end Field

structure Directive where
  flags : List Flag
  width : Amount
  precision : Option Amount
  conversion : Conversion
  /-- A zero before the width is a flag. -/
  head_ne : ∀ ds, width = .digits ds → ds.head? ≠ some 0

namespace Directive

def bare (flags : List Flag) (conversion : Conversion) : Directive where
  flags := flags
  width := .digits []
  precision := none
  conversion := conversion
  head_ne := Amount.head_ne_nil

def text (d : Directive) : Text :=
  d.flags.map Flag.char ++ d.width.text ++
    (d.precision.elim [] fun p ↦ chr '.' :: p.text) ++ d.conversion.text

def field (d : Directive) (width : ℤ) (precision : Option ℤ) : Field where
  minus := .minus ∈ d.flags || width < 0
  plus := .plus ∈ d.flags
  space := .space ∈ d.flags
  alt := .alt ∈ d.flags
  zero := .zero ∈ d.flags
  width := width.natAbs
  precision := precision.bind fun p ↦ if p < 0 then none else some p.toNat

def precisionValue : Option Amount → List Arg → Option (Option ℤ × List Arg)
  | none, args => some (none, args)
  | some p, args => (p.value args).map fun r ↦ (some r.1, r.2)

/-- The field, and the arguments that its width and precision leave. -/
def read (d : Directive) (args : List Arg) : Option (Field × List Arg) := do
  let (width, args) ← d.width.value args
  let (precision, args) ← precisionValue d.precision args
  return (d.field width precision, args)

def render (d : Directive) (args : List Arg) : Option (Text × List Arg) := do
  let (f, args) ← d.read args
  f.convert d.conversion args

end Directive

inductive Piece
  | literal (c : BitVec 8) (ne_nul : c ≠ 0)
  | directive (d : Directive)

def Piece.text : Piece → Text
  | .literal c _ => if c = chr '%' then [chr '%', chr '%'] else [c]
  | .directive d => chr '%' :: d.text

def text (ps : List Piece) : Text := ps.flatMap Piece.text

def render : List Piece → List Arg → Option Text
  | [], _ => some []
  | .literal c _ :: ps, args => (render ps args).map (c :: ·)
  | .directive d :: ps, args => do
    let (s, args) ← d.render args
    (render ps args).map (s ++ ·)

section Text

variable {b : BitVec 8}

/-- Neither NUL nor the sign that starts a directive. -/
def Inner (b : BitVec 8) : Prop := b ≠ 0 ∧ b ≠ chr '%'

instance : DecidablePred Inner := fun _ ↦ inferInstanceAs (Decidable (_ ∧ _))

theorem Flag.inner_char (x : Flag) : Inner x.char := by
  cases x <;> exact ⟨by decide, by decide⟩

theorem Amount.inner_text {a : Amount} (h : b ∈ a.text) : Inner b := by
  cases a with
  | digits ds =>
    obtain ⟨d, -, rfl⟩ := List.mem_map.mp h
    have hall : ∀ d : Fin 10, Inner (digit d) := by decide
    exact hall d
  | star =>
    rw [List.mem_singleton.mp h]
    exact ⟨by decide, by decide⟩

theorem Length.inner_text {length : Length} (h : b ∈ length.text) : Inner b := by
  have hall : ∀ b ∈ length.text, Inner b := by
    cases length <;> decide
  exact hall b h

theorem Conversion.inner_letter (c : Conversion) : Inner c.letter := by
  have hall : letters.all fun x ↦ Inner (chr x) := rfl
  obtain ⟨x, hx, he⟩ := c.exists_letter
  rw [he]
  exact of_decide_eq_true (List.all_eq_true.mp hall x hx)

theorem Directive.inner_text {d : Directive} (h : b ∈ d.text) : Inner b := by
  simp only [Directive.text, Conversion.text, List.mem_append, List.mem_singleton] at h
  rcases h with ((h | h) | h) | h | rfl
  · obtain ⟨x, -, rfl⟩ := List.mem_map.mp h
    exact x.inner_char
  · exact Amount.inner_text h
  · cases hp : d.precision with
    | none =>
      rw [hp] at h
      cases h
    | some p =>
      rw [hp] at h
      rcases List.mem_cons.mp h with rfl | h
      · exact ⟨by decide, by decide⟩
      · exact Amount.inner_text h
  · exact Length.inner_text h
  · exact d.conversion.inner_letter

theorem Directive.text_ne_nil (d : Directive) : d.text ≠ [] := by
  simp [Directive.text, Conversion.text]

theorem zero_notMem_text (ps : List Piece) : 0 ∉ Formatted.text ps := by
  intro h
  obtain ⟨p, -, hp⟩ := List.mem_flatMap.mp h
  cases p with
  | literal c ne_nul =>
    rw [Piece.text] at hp
    split at hp
    · simp only [List.mem_cons, List.not_mem_nil, or_false, or_self] at hp
      exact absurd hp (by decide)
    · exact ne_nul (List.mem_singleton.mp hp).symm
  | directive d =>
    rcases List.mem_cons.mp hp with hp | hp
    · exact absurd hp (by decide)
    · exact (Directive.inner_text hp).1 rfl

def format (ps : List Piece) : CString := ⟨Formatted.text ps, zero_notMem_text ps⟩

end Text

end Esp32c6Fw.Formatted
