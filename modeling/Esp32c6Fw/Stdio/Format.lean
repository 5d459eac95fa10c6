import Esp32c6Fw.Lib.Formatted
import Esp32c6Fw.Lib.Output
import Esp32c6Fw.Soc.Mmio

namespace Esp32c6Fw.Stdio

open Formatted Soc

/-- `FL_ZFILL` to `FL_NEGATIVE`, in the order of their bits. -/
structure Flags where
  zfill : Bool := false
  plus : Bool := false
  space : Bool := false
  lpad : Bool := false
  alt : Bool := false
  width : Bool := false
  prec : Bool := false
  long : Bool := false
  short : Bool := false
  repdType : Bool := false
  negative : Bool := false
  deriving DecidableEq

/-- `flags < FL_LONG` -/
def Flags.belowLong (f : Flags) : Bool := !(f.long || f.short || f.repdType || f.negative)

/-- `flags < FL_WIDTH` -/
def Flags.belowWidth (f : Flags) : Bool := !(f.width || f.prec) && f.belowLong

/-- An `int`, whose overflow has no meaning. -/
def int (v : ℤ) : Output Byte ℤ := if -2 ^ 31 ≤ v ∧ v < 2 ^ 31 then .ret v else .undefined

abbrev VaList := List Arg

/-- `va_arg` of another type than the argument has no meaning. -/
def vaInt : VaList → Output Byte (Word × VaList)
  | .word v :: ap => .ret (v, ap)
  | _ => .undefined

def vaLongLong : VaList → Output Byte (BitVec 64 × VaList)
  | .dword v :: ap => .ret (v, ap)
  | _ => .undefined

def vaStr : VaList → Output Byte (Option CString × VaList)
  | .str s :: ap => .ret (s, ap)
  | _ => .undefined

def argToSigned (flags : Flags) (ap : VaList) : Output Byte (BitVec 64 × VaList) :=
  if flags.long && flags.repdType then vaLongLong ap
  else do
    let (v, ap) ← vaInt ap
    if flags.long then return (v.signExtend 64, ap)
    else if flags.short then
      if flags.repdType then return ((v.setWidth 8).signExtend 64, ap)
      else return ((v.setWidth 16).signExtend 64, ap)
    else return (v.signExtend 64, ap)

def argToUnsigned (flags : Flags) (ap : VaList) : Output Byte (BitVec 64 × VaList) :=
  if flags.long && flags.repdType then vaLongLong ap
  else do
    let (v, ap) ← vaInt ap
    if flags.long then return (v.setWidth 64, ap)
    else if flags.short then
      if flags.repdType then return ((v.setWidth 8).setWidth 64, ap)
      else return ((v.setWidth 16).setWidth 64, ap)
    else return (v.setWidth 64, ap)

def toLower (c : Byte) : Byte := c ||| 0x20

def isDigit (c : Byte) : Bool := chr '0' ≤ c && c ≤ chr '9'

/-- `10 * v + c`, an unsigned sum that becomes an `int`. -/
def appendDigit (v : ℤ) (c : Byte) : Output Byte ℤ := do
  let v ← int (10 * v)
  return (BitVec.ofInt 32 (v + (c - chr '0').toNat)).toInt

def isFloat (c : Byte) : Bool :=
  (chr 'e' ≤ toLower c && toLower c ≤ chr 'g') || toLower c = chr 'a'

/-- `CHECK_INT_SIZES`; an `intmax_t` is a `long long`, `size_t` and `ptrdiff_t` are like `int`. -/
def checkIntSizes (c : Byte) (f : Flags) : Option Flags :=
  if c = chr 'l' then some { f with repdType := f.repdType || f.long, long := true }
  else if c = chr 'h' then some { f with repdType := f.repdType || f.short, short := true }
  else if c = chr 'L' then some { f with repdType := true, long := true }
  else if c = chr 'j' then some { f with repdType := true, long := true }
  else if c = chr 'z' then some f
  else if c = chr 't' then some f
  else none

/-- The `switch` on the flag characters. -/
def checkFlag (c : Byte) (f : Flags) : Option Flags :=
  if c = chr '0' then some { f with zfill := true }
  else if c = chr '+' then some { f with plus := true, space := true }
  else if c = chr ' ' then some { f with space := true }
  else if c = chr '-' then some { f with lpad := true }
  else if c = chr '#' then some { f with alt := true }
  else if c = chr '\'' then some f
  else none

section SkipToArg

/-- Go on to the next conversion: its first character and what follows. Behind the
NUL there is nothing to read. -/
def nextConversion : Text → Option (Byte × Option Text)
  | [] => none
  | c :: fmt =>
    if c = chr '%' then
      match fmt with
      | [] => some (0, none)
      | c :: fmt => if c ≠ chr '%' then some (c, some fmt) else nextConversion fmt
    else nextConversion fmt

/-- The variables of `skip_to_arg` in a conversion. -/
structure Skip where
  flags : Flags := {}
  width : ℤ := 0
  argno : ℤ := 0

/-- A turn of the loop over a conversion: go on, or leave it with this conversion character. -/
def skipChar (currentArgno : ℤ) (k : Skip) (c : Byte) : Output Byte (Skip ⊕ (Skip × Byte)) :=
  if k.flags.belowWidth && (checkFlag c k.flags).isSome then return .inl k
  else if k.flags.belowLong && isDigit c then do
    let width ← appendDigit k.width c
    return .inl { k with width, flags := { k.flags with width := true } }
  else if k.flags.belowLong && c = chr '$' then
    if k.argno ≠ 0 then
      if k.width = currentArgno then return .inr ({ k with argno := k.width }, chr 'c')
      else return .inl { k with width := 0 }
    else return .inl { k with argno := k.width, width := 0 }
  else if k.flags.belowLong && (c = chr '*' || c = chr '.') then return .inl { k with width := 0 }
  else
    match checkIntSizes c k.flags with
    | some flags => return .inl { k with flags }
    | none => return .inr (k, c)

def skipConversion (currentArgno : ℤ) (k : Skip) (c : Byte) :
    Text → Output Byte (Skip × Byte × Option Text)
  | [] => do
    match ← skipChar currentArgno k c with
    | .inr (k, c) => return (k, c, some [])
    | .inl k => return (k, 0, none)
  | c' :: fmt => do
    match ← skipChar currentArgno k c with
    | .inr (k, c) => return (k, c, some (c' :: fmt))
    | .inl k => skipConversion currentArgno k c' fmt

/-- Step over an argument of this conversion. -/
def skipArg (flags : Flags) (c : Byte) (ap : VaList) : Output Byte VaList := do
  if isFloat c then
    let (_, ap) ← vaLongLong ap
    return ap
  else if c = chr 'c' then
    let (_, ap) ← vaInt ap
    return ap
  else if c = chr 's' then
    let (_, ap) ← vaStr ap
    return ap
  else if c = chr 'd' || c = chr 'i' then
    let (_, ap) ← argToSigned flags ap
    return ap
  else
    let (_, ap) ← argToUnsigned flags ap
    return ap

/-- Each turn leaves a conversion behind, or an argument. -/
def skipLoop (fmtOrig : Text) (targetArgno : ℤ) :
    ℕ → ℤ → Option Text → VaList → Output Byte VaList
  | 0, _, _, _ => .undefined
  | fuel + 1, currentArgno, fmt, ap =>
    if currentArgno < targetArgno then
      match fmt with
      | none => .undefined
      | some fmt =>
        match nextConversion fmt with
        | none => return ap
        | some (c, fmt) => do
          let (k, c, fmt) ← fmt.elim (pure ({}, c, none)) (skipConversion currentArgno {} c)
          if k.argno = 0 then return ap
          else if k.argno = currentArgno then
            let ap ← skipArg k.flags c ap
            skipLoop fmtOrig targetArgno fuel (currentArgno + 1) (some fmtOrig) ap
          else skipLoop fmtOrig targetArgno fuel currentArgno fmt ap
    else return ap

def skipToArg (fmtOrig : Text) (ap : VaList) (targetArgno : ℤ) : Output Byte VaList :=
  skipLoop fmtOrig targetArgno ((targetArgno.toNat + 1) * (fmtOrig.length + 1)) 1 (some fmtOrig) ap

end SkipToArg

/-- The variables of `vfprintf` in a conversion. -/
structure Spec where
  flags : Flags := {}
  width : ℤ := 0
  prec : ℤ := 0
  argno : ℤ := 0

inductive Turn
  | next (σ : Spec) (ap : VaList)
  | leave
  | ret

/-- A conversion read to its end. -/
structure Parsed where
  spec : Spec
  c : Byte
  rest : Option Text
  ap : VaList

section SpecLoop

variable (fmtOrig : Text) (apOrig : VaList)

def specChar (σ : Spec) (ap : VaList) (c : Byte) : Output Byte Turn :=
  if σ.flags.belowWidth && (checkFlag c σ.flags).isSome then
    return .next { σ with flags := (checkFlag c σ.flags).getD σ.flags } ap
  else if σ.flags.belowLong && isDigit c then
    if σ.flags.prec then do
      let prec ← appendDigit σ.prec c
      return .next { σ with prec } ap
    else do
      let width ← appendDigit σ.width c
      return .next { σ with width, flags := { σ.flags with width := true } } ap
  else if σ.flags.belowLong && c = chr '*' then
    if σ.argno ≠ 0 then return .next σ ap
    else do
      let (v, ap) ← vaInt ap
      if σ.flags.prec then return .next { σ with prec := v.toInt } ap
      else return .next { σ with width := v.toInt, flags := { σ.flags with width := true } } ap
  else if σ.flags.belowLong && c = chr '.' then
    if σ.flags.prec then return .ret
    else return .next { σ with flags := { σ.flags with prec := true } } ap
  else if σ.flags.belowLong && c = chr '$' then
    if σ.argno ≠ 0 then do
      let ap ← skipToArg fmtOrig apOrig (if σ.flags.prec then σ.prec else σ.width)
      let (v, ap) ← vaInt ap
      if σ.flags.prec then return .next { σ with prec := v.toInt } ap
      else return .next { σ with width := v.toInt } ap
    else return .next { flags := {}, width := 0, prec := 0, argno := σ.width } ap
  else
    match checkIntSizes c σ.flags with
    | some flags => return .next { σ with flags } ap
    | none => return .leave

/-- `none` where `vfprintf` gives up. -/
def specLoop (σ : Spec) (ap : VaList) (c : Byte) : Text → Output Byte (Option Parsed)
  | [] => do
    match ← specChar fmtOrig apOrig σ ap c with
    | .leave => return some ⟨σ, c, some [], ap⟩
    | .ret => return none
    | .next σ ap => return some ⟨σ, 0, none, ap⟩
  | c' :: fmt => do
    match ← specChar fmtOrig apOrig σ ap c with
    | .leave => return some ⟨σ, c, some (c' :: fmt), ap⟩
    | .ret => return none
    | .next σ ap => specLoop σ ap c' fmt

end SpecLoop

end Esp32c6Fw.Stdio
