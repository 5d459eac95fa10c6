import Esp32c6Fw.Stdio.Format

namespace Esp32c6Fw.Stdio

open Formatted Output Soc

def printfBufSize : ℕ := 22

/-- The digits, last one first, in a buffer that has this room left. -/
def ultoaLoop (base : BitVec 64) (hex : Byte) : ℕ → BitVec 64 → Output Byte (List Byte)
  | 0, _ => .undefined
  | room + 1, val =>
    let v : Byte := (val % base).setWidth 8
    let v := if 9 < v then v + hex else v
    let v := v + chr '0'
    let val := val / base
    if val = 0 then return [v]
    else do
      let buf ← ultoaLoop base hex room val
      return v :: buf

def ultoaInvert (val : BitVec 64) (base : Word) : Output Byte (List Byte) :=
  let hex := chr 'a' - chr '0' - 10 + 16 - base.setWidth 8
  ultoaLoop ((base &&& 31).setWidth 64) hex printfBufSize val

/-- The buffer, without a digit for a zero with precision 0. -/
def numberBuffer (flags : Flags) (prec : ℤ) (x : BitVec 64) (base : Word) :
    Output Byte (List Byte) :=
  if x = 0 && flags.prec && prec = 0 then .ret [] else ultoaInvert x base

def repeated (n : ℤ) (c : Byte) : Output Byte Unit := putAll (List.replicate n.toNat c)

/-- The characters before the digits. -/
def leading (flags : Flags) (c : Byte) : List Byte :=
  if flags.alt then if c ≠ 0 then [chr '0', c] else [chr '0']
  else if flags.negative then [chr '-']
  else if flags.plus then [chr '+']
  else if flags.space then [chr ' ']
  else []

def Flags.precise (flags : Flags) (prec : ℤ) (c : Byte) (bufLen : ℤ) : Flags :=
  if flags.prec then
    let flags := { flags with zfill := false }
    if bufLen < prec && c = 0 then { flags with alt := false } else flags
  else flags

/-- From the precision on. Returns the width that remains. -/
def putNumber (flags : Flags) (width prec : ℤ) (c : Byte) (buf : List Byte) : Output Byte ℤ := do
  let bufLen : ℤ := buf.length
  let len := if flags.prec && bufLen < prec then prec else bufLen
  let flags := flags.precise prec c bufLen
  let len ← int (len + (leading flags c).length)
  let zeros := !flags.lpad && flags.zfill
  let prec := if zeros then bufLen + (if len < width then width - len else 0) else prec
  let len := if zeros && len < width then width else len
  let spaces := if !flags.lpad then width - len else 0
  repeated spaces (chr ' ')
  let len := if !flags.lpad && len < width then width else len
  let width := width - len
  putAll (leading flags c)
  repeated (prec - bufLen) (chr '0')
  putAll buf.reverse
  return width

/-- The rest of `vfprintf_int.c` once it has found a base. -/
def putUnsigned (σ : Spec) (ap : VaList) (c : Byte) (base : Word) (flags : Flags) :
    Output Byte (Option ℤ × VaList) := do
  let flags := { flags with plus := false, space := false }
  let (x, ap) ← argToUnsigned flags ap
  let flags := if x = 0 then { flags with alt := false } else flags
  let buf ← numberBuffer flags σ.prec x base
  let width ← putNumber flags σ.width σ.prec c buf
  return (some width, ap)

/-- `vfprintf_int.c`. There is no width for a character that is no conversion. -/
def vfprintfInt (σ : Spec) (c : Byte) (ap : VaList) : Output Byte (Option ℤ × VaList) :=
  if c = chr 'd' || c = chr 'i' then do
    let (xs, ap) ← argToSigned σ.flags ap
    let negative := xs.slt 0
    let xs := if negative then -xs else xs
    let flags := { σ.flags with negative, alt := false }
    let buf ← numberBuffer flags σ.prec xs 10
    let width ← putNumber flags σ.width σ.prec c buf
    return (some width, ap)
  else if c = chr 'u' then putUnsigned σ ap c 10 { σ.flags with alt := false }
  else if c = chr 'o' then putUnsigned σ ap 0 8 σ.flags
  else if c = chr 'p' then putUnsigned σ ap (chr 'x') 16 { σ.flags with alt := true }
  else if toLower c = chr 'x' then putUnsigned σ ap c ((chr 'x' - c).setWidth 32 ||| 16) σ.flags
  else do
    putc (chr '%')
    putc c
    return (none, ap)

/-- From `str_lpad` on. -/
def strLpad (flags : Flags) (width : ℤ) (pnt : List Byte) : Output Byte ℤ := do
  let spaces := if !flags.lpad then width - pnt.length else 0
  repeated spaces (chr ' ')
  let width := if !flags.lpad && pnt.length < width then (pnt.length : ℤ) else width
  let width := width - pnt.length
  putAll pnt
  return width

def vfprintfChar (σ : Spec) (ap : VaList) : Output Byte (Option ℤ × VaList) := do
  let (c, ap) ← vaInt ap
  let width ← strLpad σ.flags σ.width [c.setWidth 8]
  return (some width, ap)

def vfprintfStr (σ : Spec) (ap : VaList) : Output Byte (Option ℤ × VaList) := do
  let (pnt, ap) ← vaStr ap
  let pnt := pnt.elim null CString.bytes
  let size := if σ.flags.prec then σ.prec.toNat else pnt.length
  let width ← strLpad σ.flags σ.width (pnt.take size)
  return (some width, ap)

/-- A precision below zero is none. -/
def finishPrec (σ : Spec) : Spec :=
  if σ.prec < 0 then { σ with prec := 0, flags := { σ.flags with prec := false } } else σ

/-- A width below zero asks for spaces on the right. -/
def finishWidth (σ : Spec) : Output Byte Spec := do
  if σ.width < 0 then
    let width ← int (-σ.width)
    return { σ with width, flags := { σ.flags with lpad := true } }
  else return σ

/-- Up to the next conversion. -/
def literals : Text → Output Byte (Option (Byte × Option Text))
  | [] => return none
  | c :: fmt =>
    if c = chr '%' then
      match fmt with
      | [] => return some (0, none)
      | c :: fmt => if c ≠ chr '%' then return some (c, some fmt) else .put c (literals fmt)
    else .put c (literals fmt)

section Loop

variable (vfprintfFloat : Spec → Byte → BitVec 64 → Output Byte ℤ)

/-- `vfprintf_float.c` is a parameter, which returns the width that remains, as the others do. -/
def convert (σ : Spec) (c : Byte) (ap : VaList) : Output Byte (Option ℤ × VaList) :=
  if isFloat c then do
    let (v, ap) ← vaLongLong ap
    let width ← vfprintfFloat σ c v
    return (some width, ap)
  else if c = chr 'c' then vfprintfChar σ ap
  else if c = chr 's' then vfprintfStr σ ap
  else vfprintfInt σ c ap

/-- Each turn leaves a conversion behind. -/
def formatLoop (fmtOrig : Text) (apOrig : VaList) : ℕ → Text → VaList → Output Byte Unit
  | 0, _, _ => .undefined
  | fuel + 1, fmt, ap => do
    match ← literals fmt with
    | none => return ()
    | some (c, fmt) =>
      match ← fmt.elim (pure (some ⟨{}, c, none, ap⟩)) (specLoop fmtOrig apOrig {} ap c) with
      | none => return ()
      | some p =>
        let ap ← if p.spec.argno ≠ 0 then skipToArg fmtOrig apOrig p.spec.argno else pure p.ap
        let σ ← finishWidth (finishPrec p.spec)
        let (width, ap) ← convert vfprintfFloat σ p.c ap
        repeated (width.getD 0) (chr ' ')
        match p.rest with
        | none => .undefined
        | some fmt => formatLoop fmtOrig apOrig fuel fmt ap

def format (fmt : CString) (ap : VaList) : Output Byte Unit :=
  formatLoop vfprintfFloat fmt.bytes ap (fmt.bytes.length + 1) fmt.bytes ap

def swr : Byte := 0x02

def serr : Byte := 0x04

variable {m : Type → Type} [Monad m]

def refuses (put : Byte → m Word) (c : Byte) : m Bool := do
  let r ← put c
  return r.slt 0

/-- What `vfprintf` returns, and `stream->flags` afterwards. Once `stream_len` overflows,
the call has no meaning. -/
def vfprintfResult (flags : Byte) (r : Ending Unit × ℕ) : Option Word × Byte :=
  if r.2 < 2 ^ 31 then
    match r.1 with
    | .returned () => (some (BitVec.ofNat 32 r.2), flags)
    | .failed => (some (-1), flags ||| serr)
    | .undefined => (none, flags)
  else (none, flags)

def vfprintf (put : Byte → m Word) (flags : Byte) (fmt : CString) (ap : VaList) :
    m (Option Word × Byte) :=
  if flags &&& swr = 0 then pure (some (-1), flags)
  else do
    let r ← (format vfprintfFloat fmt ap).run (refuses put) 0
    return vfprintfResult flags r

variable {S : Type} {put : Byte → StateM S Word} {flags : Byte} {fmt : CString} {ap : VaList}

theorem run_vfprintf (hw : flags &&& swr ≠ 0) (s : S) :
    (vfprintf vfprintfFloat put flags fmt ap).run s =
      let r := ((format vfprintfFloat fmt ap).run (refuses put) 0).run s
      (vfprintfResult flags r.1, r.2) := by
  rw [vfprintf, if_neg hw]
  rfl

end Loop

end Esp32c6Fw.Stdio
