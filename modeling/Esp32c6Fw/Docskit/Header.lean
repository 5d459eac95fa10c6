import Esp32c6Fw.Docskit.Fields

namespace Esp32c6Fw.Docskit

open Numeral Unicode

def ljust (s : String) (width : ℕ) : String := s ++ spaces (width - s.length)

/-- `format(z, "0…X")`: the sign counts for the width. -/
def hexText (width : ℕ) (z : ℤ) : String :=
  let digits := (Nat.toDigits 16 z.natAbs).map Char.toUpper
  let sign := if z < 0 then ['-'] else []
  String.ofList (sign ++ List.replicate (width - sign.length - digits.length) '0' ++ digits)

/-- A `#define` line; the name is filled up together with its parameters. -/
structure Define where
  name : String
  params : String
  padding : ℕ
  value : String
  deriving DecidableEq

def Define.text (d : Define) : String :=
  "#define " ++ ljust (d.name ++ d.params) d.padding ++ " " ++ d.value ++ "\n"

inductive Member
  | rsvd (idx : ℕ) (width : ℤ)
  | field (name : String) (width : ℤ)
  deriving DecidableEq

def Member.width : Member → ℤ
  | rsvd _ width | field _ width => width

@[simp] theorem Member.width_rsvd (idx : ℕ) (width : ℤ) : (rsvd idx width).width = width := rfl

@[simp] theorem Member.width_field (name : String) (width : ℤ) :
    (field name width).width = width := rfl

/-- A member is written with its width, which may be too long. -/
def Member.write (m : Member) : Except Error Member :=
  if Writable m.width then .ok m else .error .valueError

/-- The macros of a field, with `macro_name` as `name`. -/
structure FieldMacros where
  name : String
  desc : String
  shift : ℤ
  mask : ℕ
  deriving DecidableEq

def FieldMacros.defines (m : FieldMacros) : List Define :=
  let padding := m.name.length + 11
  [⟨s!"{m.name}_DESC", "", padding, s!"\"{m.desc}\""⟩,
    ⟨s!"{m.name}_SHIFT", "", padding, s!"( {m.shift} )"⟩,
    ⟨s!"{m.name}_MASK", "", padding, s!"( 0x{hexText 8 m.mask} )"⟩,
    ⟨s!"{m.name}_VALUE", "(raw)", padding,
      s!"( ((raw) & ({m.name}_MASK)) >> ({m.name}_SHIFT) )"⟩,
    ⟨s!"{m.name}_RAW", "(value)", padding, s!"( (value) << ({m.name}_SHIFT) )"⟩]

section Texts

variable [Unicode]

def Member.text (padding : ℕ) : Member → String
  | rsvd idx width =>
    let rsvd := ljust s!"rsvd{idx}" padding
    s!"\t\tuint32_t {rsvd} : {width};\n"
  | field name width =>
    let fieldName := lower (ljust name padding)
    s!"\t\tuint32_t {fieldName} : {width};\n"

def Member.name : Member → String
  | rsvd idx _ => s!"rsvd{idx}"
  | field name _ => lower name

/-- Filling up the name before it is lowered does nothing to it. -/
theorem Member.text_eq (padding : ℕ) (m : Member) : ∃ n, m.text padding =
    "\t\tuint32_t " ++ (m.name ++ spaces n) ++ " : " ++ toString m.width ++ ";\n" := by
  cases m with
  | rsvd idx width => exact ⟨_, rfl⟩
  | field name width =>
    refine ⟨padding - name.length, ?_⟩
    rw [Member.name, ← lower_spaces]
    rfl

/-- The loop that counts the reserved gaps; it returns `field_padding`. The
lowest bit of an unparsable field cannot be compared. -/
def fieldPadding (lastLsb : ℤ) (rsvdCnt padding : ℕ) : List Field → Except Error ℕ
  | [] =>
    let rsvdCnt := if lastLsb < 32 then rsvdCnt + 1 else rsvdCnt
    .ok (if 0 < rsvdCnt then max padding (4 + (toString rsvdCnt).length) else padding)
  | field :: fields =>
    match parseBitRange field.bits with
    | .error e => .error e
    | .ok none => .error .typeError
    | .ok (some range) =>
      fieldPadding (range.msb + 1) (if lastLsb < range.lsb then rsvdCnt + 1 else rsvdCnt)
        (max padding field.name.length) fields

/-- The loop that writes the members, as far as the bits are ranges. -/
def members (lastLsb : ℤ) (rsvdIdx : ℕ) : List Field → List Member
  | [] => if lastLsb < 32 then [.rsvd rsvdIdx (32 - lastLsb)] else []
  | field :: fields =>
    match parseBitRange field.bits with
    | .ok (some range) =>
      if lastLsb < range.lsb then
        .rsvd rsvdIdx (range.lsb - lastLsb) :: .field field.name (range.msb - range.lsb + 1) ::
          members (range.msb + 1) (rsvdIdx + 1) fields
      else .field field.name (range.msb - range.lsb + 1) :: members (range.msb + 1) rsvdIdx fields
    | _ => members lastLsb rsvdIdx fields

def fieldMacros (regMacro : String) : List Field → Except Error (List FieldMacros)
  | [] => .ok []
  | field :: fields =>
    match parseBitRange field.bits with
    | .error e => .error e
    | .ok none => fieldMacros regMacro fields
    | .ok (some range) => do
      let mask ← getBitMask (some range)
      let rest ← fieldMacros regMacro fields
      return ⟨s!"{regMacro}_{field.name}", field.desc, range.lsb, mask⟩ :: rest

end Texts

structure Block where
  reg : Reg
  padding : ℕ
  members : List Member
  macros : List FieldMacros
  deriving DecidableEq

/-- One turn of the loop over the registers. -/
def block [Unicode] (namePrefix : String) (reg : Reg) : Except Error Block := do
  let regFields ← expandFields reg.fields
  let padding ← fieldPadding 0 0 0 regFields
  let members ← (members 0 0 regFields).mapM Member.write
  let macros ← fieldMacros s!"{namePrefix}_{reg.name}" regFields
  return ⟨reg, padding, members, macros⟩

def regDefines (namePrefix ofsPostfix : String) (emitReg : Bool) (reg : Reg) : List Define :=
  let regMacro := s!"{namePrefix}_{reg.name}"
  let macroDesc := s!"{regMacro}_DESC"
  let macroOfs := s!"{regMacro}{ofsPostfix}"
  let macroReg := s!"{regMacro}_REG"
  let macroRegs := s!"{regMacro}_REGS"
  let isArray := reg.count.isSome
  let names := [macroDesc] ++ (if isArray then [macroOfs ++ "(n)"] else []) ++
    (if isArray && emitReg then [macroReg ++ "(base, n)", macroRegs ++ "(base)"] else [])
  let macroPadding := (names.map String.length).foldl max 0
  let ofsValue := s!"0x{hexText 4 reg.offset}UL + (n) * 0x{hexText 0 (reg.stride.getD 1)}UL"
  let regsValue :=
    ", ".intercalate ((regInstances reg).map fun i ↦ s!"{namePrefix}_{i.1}_REG(base)")
  [⟨macroDesc, "", macroPadding, s!"\"{reg.desc}\""⟩] ++
    (if isArray then [⟨macroOfs, "(n)", macroPadding, s!"( {ofsValue} )"⟩] else []) ++
    (if isArray && emitReg then
      [⟨macroReg, "(base, n)", macroPadding, s!"( (base) + ({macroOfs}(n)) )"⟩,
        ⟨macroRegs, "(base)", macroPadding, "\x7b " ++ regsValue ++ " \x7d"⟩] else [])

def Block.text [Unicode] (namePrefix ofsPostfix : String) (emitReg : Bool) (b : Block) : String :=
  s!"// {namePrefix}_{b.reg.name}\n" ++
    String.join ((regDefines namePrefix ofsPostfix emitReg b.reg).map Define.text) ++ "\n" ++
    "#ifndef __ASSEMBLY__\n\n" ++
    s!"union {lower namePrefix}_{lower b.reg.name} " ++ "\x7b\n" ++
    "\tuint32_t raw;\n\n" ++ "\tstruct \x7b\n" ++
    String.join (b.members.map (Member.text b.padding)) ++
    "\t\x7d;\n" ++ "\x7d;\n\n" ++ "#endif // __ASSEMBLY__\n\n" ++
    String.join (b.macros.map fun m ↦ String.join (m.defines.map Define.text) ++ "\n")

structure Header where
  hash : String
  desc : Option String
  namePrefix : Option String
  ofsPostfix : String
  emitReg : Bool
  regs : List Reg
  blocks : List Block
  deriving DecidableEq

def optText (s : Option String) : String := s.getD "None"

def regPadding (regs : List Reg) : ℕ :=
  ((regs.flatMap regInstances).map fun i ↦ i.1.length).foldl max 0

def Header.offsetDefines (h : Header) : List Define :=
  let name := optText h.namePrefix
  let macroPadding := regPadding h.regs + name.length + h.ofsPostfix.length + 1
  h.regs.flatMap fun reg ↦ (regInstances reg).map fun i ↦
    ⟨s!"{name}_{i.1}{h.ofsPostfix}", "", macroPadding,
      s!"( 0x{hexText 4 i.2}UL ) // {reg.desc}"⟩

def Header.regDefines (h : Header) : List Define :=
  let name := optText h.namePrefix
  let namePadding := regPadding h.regs + name.length + "REG(base)".length + 2
  let valuePadding := regPadding h.regs + name.length + h.ofsPostfix.length + 12
  h.regs.flatMap fun reg ↦ (regInstances reg).map fun i ↦
    let macroValue := ljust s!"(base) + ({name}_{i.1}{h.ofsPostfix})" valuePadding
    ⟨s!"{name}_{i.1}_REG", "(base)", namePadding, s!"( {macroValue} )"⟩

section

variable [Unicode]

def Header.text (h : Header) : String :=
  let name := optText h.namePrefix
  let headerGuard := s!"{name}_REGS_H"
  "// Do not edit: This file is automatically generated\n" ++ s!"// hash: {h.hash}\n" ++
    s!"// description: {optText h.desc}\n\n" ++
    s!"#ifndef {headerGuard}\n" ++ s!"#define {headerGuard}\n\n" ++ "#include <stdint.h>\n\n" ++
    "/* clang-format off */\n\n" ++ "//Register Offsets\n\n" ++
    String.join (h.offsetDefines.map Define.text) ++ "\n" ++
    (if h.emitReg then
      "// Register REGs\n\n" ++ String.join (h.regDefines.map Define.text) ++ "\n" else "") ++
    "// Register Bits\n\n" ++
    String.join (h.blocks.map (Block.text name h.ofsPostfix h.emitReg)) ++
    "/* clang-format on */\n\n" ++ s!"#endif // {headerGuard}\n"

/-- `generate_cheader` up to its text; `hash` is the digest of the description.
Without a prefix the first register raises. -/
def cheader (hash : Data → String) (data : Data) (ofsPostfix : String) (emitReg : Bool) :
    Except Error Header :=
  if data.namePrefix = none ∧ data.regs ≠ [] then .error .typeError
  else do
    let blocks ← data.regs.mapM (block (optText data.namePrefix))
    return ⟨hash data, data.desc, data.namePrefix, ofsPostfix, emitReg, data.regs, blocks⟩

def generateCheader (hash : Data → String) (data : Data) (ofsPostfix : String) (emitReg : Bool) :
    Except Error String := do
  let header ← cheader hash data ofsPostfix emitReg
  return header.text

/-- `main` for the format `cheader`: its end and the output file after it. -/
def main (hash : Data → String) (data : Data) (noOfs noReg : Bool) (outputFile : Option String) :
    Except Error Unit × Option String :=
  let ofsPostfix := if noOfs then "" else "_OFS"
  let emitReg := !(noReg || noOfs)
  match generateCheader hash data ofsPostfix emitReg with
  | .error e => (.error e, outputFile)
  | .ok content => (.ok (), some content)

end

end Esp32c6Fw.Docskit
