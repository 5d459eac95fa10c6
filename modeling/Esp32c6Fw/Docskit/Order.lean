import Esp32c6Fw.Docskit.Consistency
import Esp32c6Fw.Lib.Sorting

namespace Esp32c6Fw.Docskit

open Fallible Numeral Sorting

def Reordered (reg reg' : Reg) : Prop :=
  reg.fields.Perm reg'.fields ∧ reg' = { reg with fields := reg'.fields }

structure SameButOrder (data data' : Data) : Prop where
  desc : data.desc = data'.desc
  namePrefix : data.namePrefix = data'.namePrefix
  regs : List.Forall₂ Reordered data.regs data'.regs

structure DistinctFields [Unicode] (fields : List Field) : Prop where
  parses : ∀ expanded, expandFields fields = .ok expanded →
    ∀ f ∈ expanded, ∃ r, parseBitRange f.bits = .ok (some r)
  distinct : ∀ expanded, expandFields fields = .ok expanded →
    (expanded.map fun f ↦ f.range.lsb).Nodup

/-- There is a prefix, or no register that needs it, and the expanded fields do not go below bit 0
and have widths that can be written. -/
structure Data.Accepted [Unicode] (data : Data) : Prop where
  named : data.namePrefix = none → data.regs = []
  fields : ∀ reg ∈ data.regs, ∃ expanded, expandFields reg.fields = .ok expanded ∧
    ∀ f ∈ expanded, 0 ≤ f.range.lsb ∧ Writable f.range.width

/-- The text up to the hash, and the line it ends. -/
def hashLines (hash : String) : String :=
  "// Do not edit: This file is automatically generated\n" ++ s!"// hash: {hash}\n"

section Text

variable {reg reg' : Reg}

def Reg.bare (reg : Reg) : Reg := { reg with fields := [] }

structure Header.SameFrame (h h' : Header) : Prop where
  desc : h.desc = h'.desc
  namePrefix : h.namePrefix = h'.namePrefix
  ofsPostfix : h.ofsPostfix = h'.ofsPostfix
  emitReg : h.emitReg = h'.emitReg
  regs : h.regs.map Reg.bare = h'.regs.map Reg.bare

theorem Reordered.bare_eq (h : Reordered reg reg') : reg'.bare = reg.bare := by
  rw [h.2]
  rfl

theorem regPadding_bare (regs : List Reg) : regPadding (regs.map Reg.bare) = regPadding regs := by
  rw [regPadding, List.flatMap_map]
  rfl

theorem offsetDefines_bare (h : Header) :
    { h with regs := h.regs.map Reg.bare }.offsetDefines = h.offsetDefines := by
  simp only [Header.offsetDefines, regPadding_bare, List.flatMap_map]
  rfl

theorem regDefines_bare (h : Header) :
    { h with regs := h.regs.map Reg.bare }.regDefines = h.regDefines := by
  simp only [Header.regDefines, regPadding_bare, List.flatMap_map]
  rfl

variable [Unicode]

def Header.rest (h : Header) : String :=
  let name := optText h.namePrefix
  let headerGuard := s!"{name}_REGS_H"
  s!"// description: {optText h.desc}\n\n" ++
    s!"#ifndef {headerGuard}\n" ++ s!"#define {headerGuard}\n\n" ++ "#include <stdint.h>\n\n" ++
    "/* clang-format off */\n\n" ++ "//Register Offsets\n\n" ++
    String.join (h.offsetDefines.map Define.text) ++ "\n" ++
    (if h.emitReg then
      "// Register REGs\n\n" ++ String.join (h.regDefines.map Define.text) ++ "\n" else "") ++
    "// Register Bits\n\n" ++
    String.join (h.blocks.map (Block.text name h.ofsPostfix h.emitReg)) ++
    "/* clang-format on */\n\n" ++ s!"#endif // {headerGuard}\n"

theorem text_eq (h : Header) : h.text = hashLines h.hash ++ h.rest := by
  unfold Header.text hashLines Header.rest
  generalize String.join (h.offsetDefines.map Define.text) = offsets
  generalize (if h.emitReg then _ else "") = regs
  generalize String.join (h.blocks.map _) = blocks
  simp only [String.append_assoc]

theorem blockText_bare (namePrefix ofsPostfix : String) (emitReg : Bool) (b : Block) :
    Block.text namePrefix ofsPostfix emitReg { b with reg := b.reg.bare } =
      Block.text namePrefix ofsPostfix emitReg b := rfl

theorem rest_bare (h : Header) : { h with regs := h.regs.map Reg.bare }.rest = h.rest := by
  unfold Header.rest
  rw [offsetDefines_bare, regDefines_bare]

def Header.blockTexts (h : Header) : List String :=
  h.blocks.map (Block.text (optText h.namePrefix) h.ofsPostfix h.emitReg)

/-- Headers of one frame say the same before their blocks and behind them. -/
theorem Header.SameFrame.rest_eq {h h' : Header} (hf : h.SameFrame h') : ∃ before after,
    h.rest = before ++ String.join h.blockTexts ++ after ∧
      h'.rest = before ++ String.join h'.blockTexts ++ after := by
  obtain ⟨hd, hn, ho, he, hr⟩ := hf
  rw [← rest_bare h, ← rest_bare h', ← hr]
  obtain ⟨hash, desc, namePrefix, ofsPostfix, emitReg, regs, blocks⟩ := h
  obtain ⟨hash', desc', namePrefix', ofsPostfix', emitReg', regs', blocks'⟩ := h'
  simp only at hd hn ho he hr
  subst hd hn ho he
  unfold Header.rest
  refine ⟨_, _, String.append_assoc .., ?_⟩
  exact String.append_assoc ..

end Text

section Expand

variable [Unicode] {fields fields' expanded : List Field} {reg reg' : Reg} {data data' : Data}

theorem expandFields_of_perm (h : fields.Perm fields') (he : expandFields fields = .ok expanded) :
    ∃ expanded', expandFields fields' = .ok expanded' ∧
      ((expanded.map fun f ↦ f.range.lsb).Nodup → expanded' = expanded) := by
  obtain ⟨fss, hfss, hparse, rfl⟩ := expandFields_eq_ok.mp he
  obtain ⟨fss', hfss', hp⟩ := mapM_perm h (mapM_eq_ok.mpr hfss)
  refine ⟨_, expandFields_eq_ok.mpr ⟨fss', mapM_eq_ok.mp hfss', fun f hf ↦ ?_, rfl⟩, ?_⟩
  · exact hparse f (hp.flatten.mem_iff.mpr hf)
  · intro hkeys
    refine (insertionSort_eq_of_perm hp.flatten fun f hf g hg hfg hgf ↦ ?_).symm
    exact List.inj_on_of_nodup_map hkeys ((List.mem_insertionSort _).mpr hf)
      ((List.mem_insertionSort _).mpr hg) (le_antisymm hfg hgf)

theorem expandFields_perm (h : fields.Perm fields') (hd : DistinctFields fields) :
    expandFields fields = .ok expanded ↔ expandFields fields' = .ok expanded := by
  constructor
  · intro he
    obtain ⟨expanded', he', heq⟩ := expandFields_of_perm h he
    rw [he', heq (hd.distinct _ he)]
  · intro he'
    obtain ⟨expanded', he, -⟩ := expandFields_of_perm h.symm he'
    obtain ⟨expanded'', he'', heq⟩ := expandFields_of_perm h he
    obtain rfl : expanded'' = expanded := Except.ok.inj (he''.symm.trans he')
    rw [he, heq (hd.distinct _ he)]

theorem distinctFields_perm (h : fields.Perm fields') (hd : DistinctFields fields) :
    DistinctFields fields' where
  parses expanded he := hd.parses expanded ((expandFields_perm h hd).mpr he)
  distinct expanded he := hd.distinct expanded ((expandFields_perm h hd).mpr he)

end Expand

section Blocks

variable [Unicode] {reg reg' : Reg} {expanded : List Field} {namePrefix : String}

theorem block_reordered (h : Reordered reg reg') {b b' : Block} (hd : DistinctFields reg.fields)
    (hb : block namePrefix reg = .ok b) (hb' : block namePrefix reg' = .ok b') :
    b' = { b with reg := reg' } := by
  obtain ⟨expanded, he, hb⟩ := bind_eq_ok.mp hb
  obtain ⟨expanded', he', hb'⟩ := bind_eq_ok.mp hb'
  obtain rfl : expanded' = expanded :=
    Except.ok.inj (he'.symm.trans ((expandFields_perm h.1 hd).mp he))
  have hname : reg'.name = reg.name := by
    rw [h.2]
  obtain ⟨padding, hpad, hb⟩ := bind_eq_ok.mp hb
  obtain ⟨ms, hms, hb⟩ := bind_eq_ok.mp hb
  obtain ⟨macros, hmac, hb⟩ := bind_eq_ok.mp hb
  rw [hname] at hb'
  simp only [bind, Except.bind, hpad, hms, hmac] at hb'
  cases hb
  cases hb'
  rfl

theorem blockTexts_reordered (ofsPostfix : String) (emitReg : Bool) {regs regs' : List Reg}
    (h : List.Forall₂ Reordered regs regs') (hd : ∀ reg ∈ regs, DistinctFields reg.fields)
    {bs bs' : List Block} (hb : List.Forall₂ (fun reg b ↦ block namePrefix reg = .ok b) regs bs)
    (hb' : List.Forall₂ (fun reg b ↦ block namePrefix reg = .ok b) regs' bs') :
    bs.map (Block.text namePrefix ofsPostfix emitReg) =
      bs'.map (Block.text namePrefix ofsPostfix emitReg) := by
  induction h generalizing bs bs' with
  | nil =>
    cases hb
    cases hb'
    rfl
  | @cons reg reg' regs regs' hreg _ ih =>
    rw [List.forall_mem_cons] at hd
    cases hb with
    | @cons _ b _ bs hone hb =>
      cases hb' with
      | @cons _ b' _ bs' hone' hb' =>
        obtain ⟨-, -, -, hbreg, -⟩ := block_eq_ok hone
        have htext : Block.text namePrefix ofsPostfix emitReg b' =
            Block.text namePrefix ofsPostfix emitReg b := by
          rw [block_reordered hreg hd.1 hone hone', ← blockText_bare _ _ _ b, hbreg,
            ← hreg.bare_eq]
          rfl
        rw [List.map_cons, List.map_cons, htext, ih hd.2 hb hb']

theorem fieldMacros_error {regMacro : String} {e : Error}
    (hp : ∀ f ∈ expanded, parseBitRange f.bits = .ok (some f.range))
    (h : fieldMacros regMacro expanded = .error e) : e = .valueError := by
  induction expanded with
  | nil => cases h
  | cons f expanded ih =>
    rw [List.forall_mem_cons] at hp
    simp only [fieldMacros, hp.1] at h
    cases hm : getBitMask (some f.range) with
    | error e' =>
      rw [hm] at h
      cases h
      rw [getBitMask] at hm
      split at hm
      · cases hm
      split at hm
      · cases hm
        rfl
      · cases hm
    | ok mask =>
      rw [hm] at h
      cases hr : fieldMacros regMacro expanded with
      | error e' =>
        rw [hr] at h
        cases h
        exact ih hp.2 hr
      | ok ms =>
        rw [hr] at h
        cases h

theorem block_error {e : Error} (he : expandFields reg.fields = .ok expanded)
    (hp : ∀ f ∈ expanded, parseBitRange f.bits = .ok (some f.range))
    (h : block namePrefix reg = .error e) : e = .valueError := by
  obtain ⟨padding, hpad⟩ := fieldPadding_ok hp 0 0 0
  rw [block, he] at h
  simp only [bind, Except.bind, hpad] at h
  cases hms : (members 0 0 expanded).mapM Member.write with
  | error e' =>
    rw [hms] at h
    cases h
    obtain ⟨m, -, hm⟩ := mapM_eq_error hms
    rw [Member.write] at hm
    split at hm
    · cases hm
    · cases hm
      rfl
  | ok ms =>
    rw [hms] at h
    cases hmac : fieldMacros s!"{namePrefix}_{reg.name}" expanded with
    | error e' =>
      simp only [hmac] at h
      cases h
      exact fieldMacros_error hp hmac
    | ok macros =>
      simp only [hmac] at h
      cases h

end Blocks

section Headers

variable [Unicode] {data data' : Data} {hash : Data → String} {ofsPostfix : String}
  {emitReg : Bool}

theorem parses_of_distinct {fields expanded : List Field} (hd : DistinctFields fields)
    (he : expandFields fields = .ok expanded) :
    ∀ f ∈ expanded, parseBitRange f.bits = .ok (some f.range) := by
  intro f hf
  obtain ⟨r, hr⟩ := hd.parses expanded he f hf
  rw [range_of_parse hr, hr]

theorem accepted_iff (hd : ∀ reg ∈ data.regs, DistinctFields reg.fields) :
    (∃ header, cheader hash data ofsPostfix emitReg = .ok header) ↔ data.Accepted := by
  rw [cheader_accepts_iff]
  have hfields (reg : Reg) (hreg : reg ∈ data.regs) (expanded : List Field)
      (he : expandFields reg.fields = .ok expanded) : (∀ f ∈ expanded, f.Emittable) ↔
        ∀ f ∈ expanded, 0 ≤ f.range.lsb ∧ Writable f.range.width :=
    forall₂_congr fun f hf ↦ emittable_iff (parses_of_distinct (hd reg hreg) he f hf)
  constructor
  · rintro ⟨hnamed, h⟩
    refine ⟨hnamed, fun reg hreg ↦ ?_⟩
    obtain ⟨expanded, he, hall⟩ := h reg hreg
    exact ⟨expanded, he, (hfields reg hreg expanded he).mp hall⟩
  · intro h
    refine ⟨h.named, fun reg hreg ↦ ?_⟩
    obtain ⟨expanded, he, hall⟩ := h.fields reg hreg
    exact ⟨expanded, he, (hfields reg hreg expanded he).mpr hall⟩

theorem accepted_reordered (h : SameButOrder data data')
    (hd : ∀ reg ∈ data.regs, DistinctFields reg.fields) : data'.Accepted ↔ data.Accepted := by
  have hregs : data'.regs = [] ↔ data.regs = [] := by
    rw [← List.length_eq_zero_iff, ← List.length_eq_zero_iff, h.regs.length_eq]
  constructor
  · intro ha
    refine ⟨fun hn ↦ hregs.mp (ha.named (h.namePrefix ▸ hn)), fun reg hreg ↦ ?_⟩
    obtain ⟨reg', hreg', hr⟩ := mem_of_forall₂ h.regs hreg
    obtain ⟨expanded, he, hall⟩ := ha.fields reg' hreg'
    exact ⟨expanded, (expandFields_perm hr.1 (hd reg hreg)).mpr he, hall⟩
  · intro ha
    refine ⟨fun hn ↦ hregs.mpr (ha.named (h.namePrefix ▸ hn)), fun reg' hreg' ↦ ?_⟩
    obtain ⟨reg, hreg, hr⟩ := mem_of_forall₂ h.regs.flip hreg'
    obtain ⟨expanded, he, hall⟩ := ha.fields reg hreg
    exact ⟨expanded, (expandFields_perm hr.1 (hd reg hreg)).mp he, hall⟩

/-- Where all fields expand, there are two reasons to raise, in this order. -/
theorem cheader_error {e : Error} (hd : ∀ reg ∈ data.regs, DistinctFields reg.fields)
    (hexp : ∀ reg ∈ data.regs, ∃ expanded, expandFields reg.fields = .ok expanded)
    (h : cheader hash data ofsPostfix emitReg = .error e) :
    e = if data.namePrefix = none ∧ data.regs ≠ [] then .typeError else .valueError := by
  rw [cheader] at h
  split at h
  next hn =>
    cases h
    rw [if_pos hn]
  next hn =>
    rw [if_neg hn]
    cases hbs : data.regs.mapM (block (optText data.namePrefix)) with
    | error e' =>
      rw [hbs] at h
      cases h
      obtain ⟨reg, hreg, hb⟩ := mapM_eq_error hbs
      obtain ⟨expanded, he⟩ := hexp reg hreg
      exact block_error he (parses_of_distinct (hd reg hreg) he) hb
    | ok bs =>
      rw [hbs] at h
      cases h

theorem generateCheader_of_error {e : Error} (h : cheader hash data ofsPostfix emitReg = .error e) :
    generateCheader hash data ofsPostfix emitReg = .error e := by
  rw [generateCheader, h]
  rfl

theorem distinct_reordered (h : SameButOrder data data')
    (hd : ∀ reg ∈ data.regs, DistinctFields reg.fields) :
    ∀ reg' ∈ data'.regs, DistinctFields reg'.fields := by
  intro reg' hreg'
  obtain ⟨reg, hreg, hr⟩ := mem_of_forall₂ h.regs.flip hreg'
  exact distinctFields_perm hr.1 (hd reg hreg)

theorem rest_reordered (h : SameButOrder data data')
    (hd : ∀ reg ∈ data.regs, DistinctFields reg.fields) {header header' : Header}
    (hh : cheader hash data ofsPostfix emitReg = .ok header)
    (hh' : cheader hash data' ofsPostfix emitReg = .ok header') : header.rest = header'.rest := by
  obtain ⟨bs, rfl, hbs⟩ := cheader_eq_ok hh
  obtain ⟨bs', rfl, hbs'⟩ := cheader_eq_ok hh'
  rw [← h.namePrefix] at hbs'
  have ht := blockTexts_reordered ofsPostfix emitReg h.regs hd hbs hbs'
  have hbare : data.regs.map Reg.bare = data'.regs.map Reg.bare := by
    rw [← List.forall₂_eq_eq_eq, List.forall₂_map_left_iff, List.forall₂_map_right_iff]
    exact h.regs.imp fun _ _ hreg ↦ hreg.bare_eq.symm
  obtain ⟨before, after, hrest, hrest'⟩ := @Header.SameFrame.rest_eq _
    ⟨hash data, data.desc, data.namePrefix, ofsPostfix, emitReg, data.regs, bs⟩
    ⟨hash data', data'.desc, data'.namePrefix, ofsPostfix, emitReg, data'.regs, bs'⟩
    ⟨h.desc, h.namePrefix, rfl, rfl, hbare⟩
  rw [hrest, hrest', Header.blockTexts, Header.blockTexts, ← h.namePrefix, ht]

theorem error_reordered (h : SameButOrder data data')
    (hd : ∀ reg ∈ data.regs, DistinctFields reg.fields)
    (hexp : ∀ reg ∈ data.regs, ∃ expanded, expandFields reg.fields = .ok expanded) {e e' : Error}
    (he : cheader hash data ofsPostfix emitReg = .error e)
    (he' : cheader hash data' ofsPostfix emitReg = .error e') : e = e' := by
  have hexp' : ∀ reg' ∈ data'.regs, ∃ expanded, expandFields reg'.fields = .ok expanded := by
    intro reg' hreg'
    obtain ⟨reg, hreg, hr⟩ := mem_of_forall₂ h.regs.flip hreg'
    obtain ⟨expanded, hok⟩ := hexp reg hreg
    exact ⟨expanded, (expandFields_perm hr.1 (hd reg hreg)).mp hok⟩
  have hregs : data.regs ≠ [] ↔ data'.regs ≠ [] := by
    rw [← List.length_pos_iff, ← List.length_pos_iff, h.regs.length_eq]
  rw [cheader_error hd hexp he, cheader_error (distinct_reordered h hd) hexp' he', ← h.namePrefix]
  exact if_congr (and_congr_right fun _ ↦ hregs) rfl rfl

theorem exists_error (h : ¬∃ header, cheader hash data ofsPostfix emitReg = .ok header) :
    ∃ e, cheader hash data ofsPostfix emitReg = .error e := by
  cases hc : cheader hash data ofsPostfix emitReg with
  | error e => exact ⟨e, rfl⟩
  | ok header => exact absurd ⟨header, hc⟩ h

/-- Only the hash tells in which order the fields of the registers are written. Where a
description is not accepted, the other one is not either, and for the same reason. -/
theorem generateCheader_reordered (h : SameButOrder data data')
    (hd : ∀ reg ∈ data.regs, DistinctFields reg.fields) (hash : Data → String)
    (ofsPostfix : String) (emitReg : Bool) :
    (data.Accepted → ∃ header, cheader hash data ofsPostfix emitReg = .ok header ∧
      generateCheader hash data ofsPostfix emitReg = .ok (hashLines (hash data) ++ header.rest) ∧
      generateCheader hash data' ofsPostfix emitReg =
        .ok (hashLines (hash data') ++ header.rest)) ∧
    (¬data.Accepted →
      ∃ e e', generateCheader hash data ofsPostfix emitReg = .error e ∧
        generateCheader hash data' ofsPostfix emitReg = .error e' ∧
        ((∀ reg ∈ data.regs, ∃ expanded, expandFields reg.fields = .ok expanded) → e = e')) := by
  have hd' := distinct_reordered h hd
  constructor
  · intro ha
    obtain ⟨header, hh⟩ := (accepted_iff hd).mpr ha
    obtain ⟨header', hh'⟩ := (accepted_iff hd').mpr ((accepted_reordered h hd).mpr ha)
    refine ⟨header, hh, ?_⟩
    rw [generateCheader_of_cheader hh, generateCheader_of_cheader hh', text_eq, text_eq,
      cheader_hash hh, cheader_hash hh', rest_reordered h hd hh hh']
    exact ⟨rfl, rfl⟩
  · intro ha
    obtain ⟨e, he⟩ := exists_error fun hh ↦ ha ((accepted_iff hd).mp hh)
    obtain ⟨e', he'⟩ :=
      exists_error fun hh ↦ ha ((accepted_reordered h hd).mp ((accepted_iff hd').mp hh))
    exact ⟨e, e', generateCheader_of_error he, generateCheader_of_error he',
      fun hexp ↦ error_reordered h hd hexp he he'⟩

end Headers

section Examples

open scoped Python

def statusReg (fields : List Field) : Data :=
  ⟨none, some "UART", [⟨"STATUS", "Status", 0x1C, none, none, fields⟩]⟩

/-- A counted field whose instances lie on both sides of a plain one. -/
def around : List Field := [⟨"LEVEL", "0", "", some 2, some 2⟩, ⟨"BUSY", "1", "", none, none⟩]

def expandedAround : List Field :=
  [⟨"LEVEL0", "0", "", some 2, some 2⟩, ⟨"BUSY", "1", "", none, none⟩,
    ⟨"LEVEL1", "2", "", some 2, some 2⟩]

theorem expandFields_around : expandFields around = .ok expandedAround := by decide +kernel

theorem distinctFields_around : DistinctFields around := by
  constructor
  · intro expanded h
    obtain rfl : expandedAround = expanded := Except.ok.inj (expandFields_around.symm.trans h)
    have hranges : HasRanges expandedAround [⟨0, 0⟩, ⟨1, 1⟩, ⟨2, 2⟩] := by
      unfold HasRanges
      decide +kernel
    exact fun f hf ↦ ⟨f.range, hranges.range.1 f hf⟩
  · intro expanded h
    obtain rfl : expandedAround = expanded := Except.ok.inj (expandFields_around.symm.trans h)
    decide

theorem accepted_around : (statusReg around).Accepted := by
  refine ⟨fun h ↦ (by cases h), ?_⟩
  intro reg hreg
  rw [List.mem_singleton.mp hreg]
  exact ⟨expandedAround, expandFields_around, by decide +kernel⟩

theorem generateCheader_reordered_around :
    ∃ header, cheader (fun _ ↦ "") (statusReg around) "_OFS" true = .ok header ∧
      generateCheader (fun _ ↦ "") (statusReg around) "_OFS" true =
        .ok (hashLines "" ++ header.rest) ∧
      generateCheader (fun _ ↦ "") (statusReg around.reverse) "_OFS" true =
        .ok (hashLines "" ++ header.rest) := by
  have hsame : SameButOrder (statusReg around) (statusReg around.reverse) :=
    ⟨rfl, rfl, .cons ⟨(List.reverse_perm around).symm, rfl⟩ .nil⟩
  have hd : ∀ reg ∈ (statusReg around).regs, DistinctFields reg.fields := by
    intro reg hreg
    rw [List.mem_singleton.mp hreg]
    exact distinctFields_around
  exact (generateCheader_reordered hsame hd (fun _ ↦ "") "_OFS" true).1 accepted_around

end Examples

end Esp32c6Fw.Docskit
