import Esp32c6Fw.Docskit.Acceptance
import Esp32c6Fw.Docskit.Python
import Esp32c6Fw.Lib.Bitfield

namespace Esp32c6Fw.Docskit

open Bitfield Fallible Numeral

def fieldSlots : List Member → List Slot → List (String × Slot)
  | .field name _ :: ms, slot :: slots => (name, slot) :: fieldSlots ms slots
  | .rsvd _ _ :: ms, _ :: slots => fieldSlots ms slots
  | _, _ => []

structure Represents (regMacro : String) (p : String × Slot) (m : FieldMacros) : Prop where
  name : m.name = s!"{regMacro}_{p.1}"
  shift : m.shift = p.2.start
  mask : ∀ i, m.mask.testBit i ↔ p.2.start ≤ i ∧ i < p.2.start + p.2.width

/-- The compiled union of the register has 32 bits, and its fields are where
their macros say. -/
def Block.Agrees (regMacro : String) (b : Block) : Prop :=
  ∃ slots stop, layout 0 (b.members.map Member.width) = some (slots, stop) ∧
    List.Forall₂ (Represents regMacro) (fieldSlots b.members slots) b.macros ∧
    max 32 (sizeBits stop) = 32

def Range.Has (r : Range) (i : ℤ) : Prop := r.lsb ≤ i ∧ i ≤ r.msb

def Range.Apart (r q : Range) : Prop := ∀ i, ¬ (r.Has i ∧ q.Has i)

theorem fieldSlots_sublist (ms : List Member) (slots : List Slot) :
    ((fieldSlots ms slots).map Prod.snd).Sublist slots := by
  induction ms generalizing slots with
  | nil => exact List.nil_sublist slots
  | cons m ms ih =>
    cases slots with
    | nil => cases m <;> exact List.nil_sublist []
    | cons slot slots =>
      cases m with
      | rsvd idx width => exact (ih slots).cons slot
      | field name width => exact (ih slots).cons_cons slot

theorem apart_symm {r q : Range} (h : r.Apart q) : q.Apart r := fun i hi ↦ h i hi.symm

def Consistent [Unicode] (fields : List Field) : Prop :=
  (fields.flatMap Field.ranges).Pairwise Range.Apart ∧
    ∀ r ∈ fields.flatMap Field.ranges, 0 ≤ r.lsb ∧ r.msb ≤ 31

section Agreement

variable [Unicode] {fields expanded : List Field} {regMacro : String} {r q : Range}
  {slots : List Slot} {stop pos idx : ℕ}

structure Occupies (field : Field) (p : String × Slot) : Prop where
  name : p.1 = field.name
  start : (p.2.start : ℤ) = field.range.lsb
  stop : ((p.2.start + p.2.width : ℕ) : ℤ) = field.range.msb + 1

/-- Fields in order, from `pos` on and without overlap, fill the unit with what
is reserved between them. -/
theorem layout_members (hpos : pos ≤ 32)
    (hp : ∀ field ∈ expanded, parseBitRange field.bits = .ok (some field.range))
    (ho : ∀ field ∈ expanded, (pos : ℤ) ≤ field.range.lsb ∧ field.range.lsb ≤ field.range.msb ∧
      field.range.msb ≤ 31)
    (hs : expanded.Pairwise fun f g ↦ f.range.msb < g.range.lsb) :
    ∃ slots, layout pos ((members pos idx expanded).map Member.width) = some (slots, 32) ∧
      List.Forall₂ Occupies expanded (fieldSlots (members pos idx expanded) slots) := by
  induction expanded generalizing pos idx with
  | nil =>
    rw [members]
    by_cases h : (pos : ℤ) < 32
    · rw [if_pos h]
      refine ⟨[⟨pos, 32 - pos⟩], ?_, .nil⟩
      have hw : ((32 : ℤ) - pos).toNat = 32 - pos := by omega
      simp only [List.map_cons, List.map_nil, Member.width]
      rw [layout_fits (by omega) (by omega), layout, hw]
      simp only [Option.map_some, Option.some.injEq, Prod.mk.injEq, true_and]
      omega
    · rw [if_neg h]
      have hpos' : pos = 32 := by omega
      exact ⟨[], by rw [hpos']; rfl, .nil⟩
  | cons field expanded ih =>
    rw [List.forall_mem_cons] at hp ho
    obtain ⟨hs₁, hs₂⟩ := List.pairwise_cons.mp hs
    obtain ⟨⟨hl, hm, hu⟩, ho⟩ := ho
    -- the walk goes on behind the field
    have hnext (idx : ℕ) : ∃ slots, layout (field.range.msb + 1).toNat
        ((members (field.range.msb + 1) idx expanded).map Member.width) = some (slots, 32) ∧
        List.Forall₂ Occupies expanded
          (fieldSlots (members (field.range.msb + 1) idx expanded) slots) := by
      have hc : (((field.range.msb + 1).toNat : ℕ) : ℤ) = field.range.msb + 1 := by omega
      have hi := @ih (field.range.msb + 1).toNat idx (by omega) hp.2 (fun g hg ↦ by
        have h₁ := hs₁ g hg
        have h₂ := ho g hg
        omega) hs₂
      rwa [hc] at hi
    have hocc (p : ℕ) (hpl : (p : ℤ) = field.range.lsb) :
        Occupies field (field.name, ⟨p, (field.range.msb - field.range.lsb + 1).toNat⟩) :=
      ⟨rfl, hpl, by simp only; omega⟩
    rw [members]
    simp only [hp.1]
    by_cases hgap : (pos : ℤ) < field.range.lsb
    · obtain ⟨slots, hlay, hf⟩ := hnext (idx + 1)
      have he : pos + (field.range.lsb - pos).toNat = field.range.lsb.toNat := by omega
      have he' : field.range.lsb.toNat + (field.range.msb - field.range.lsb + 1).toNat =
          (field.range.msb + 1).toNat := by omega
      rw [if_pos hgap]
      refine ⟨⟨pos, (field.range.lsb - pos).toNat⟩ ::
        ⟨field.range.lsb.toNat, (field.range.msb - field.range.lsb + 1).toNat⟩ :: slots, ?_,
        .cons (hocc _ (by omega)) hf⟩
      simp only [List.map_cons, Member.width]
      rw [layout_fits (by omega) (by omega), he, layout_fits (by omega) (by omega), he', hlay]
      rfl
    · obtain ⟨slots, hlay, hf⟩ := hnext idx
      have he : pos + (field.range.msb - field.range.lsb + 1).toNat =
          (field.range.msb + 1).toNat := by omega
      rw [if_neg hgap]
      refine ⟨⟨pos, (field.range.msb - field.range.lsb + 1).toNat⟩ :: slots, ?_,
        .cons (hocc _ (by omega)) hf⟩
      simp only [List.map_cons, Member.width]
      rw [layout_fits (by omega) (by omega), he, hlay]
      rfl

theorem Occupies.represents {field : Field} {p : String × Slot} {m : FieldMacros}
    (ho : Occupies field p) (hm : Masks regMacro field m) : Represents regMacro p m := by
  obtain ⟨hn, hs, he⟩ := ho
  refine ⟨by rw [hm.name, hn], by rw [hm.shift, hs], fun i ↦ ?_⟩
  rw [hm.mask]
  omega

theorem Represents.occupies {field : Field} {p : String × Slot} {m : FieldMacros}
    (hr : Represents regMacro p m) (ho : field.range.lsb ≤ field.range.msb)
    (hm : Masks regMacro field m) :
    (p.2.start : ℤ) = field.range.lsb ∧
      ((p.2.start + p.2.width : ℕ) : ℤ) = field.range.msb + 1 := by
  have hs : (p.2.start : ℤ) = field.range.lsb := by rw [← hr.shift, hm.shift]
  have hbits (i : ℕ) := (hr.mask i).symm.trans (hm.mask i)
  have hlast := (hbits field.range.msb.toNat).mpr (by omega)
  have hend := (hbits (p.2.start + p.2.width - 1)).mp (by omega)
  omega

theorem consistent_of_agrees {ms : List Member} {macros : List FieldMacros}
    (hlay : layout 0 (ms.map Member.width) = some (slots, stop)) (hstop : stop ≤ 32)
    (hrep : List.Forall₂ (Represents regMacro) (fieldSlots ms slots) macros)
    (ho : ∀ field ∈ expanded, field.range.lsb ≤ field.range.msb)
    (hmask : List.Forall₂ (Masks regMacro) expanded macros) :
    expanded.Pairwise (fun f g ↦ f.range.msb < g.range.lsb) ∧
      ∀ f ∈ expanded, 0 ≤ f.range.lsb ∧ f.range.msb ≤ 31 := by
  have hocc : List.Forall₂ (fun (field : Field) (p : String × Slot) ↦
      (p.2.start : ℤ) = field.range.lsb ∧
        ((p.2.start + p.2.width : ℕ) : ℤ) = field.range.msb + 1)
      expanded (fieldSlots ms slots) :=
    forall₂_comp ((List.forall₂_and_left _ _).mpr ⟨ho, hmask⟩).flip hrep.flip
      fun _ _ _ hm hr ↦ hr.occupies hm.1 hm.2
  have hsub := fieldSlots_sublist ms slots
  constructor
  · have hpair := List.pairwise_map.mp ((layout_pairwise hlay).sublist hsub)
    refine pairwise_of_forall₂ hocc hpair (fun f g p p' hf hg hpp ↦ ?_)
    omega
  · intro f hf
    obtain ⟨p, hp, hs, he⟩ := mem_of_forall₂ hocc hf
    have hb := (layout_bounds hlay).2 p.2 (hsub.subset (List.mem_map_of_mem hp))
    omega

theorem Expands.ordered (h : Expands fields expanded) (hw : ∀ field ∈ fields, field.WellFormed) :
    ∀ f ∈ expanded, 0 ≤ f.range.lsb ∧ f.range.lsb ≤ f.range.msb := by
  intro f hf
  obtain ⟨field, hfield, hmem⟩ := h.exists_range hf
  exact ranges_ordered (hw field hfield) _ hmem

theorem consistent_iff (h : Expands fields expanded)
    (ho : ∀ f ∈ expanded, 0 ≤ f.range.lsb ∧ f.range.lsb ≤ f.range.msb) : Consistent fields ↔
    expanded.Pairwise (fun f g ↦ f.range.msb < g.range.lsb) ∧
      ∀ f ∈ expanded, 0 ≤ f.range.lsb ∧ f.range.msb ≤ 31 := by
  have hbounds : (∀ r ∈ fields.flatMap Field.ranges, 0 ≤ r.lsb ∧ r.msb ≤ 31) ↔
      ∀ f ∈ expanded, 0 ≤ f.range.lsb ∧ f.range.msb ≤ 31 := by
    constructor
    · intro hb f hf
      exact hb _ (h.perm.mem_iff.mp (List.mem_map_of_mem hf))
    · intro hb r hr
      obtain ⟨f, hf, rfl⟩ := List.mem_map.mp (h.perm.mem_iff.mpr hr)
      exact hb f hf
  rw [Consistent, hbounds, ← h.perm.pairwise_iff fun {_ _} ↦ apart_symm, List.pairwise_map]
  refine and_congr_left fun _ ↦ ⟨fun hp ↦ ?_, fun hp ↦ hp.imp fun {f g} hlt i hi ↦ ?_⟩
  · refine (h.sorted.and hp).imp_of_mem (fun {f g} _ hg ⟨hle, hap⟩ ↦ ?_)
    have hord := (ho g hg).2
    by_contra hlt
    exact hap g.range.lsb ⟨⟨hle, by omega⟩, le_refl _, hord⟩
  · obtain ⟨⟨_, h₁⟩, h₂, _⟩ := hi
    omega

theorem block_agrees_iff {reg : Reg} {b : Block} {namePrefix : String}
    (h : ∀ field ∈ reg.fields, field.WellFormed) (hb : block namePrefix reg = .ok b) :
    b.reg = reg ∧ (b.Agrees s!"{namePrefix}_{reg.name}" ↔ Consistent reg.fields) := by
  obtain ⟨expanded, hexp, hall, hreg, hmac, hmem⟩ := block_eq_ok hb
  have hplaced := expandFields_forall_iff.mp ⟨expanded, hexp, hall⟩
  obtain ⟨expanded', hexp', he⟩ := expandFields_of_placed hplaced
  obtain rfl : expanded = expanded' := Except.ok.inj (hexp.symm.trans hexp')
  have ho := he.ordered h
  obtain ⟨ms, hms, hmask⟩ := @fieldMacros_ok _ expanded s!"{namePrefix}_{reg.name}" hall
  obtain rfl : b.macros = ms := Except.ok.inj (hmac.symm.trans hms)
  refine ⟨hreg, ?_⟩
  rw [consistent_iff he ho]
  constructor
  · intro ⟨slots, stop, hlay, hrep, hsize⟩
    exact consistent_of_agrees hlay (sizeBits_le (by omega)) hrep (fun f hf ↦ (ho f hf).2) hmask
  · intro ⟨hpair, hbounds⟩
    obtain ⟨slots, hlay, hocc⟩ := @layout_members _ expanded 0 0 (by omega) he.parses
      (fun f hf ↦ ⟨(hbounds f hf).1, (ho f hf).2, (hbounds f hf).2⟩) hpair
    rw [Int.natCast_zero, ← hmem] at hlay hocc
    exact ⟨slots, 32, hlay, forall₂_comp hocc hmask fun f p m ho hm ↦ ho.represents hm, rfl⟩

theorem Consistent.writable (h : ∀ field ∈ fields, field.WellFormed) (hc : Consistent fields) :
    ∀ field ∈ fields, ∀ r ∈ field.ranges, r.Writable := by
  intro field hf r hr
  have hunit : Writable 32 := by decide
  have hb := hc.2 r (List.mem_flatMap.mpr ⟨field, hf, hr⟩)
  have ho := ranges_ordered (h field hf) r hr
  refine ⟨writable_of_le hunit ?_, writable_of_le hunit ?_, writable_of_le hunit ?_⟩
  · omega
  · omega
  · rw [Range.width]
    omega

/-- The two views of every register agree exactly when its description is consistent. There is a
header exactly when no number that the instances of a field come to is too long to be written. -/
theorem views_agree_iff {data : Data} {namePrefix : String}
    (hnamed : data.namePrefix = some namePrefix)
    (hwf : ∀ reg ∈ data.regs, ∀ field ∈ reg.fields, field.WellFormed) (hash : Data → String)
    (ofsPostfix : String) (emitReg : Bool) :
    ((∃ header, cheader hash data ofsPostfix emitReg = .ok header) ↔
      ∀ reg ∈ data.regs, ∀ field ∈ reg.fields, ∀ r ∈ field.ranges, r.Writable) ∧
    ((∀ reg ∈ data.regs, Consistent reg.fields) →
      ∃ header, cheader hash data ofsPostfix emitReg = .ok header) ∧
    ∀ header, cheader hash data ofsPostfix emitReg = .ok header →
      generateCheader hash data ofsPostfix emitReg = .ok header.text ∧
      List.Forall₂ (fun reg b ↦ b.reg = reg ∧
        (b.Agrees s!"{namePrefix}_{reg.name}" ↔ Consistent reg.fields))
        data.regs header.blocks := by
  have hiff : (∃ header, cheader hash data ofsPostfix emitReg = .ok header) ↔
      ∀ reg ∈ data.regs, ∀ field ∈ reg.fields, ∀ r ∈ field.ranges, r.Writable := by
    rw [cheader_accepts_iff]
    simp only [expandFields_forall_iff]
    constructor
    · intro h reg hreg field hf
      exact (h.2 reg hreg field hf).writable
    · intro h
      refine ⟨fun hn ↦ absurd (hnamed.symm.trans hn) (Option.some_ne_none _), ?_⟩
      intro reg hreg field hf
      exact (hwf reg hreg field hf).placed_iff.mpr (h reg hreg field hf)
  refine ⟨hiff, fun hc ↦ hiff.mpr fun reg hreg ↦ (hc reg hreg).writable (hwf reg hreg), ?_⟩
  intro header hh
  refine ⟨generateCheader_of_cheader hh, ?_⟩
  have hblocks := cheader_blocks hh
  rw [hnamed, optText, Option.getD_some] at hblocks
  exact ((List.forall₂_and_left _ _).mpr ⟨hwf, hblocks⟩).imp fun reg b ⟨hw, hb⟩ ↦
    block_agrees_iff hw hb

end Agreement

section Examples

open scoped Python

def outEp1St : Reg :=
  ⟨"OUT_EP1_ST", "CDC-ACM OUT endpoint status information", 0x3C, none, none,
    [⟨"OUT_EP1_STATE", "1:0", "", none, none⟩, ⟨"OUT_EP1_WR_ADDR", "8:2", "", none, none⟩,
      ⟨"OUT_EP1_RD_ADDR", "15:9", "", none, none⟩,
      ⟨"OUT_EP1_REC_DATA_CNT", "15:9", "", none, none⟩]⟩

def pmpcfg : Reg :=
  ⟨"PMPCFG", "Physical memory protection configuration", 0x3A0, some 4, some 1,
    [⟨"A", "4:3", "", some 4, some 8⟩, ⟨"L", "7", "", some 4, some 8⟩]⟩

def twoRegs : Data := ⟨some "registers", some "SOC", [pmpcfg, outEp1St]⟩

theorem wellFormed_of_parse [Unicode] {field : Field} {r : Range}
    (h : parseBitRange field.bits = .ok (some r)) (hl : 0 ≤ r.lsb) (hm : r.lsb ≤ r.msb)
    (hs : ∀ s ∈ field.stride, 0 ≤ s) : field.WellFormed :=
  ⟨⟨r, h, hl, hm⟩, hs⟩

theorem wellFormed_twoRegs :
    ∀ reg ∈ twoRegs.regs, ∀ field ∈ reg.fields, field.WellFormed := by
  simp only [twoRegs, pmpcfg, outEp1St, List.forall_mem_cons, List.not_mem_nil, false_implies,
    implies_true, and_true]
  refine ⟨⟨?_, ?_⟩, ?_, ?_, ?_, ?_⟩
  · exact wellFormed_of_parse (r := ⟨4, 3⟩) (by decide) (by decide) (by decide) (by decide)
  · exact wellFormed_of_parse (r := ⟨7, 7⟩) (by decide) (by decide) (by decide) (by decide)
  · exact wellFormed_of_parse (r := ⟨1, 0⟩) (by decide) (by decide) (by decide) (by decide)
  · exact wellFormed_of_parse (r := ⟨8, 2⟩) (by decide) (by decide) (by decide) (by decide)
  · exact wellFormed_of_parse (r := ⟨15, 9⟩) (by decide) (by decide) (by decide) (by decide)
  · exact wellFormed_of_parse (r := ⟨15, 9⟩) (by decide) (by decide) (by decide) (by decide)

theorem writable_twoRegs :
    ∀ reg ∈ twoRegs.regs, ∀ field ∈ reg.fields, ∀ r ∈ field.ranges, r.Writable := by
  decide +kernel

theorem views_agree_iff_two : ∃ header, cheader (fun _ ↦ "") twoRegs "_OFS" true = .ok header ∧
    generateCheader (fun _ ↦ "") twoRegs "_OFS" true = .ok header.text ∧
    List.Forall₂ (fun reg b ↦ b.reg = reg ∧ (b.Agrees s!"SOC_{reg.name}" ↔ Consistent reg.fields))
      [pmpcfg, outEp1St] header.blocks := by
  obtain ⟨hiff, -, hall⟩ :=
    @views_agree_iff _ twoRegs "SOC" rfl wellFormed_twoRegs (fun _ ↦ "") "_OFS" true
  obtain ⟨header, hh⟩ := hiff.mpr writable_twoRegs
  exact ⟨header, hh, hall header hh⟩

end Examples

end Esp32c6Fw.Docskit
