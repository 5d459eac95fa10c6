import Esp32c6Fw.Docskit.Layout
import Mathlib.Algebra.Order.Ring.Nat

namespace Esp32c6Fw.Docskit

open Fallible Numeral

structure ValidFields [Unicode] (expanded : List Field) : Prop where
  bounds : ∀ field ∈ expanded, ∀ r, parseBitRange field.bits = .ok (some r) →
    0 ≤ r.lsb ∧ r.lsb ≤ r.msb ∧ r.msb ≤ 31
  apart : expanded.Pairwise fun f g ↦ ∀ r q, parseBitRange f.bits = .ok (some r) →
    parseBitRange g.bits = .ok (some q) → r.Apart q

structure Block.Sound (b : Block) : Prop where
  masks : ∀ m ∈ b.macros, 0 < m.mask ∧ m.mask < 2 ^ 32
  disjoint : b.macros.Pairwise fun m n ↦ m.mask &&& n.mask = 0
  widths : ∀ m ∈ b.members, 0 < m.width

section Soundness

variable [Unicode] {expanded : List Field} {regMacro namePrefix : String} {r : Range} {reg : Reg}
  {b : Block} {f g : Field} {m n : FieldMacros} {idx : ℕ} {lastLsb : ℤ}

theorem widths_pos_iff
    (hp : ∀ field ∈ expanded, parseBitRange field.bits = .ok (some field.range)) :
    (∀ m ∈ members lastLsb idx expanded, 0 < m.width) ↔
      ∀ field ∈ expanded, field.range.lsb ≤ field.range.msb := by
  induction expanded generalizing lastLsb idx with
  | nil =>
    rw [members]
    split
    · simp only [List.mem_singleton, forall_eq, Member.width_rsvd, List.not_mem_nil, false_implies,
        implies_true, iff_true]
      omega
    · simp
  | cons field expanded ih =>
    rw [List.forall_mem_cons] at hp
    rw [members]
    simp only [hp.1]
    split
    · simp only [List.forall_mem_cons, Member.width_rsvd, Member.width_field, ih hp.2]
      constructor
      · intro h
        obtain ⟨-, hw, ht⟩ := h
        exact ⟨by omega, ht⟩
      · intro h
        obtain ⟨hw, ht⟩ := h
        exact ⟨by omega, by omega, ht⟩
    · simp only [List.forall_mem_cons, Member.width_field, ih hp.2]
      constructor
      · intro h
        obtain ⟨hw, ht⟩ := h
        exact ⟨by omega, ht⟩
      · intro h
        obtain ⟨hw, ht⟩ := h
        exact ⟨by omega, ht⟩

section Masks

variable (hm : Masks regMacro f m) (hl : 0 ≤ f.range.lsb)
include hm hl

theorem mask_bounds_iff : (0 < m.mask ∧ m.mask < 2 ^ 32) ↔
    f.range.lsb ≤ f.range.msb ∧ f.range.msb ≤ 31 := by
  constructor
  · intro ⟨hpos, hlt⟩
    obtain ⟨i, hi⟩ := Nat.exists_testBit_of_ne_zero (by omega : m.mask ≠ 0)
    have hin := (hm.mask i).mp hi
    refine ⟨by omega, ?_⟩
    have htop := (hm.mask f.range.msb.toNat).mpr (by omega)
    have hge := Nat.ge_two_pow_of_testBit htop
    by_contra hgt
    have hpow : 2 ^ 32 ≤ 2 ^ f.range.msb.toNat := Nat.pow_le_pow_right (by omega) (by omega)
    omega
  · intro ⟨hle, hgt⟩
    have hbot := (hm.mask f.range.lsb.toNat).mpr (by omega)
    refine ⟨?_, Nat.lt_pow_two_of_testBit _ fun i hi ↦ ?_⟩
    · rcases Nat.eq_zero_or_pos m.mask with hz | hp
      · rw [hz, Nat.zero_testBit] at hbot
        cases hbot
      · exact hp
    · rw [Bool.eq_false_iff]
      intro hbit
      have hin := (hm.mask i).mp hbit
      omega

theorem mask_disjoint_iff (hn : Masks regMacro g n) :
    m.mask &&& n.mask = 0 ↔ f.range.Apart g.range := by
  constructor
  · intro h i ⟨⟨h₁, h₂⟩, h₃, h₄⟩
    have hbit := congrArg (Nat.testBit · i.toNat) h
    simp only [Nat.testBit_and, Nat.zero_testBit] at hbit
    rw [(hm.mask i.toNat).mpr (by omega), (hn.mask i.toNat).mpr (by omega)] at hbit
    cases hbit
  · intro h
    refine Nat.eq_of_testBit_eq (fun i ↦ ?_)
    rw [Nat.testBit_and, Nat.zero_testBit, Bool.and_eq_false_iff]
    by_contra hne
    simp only [not_or, Bool.not_eq_false] at hne
    exact h i ⟨(hm.mask i).mp hne.1, (hn.mask i).mp hne.2⟩

end Masks

theorem validFields_iff (hp : ∀ field ∈ expanded, parseBitRange field.bits = .ok (some field.range))
    (hl : ∀ field ∈ expanded, 0 ≤ field.range.lsb) : ValidFields expanded ↔
      (∀ f ∈ expanded, f.range.lsb ≤ f.range.msb ∧ f.range.msb ≤ 31) ∧
        expanded.Pairwise fun f g ↦ f.range.Apart g.range := by
  constructor
  · intro ⟨hb, ha⟩
    exact ⟨fun f hf ↦ (hb f hf _ (hp f hf)).2,
      ha.imp_of_mem fun {f g} hf hg h ↦ h _ _ (hp f hf) (hp g hg)⟩
  · intro ⟨hb, ha⟩
    refine ⟨fun f hf r hr ↦ ?_, ha.imp_of_mem fun {f g} hf hg h r q hr hq ↦ ?_⟩
    · rw [hp f hf] at hr
      cases hr
      exact ⟨hl f hf, hb f hf⟩
    · rw [hp f hf] at hr
      rw [hp g hg] at hq
      cases hr
      cases hq
      exact h

theorem sound_iff (h : block namePrefix reg = .ok b) :
    ∃ expanded, expandFields reg.fields = .ok expanded ∧
      (∀ field ∈ expanded, ∀ r, parseBitRange field.bits = .ok (some r) → 0 ≤ r.lsb) ∧
      (b.Sound ↔ ValidFields expanded) := by
  obtain ⟨expanded, he, hall, -, hms, hmem⟩ := block_eq_ok h
  have hp : ∀ f ∈ expanded, parseBitRange f.bits = .ok (some f.range) :=
    fun f hf ↦ (hall f hf).parses
  have hl : ∀ f ∈ expanded, 0 ≤ f.range.lsb := fun f hf ↦ (hall f hf).nonneg.1
  obtain ⟨ms, hms', hmask⟩ := fieldMacros_ok hall
  obtain rfl : b.macros = ms := Except.ok.inj (hms.symm.trans hms')
  have hboth := (List.forall₂_and_left _ _).mpr ⟨hl, hmask⟩
  refine ⟨expanded, he, fun f hf r hr ↦ range_of_parse hr ▸ hl f hf, ?_⟩
  rw [validFields_iff hp hl]
  constructor
  · intro ⟨h₁, h₂, h₃⟩
    refine ⟨fun f hf ↦ ?_, pairwise_of_forall₂ hboth h₂ fun f g m n hm hn hd ↦
      (mask_disjoint_iff hm.2 hm.1 hn.2).mp hd⟩
    obtain ⟨m, hmem, hlf, hmf⟩ := mem_of_forall₂ hboth hf
    exact (mask_bounds_iff hmf hlf).mp (h₁ m hmem)
  · intro ⟨hb, ha⟩
    refine ⟨fun m hm ↦ ?_, pairwise_of_forall₂ hboth.flip ha fun m n f g hm hn hd ↦
      (mask_disjoint_iff hm.2 hm.1 hn.2).mpr hd, ?_⟩
    · obtain ⟨f, hf, hlf, hmf⟩ := mem_of_forall₂ hboth.flip hm
      exact (mask_bounds_iff hmf hlf).mpr (hb f hf)
    · rw [hmem, widths_pos_iff hp]
      exact fun f hf ↦ (hb f hf).1

/-- The generator checks no range: its registers are as sound as their
descriptions are valid, and it refuses none for a range. An exception leaves
the output file as it was. -/
theorem header_unchecked (hash : Data → String) (data : Data) (noOfs noReg : Bool)
    (outputFile : Option String) (ofsPostfix : String) (emitReg : Bool) :
    (∀ header, cheader hash data ofsPostfix emitReg = .ok header →
      List.Forall₂ (fun reg b ↦ ∃ expanded, expandFields reg.fields = .ok expanded ∧
        (∀ field ∈ expanded, ∀ r, parseBitRange field.bits = .ok (some r) → 0 ≤ r.lsb) ∧
        (b.Sound ↔ ValidFields expanded)) data.regs header.blocks) ∧
    ((∃ header, cheader hash data ofsPostfix emitReg = .ok header) ↔
      (data.namePrefix = none → data.regs = []) ∧
        ∀ reg ∈ data.regs, ∃ expanded, expandFields reg.fields = .ok expanded ∧
          ∀ field ∈ expanded, ∃ r, parseBitRange field.bits = .ok (some r) ∧ 0 ≤ r.lsb ∧
            Writable r.width) ∧
    (∀ e, (main hash data noOfs noReg outputFile).1 = .error e →
      (main hash data noOfs noReg outputFile).2 = outputFile) := by
  refine ⟨fun header h ↦ (cheader_blocks h).imp fun reg b ↦ sound_iff, cheader_accepts_iff, ?_⟩
  intro e h
  unfold main at h ⊢
  simp only at h ⊢
  split at h
  · rfl
  · cases h

end Soundness

section Examples

open scoped Python

def invalidRegs : Data :=
  ⟨some "registers", some "SOC",
    [⟨"REVERSED", "", 0, none, none, [⟨"A", "0:3", "", none, none⟩]⟩,
      ⟨"BEYOND", "", 4, none, none, [⟨"B", "31", "", some 2, none⟩]⟩, outEp1St]⟩

theorem not_valid_of_bounds [Unicode] {expanded : List Field} {r : Range} {field : Field}
    (hf : field ∈ expanded) (h : parseBitRange field.bits = .ok (some r))
    (hr : ¬ (r.lsb ≤ r.msb ∧ r.msb ≤ 31)) : ¬ ValidFields expanded := fun hv ↦ hr (hv.bounds field hf r h).2

theorem invalid_accepted : ∃ header, cheader (fun _ ↦ "") invalidRegs "_OFS" true = .ok header ∧
    ∀ reg ∈ invalidRegs.regs, ∀ expanded, expandFields reg.fields = .ok expanded →
      ¬ ValidFields expanded := by
  obtain ⟨header, hh⟩ : ∃ header, (cheader (fun _ ↦ "") invalidRegs "_OFS" true).toOption =
    some header := Option.isSome_iff_exists.mp (by decide +kernel)
  refine ⟨header, ?_, ?_⟩
  · cases hc : cheader (fun _ ↦ "") invalidRegs "_OFS" true with
    | error e => simp [hc, Except.toOption] at hh
    | ok h =>
      rw [hc] at hh
      cases hh
      rfl
  · simp only [invalidRegs, List.forall_mem_cons, List.not_mem_nil, false_implies, implies_true,
      and_true]
    refine ⟨fun expanded he ↦ ?_, fun expanded he ↦ ?_, fun expanded he ↦ ?_⟩
    · rw [show expandFields [⟨"A", "0:3", "", none, none⟩] = .ok [⟨"A", "0:3", "", none, none⟩] by
        decide +kernel] at he
      cases he
      exact not_valid_of_bounds (r := ⟨0, 3⟩) (List.mem_cons_self ..) (by decide) (by decide)
    · rw [show expandFields [⟨"B", "31", "", some 2, none⟩] =
        .ok [⟨"B0", "31", "", some 2, none⟩, ⟨"B1", "32", "", some 2, none⟩] by
          decide +kernel] at he
      cases he
      exact not_valid_of_bounds (r := ⟨32, 32⟩) (List.mem_cons_of_mem _ (List.mem_cons_self ..))
        (by decide) (by decide)
    · rw [show expandFields outEp1St.fields = .ok outEp1St.fields by decide +kernel] at he
      cases he
      intro hv
      have hp := List.pairwise_iff_getElem.mp hv.apart 2 3 (by decide) (by decide) (by decide)
      exact hp ⟨15, 9⟩ ⟨15, 9⟩ (by decide) (by decide) 9
        ⟨⟨by decide, by decide⟩, by decide, by decide⟩

end Examples

end Esp32c6Fw.Docskit
