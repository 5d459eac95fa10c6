import Esp32c6Fw.Docskit.Header

namespace Esp32c6Fw.Docskit

open Fallible Numeral

theorem getBitMask_testBit {r : Range} (hl : 0 ≤ r.lsb) : ∃ mask, getBitMask (some r) = .ok mask ∧
    ∀ i : ℕ, mask.testBit i ↔ r.lsb ≤ (i : ℤ) ∧ (i : ℤ) ≤ r.msb := by
  by_cases hm : r.msb < r.lsb
  · refine ⟨0, by rw [getBitMask, if_pos hm], fun i ↦ ?_⟩
    rw [Nat.zero_testBit]
    simp only [Bool.false_eq_true, false_iff]
    omega
  · refine ⟨((1 <<< (r.msb - r.lsb + 1).toNat) - 1) <<< r.lsb.toNat, ?_, fun i ↦ ?_⟩
    · rw [getBitMask, if_neg hm, if_neg (by omega)]
    · rw [Nat.testBit_shiftLeft, Nat.one_shiftLeft, Nat.testBit_two_pow_sub_one]
      simp only [Bool.and_eq_true, decide_eq_true_eq]
      omega

theorem mapM_write {ms ms' : List Member} :
    ms.mapM Member.write = .ok ms' ↔ ms' = ms ∧ ∀ m ∈ ms, Writable m.width := by
  have hone (m m' : Member) : m.write = .ok m' ↔ m' = m ∧ Writable m.width := by
    rw [Member.write]
    split
    next h => exact ⟨fun he ↦ ⟨(Except.ok.inj he).symm, h⟩, fun he ↦ congrArg _ he.1.symm⟩
    next h => exact ⟨fun he ↦ (by cases he), fun he ↦ absurd he.2 h⟩
  rw [mapM_eq_ok]
  simp only [hone]
  constructor
  · intro h
    induction h with
    | nil => exact ⟨rfl, by simp⟩
    | cons hm _ ih => exact ⟨by rw [hm.1, ih.1], List.forall_mem_cons.mpr ⟨hm.2, ih.2⟩⟩
  · rintro ⟨rfl, h⟩
    exact List.forall₂_same.mpr fun m hm ↦ ⟨rfl, h m hm⟩

variable [Unicode] {field : Field} {fields expanded : List Field} {reg : Reg} {b : Block}
  {r : Range} {regMacro namePrefix : String} {lastLsb : ℤ} {idx : ℕ}

section Expanded

theorem placed_iff :
    field.Placed ↔ ∃ fs, expandField field = .ok fs ∧ ∀ f ∈ fs, f.Emittable := by
  constructor
  · intro h
    obtain ⟨fs, hfs, hranges⟩ := expandField_of_placed h
    obtain ⟨hparse, hmap⟩ := hranges.range
    refine ⟨fs, hfs, fun f hf ↦ ?_⟩
    have hmem : f.range ∈ field.ranges := hmap ▸ List.mem_map_of_mem hf
    exact ⟨f.range, hparse f hf, (h.nonneg _ hmem).1, (h.writable _ hmem).width⟩
  · rintro ⟨fs, hok, hfs⟩
    cases hc : field.count with
    | none =>
      rw [expandField_plain hc] at hok
      cases hok
      obtain ⟨r, hr, hl, hw⟩ := hfs field (List.mem_singleton_self field)
      have hranges : field.ranges = [r] := by
        simp only [Field.ranges, hr, hc]
      have hn := nonneg_of_parse hr
      obtain ⟨hm, hl'⟩ := writable_of_parse hr
      refine ⟨⟨r, hr⟩, ?_, ?_⟩
      · rw [hranges, List.forall_mem_singleton]
        omega
      · rw [hranges, List.forall_mem_singleton]
        exact ⟨hm, hl', hw⟩
    | some count =>
      have hok' := hok
      rw [expandField, hc] at hok'
      simp only at hok'
      split at hok'
      next => cases hok'
      next => cases hok'
      next range hr =>
        have hinst := (expandField_counted hc hr).mp hok
        have hall (i : ℕ) (hi : i ∈ List.range count.toNat) :
            (0 ≤ (field.nthRange range i).lsb ∧ 0 ≤ (field.nthRange range i).msb) ∧
              (field.nthRange range i).Writable := by
          obtain ⟨f, hf, ⟨hm, hl⟩, rfl⟩ := mem_of_forall₂ hinst hi
          obtain ⟨q, hq, hlq, hw⟩ := hfs _ hf
          have hn := nonneg_of_text hl hq hlq
          have hparse := parseBitRange_text hn.1 hn.2 hm hl
          obtain rfl : field.nthRange range i = q :=
            Option.some.inj (Except.ok.inj (hparse.symm.trans hq))
          exact ⟨hn, hm, hl, hw⟩
        have hranges : field.ranges = (List.range count.toNat).map (field.nthRange range) := by
          simp only [Field.ranges, hr, hc]
        refine ⟨⟨range, hr⟩, ?_, ?_⟩
        · rw [hranges, List.forall_mem_map]
          exact fun i hi ↦ (hall i hi).1
        · rw [hranges, List.forall_mem_map]
          exact fun i hi ↦ (hall i hi).2

theorem expandFields_forall_iff :
    (∃ expanded, expandFields fields = .ok expanded ∧ ∀ f ∈ expanded, f.Emittable) ↔
      ∀ field ∈ fields, field.Placed := by
  simp only [placed_iff]
  constructor
  · rintro ⟨expanded, he, hP⟩ field hfield
    obtain ⟨fss, hfss, -, rfl⟩ := expandFields_eq_ok.mp he
    obtain ⟨fs, hfs, hok⟩ := mem_of_forall₂ hfss hfield
    refine ⟨fs, hok, fun f hf ↦ hP f ?_⟩
    rw [List.mem_insertionSort]
    exact List.mem_flatten_of_mem hfs hf
  · intro h
    obtain ⟨fss, hm, hall⟩ := exists_mapM h
    have hflat : ∀ f ∈ fss.flatten, f.Emittable := by
      intro f hf
      obtain ⟨fs, hfs, hf⟩ := List.mem_flatten.mp hf
      obtain ⟨field, -, hfs⟩ := mem_of_forall₂ hall.flip hfs
      exact hfs f hf
    refine ⟨_, expandFields_eq_ok.mpr ⟨fss, mapM_eq_ok.mp hm, ?_, rfl⟩, ?_⟩
    · intro f hf
      obtain ⟨r, hr, -⟩ := hflat f hf
      exact ⟨some r, hr⟩
    · intro f hf
      exact hflat f ((List.mem_insertionSort _).mp hf)

theorem Field.Emittable.parses (h : field.Emittable) :
    parseBitRange field.bits = .ok (some field.range) := by
  obtain ⟨r, hr, -⟩ := h
  rw [range_of_parse hr, hr]

theorem Field.Emittable.nonneg (h : field.Emittable) :
    0 ≤ field.range.lsb ∧ 0 ≤ field.range.msb := by
  obtain ⟨r, hr, hl, -⟩ := h
  have hn := nonneg_of_parse hr
  rw [range_of_parse hr]
  omega

theorem emittable_iff (hp : parseBitRange field.bits = .ok (some field.range)) :
    field.Emittable ↔ 0 ≤ field.range.lsb ∧ Writable field.range.width := by
  constructor
  · rintro ⟨r, hr, hl, hw⟩
    rw [range_of_parse hr]
    exact ⟨hl, hw⟩
  · exact fun ⟨hl, hw⟩ ↦ ⟨field.range, hp, hl, hw⟩

end Expanded

section Members

theorem member_of_mem (hf : field ∈ expanded) (hp : parseBitRange field.bits = .ok (some r)) :
    .field field.name r.width ∈ members lastLsb idx expanded := by
  induction expanded generalizing lastLsb idx with
  | nil => cases hf
  | cons g expanded ih =>
    rw [members]
    rcases List.mem_cons.mp hf with rfl | hf
    · simp only [hp]
      split
      · exact List.mem_cons_of_mem _ (List.mem_cons_self ..)
      · exact List.mem_cons_self ..
    · split
      · split
        · exact List.mem_cons_of_mem _ (List.mem_cons_of_mem _ (ih hf))
        · exact List.mem_cons_of_mem _ (ih hf)
      · exact ih hf

theorem writable_members (hpos : 0 ≤ lastLsb) (h : ∀ f ∈ expanded, f.Emittable) :
    ∀ m ∈ members lastLsb idx expanded, Writable m.width := by
  induction expanded generalizing lastLsb idx with
  | nil =>
    have hunit : Writable 32 := by decide
    rw [members]
    split
    · rw [List.forall_mem_singleton, Member.width_rsvd]
      exact writable_of_le hunit (by omega)
    · simp
  | cons f expanded ih =>
    rw [List.forall_mem_cons] at h
    obtain ⟨hf, h⟩ := h
    have hp := hf.parses
    have hn := hf.nonneg
    have hwidth : Writable (f.range.msb - f.range.lsb + 1) := ((emittable_iff hp).mp hf).2
    have hgap := (writable_of_parse hp).2
    rw [members]
    simp only [hp]
    split
    · rw [List.forall_mem_cons, List.forall_mem_cons]
      refine ⟨?_, hwidth, ih (by omega) h⟩
      exact writable_of_le hgap (by rw [Member.width_rsvd]; omega)
    · rw [List.forall_mem_cons]
      exact ⟨hwidth, ih (by omega) h⟩

end Members

section Macros

structure Masks (regMacro : String) (field : Field) (m : FieldMacros) : Prop where
  name : m.name = s!"{regMacro}_{field.name}"
  shift : m.shift = field.range.lsb
  mask : ∀ i, m.mask.testBit i ↔ field.range.lsb ≤ (i : ℤ) ∧ (i : ℤ) ≤ field.range.msb

theorem fieldMacros_ok (h : ∀ f ∈ expanded, f.Emittable) :
    ∃ ms, fieldMacros regMacro expanded = .ok ms ∧
      List.Forall₂ (Masks regMacro) expanded ms := by
  induction expanded with
  | nil => exact ⟨[], rfl, .nil⟩
  | cons f expanded ih =>
    rw [List.forall_mem_cons] at h
    obtain ⟨ms, hms, hf⟩ := ih h.2
    obtain ⟨mask, hmask, hbits⟩ := getBitMask_testBit h.1.nonneg.1
    refine ⟨⟨s!"{regMacro}_{f.name}", f.desc, f.range.lsb, mask⟩ :: ms, ?_,
      .cons ⟨rfl, rfl, hbits⟩ hf⟩
    simp only [fieldMacros, h.1.parses, hmask, hms]
    rfl

theorem nonneg_of_getBitMask {bits : String} (h : parseBitRange bits = .ok (some r)) {mask : ℕ}
    (hm : getBitMask (some r) = .ok mask) : 0 ≤ r.lsb := by
  rcases nonneg_of_parse h with ⟨hl, -⟩ | he
  · exact hl
  · by_contra hl
    rw [getBitMask, if_neg (by omega), if_pos (by omega)] at hm
    cases hm

theorem nonneg_of_fieldMacros {ms : List FieldMacros} (h : fieldMacros regMacro expanded = .ok ms)
    (hp : ∀ f ∈ expanded, parseBitRange f.bits = .ok (some f.range)) :
    ∀ f ∈ expanded, 0 ≤ f.range.lsb := by
  induction expanded generalizing ms with
  | nil => simp
  | cons f expanded ih =>
    rw [List.forall_mem_cons] at hp
    simp only [fieldMacros, hp.1] at h
    obtain ⟨mask, hmask, h⟩ := bind_eq_ok.mp h
    obtain ⟨rest, hrest, -⟩ := bind_eq_ok.mp h
    exact List.forall_mem_cons.mpr ⟨nonneg_of_getBitMask hp.1 hmask, ih hrest hp.2⟩

end Macros

section Blocks

variable {data : Data} {ofsPostfix : String} {emitReg : Bool} {hash : Data → String}
  {header : Header}

theorem fieldPadding_ok (hp : ∀ f ∈ expanded, parseBitRange f.bits = .ok (some f.range))
    (lastLsb : ℤ) (rsvdCnt padding : ℕ) :
    ∃ n, fieldPadding lastLsb rsvdCnt padding expanded = .ok n := by
  induction expanded generalizing lastLsb rsvdCnt padding with
  | nil => exact ⟨_, rfl⟩
  | cons f expanded ih =>
    rw [List.forall_mem_cons] at hp
    simp only [fieldPadding, hp.1]
    exact ih hp.2 _ _ _

theorem parses_of_fieldPadding {rsvdCnt padding k : ℕ}
    (h : fieldPadding lastLsb rsvdCnt padding expanded = .ok k) :
    ∀ f ∈ expanded, parseBitRange f.bits = .ok (some f.range) := by
  induction expanded generalizing lastLsb rsvdCnt padding with
  | nil => simp
  | cons f expanded ih =>
    rw [fieldPadding] at h
    split at h
    next => cases h
    next => cases h
    next range hp => exact List.forall_mem_cons.mpr ⟨by rw [range_of_parse hp, hp], ih h⟩

/-- What there is to a block: all of it comes from the expanded fields. -/
theorem block_eq_ok (h : block namePrefix reg = .ok b) : ∃ expanded,
    expandFields reg.fields = .ok expanded ∧ (∀ f ∈ expanded, f.Emittable) ∧ b.reg = reg ∧
      fieldMacros s!"{namePrefix}_{reg.name}" expanded = .ok b.macros ∧
      b.members = members 0 0 expanded := by
  obtain ⟨expanded, he, h⟩ := bind_eq_ok.mp h
  obtain ⟨padding, hpad, h⟩ := bind_eq_ok.mp h
  obtain ⟨ms, hms, h⟩ := bind_eq_ok.mp h
  obtain ⟨macros, hmac, h⟩ := bind_eq_ok.mp h
  cases h
  obtain ⟨rfl, hw⟩ := mapM_write.mp hms
  have hp := parses_of_fieldPadding hpad
  have hl := nonneg_of_fieldMacros hmac hp
  refine ⟨expanded, he, fun f hf ↦ ?_, rfl, hmac, rfl⟩
  exact ⟨f.range, hp f hf, hl f hf, hw _ (member_of_mem hf (hp f hf))⟩

theorem block_accepts (he : expandFields reg.fields = .ok expanded)
    (hall : ∀ f ∈ expanded, f.Emittable) (namePrefix : String) :
    ∃ b, block namePrefix reg = .ok b := by
  have hparse : ∀ f ∈ expanded, parseBitRange f.bits = .ok (some f.range) :=
    fun f hf ↦ (hall f hf).parses
  obtain ⟨padding, hpad⟩ := fieldPadding_ok hparse 0 0 0
  obtain ⟨ms, hms, -⟩ := @fieldMacros_ok _ expanded s!"{namePrefix}_{reg.name}" hall
  have hwrite : ∀ m ∈ members 0 0 expanded, Writable m.width := writable_members le_rfl hall
  have hmem := mapM_write.mpr ⟨rfl, hwrite⟩
  refine ⟨⟨reg, padding, members 0 0 expanded, ms⟩, ?_⟩
  rw [block, he]
  simp only [bind, Except.bind, hpad, hmem, hms]
  rfl

theorem cheader_eq_ok (h : cheader hash data ofsPostfix emitReg = .ok header) :
    ∃ blocks, header = ⟨hash data, data.desc, data.namePrefix, ofsPostfix, emitReg, data.regs,
      blocks⟩ ∧
      List.Forall₂ (fun reg b ↦ block (optText data.namePrefix) reg = .ok b) data.regs blocks := by
  rw [cheader] at h
  split at h
  · cases h
  · obtain ⟨blocks, hb, h⟩ := bind_eq_ok.mp h
    cases h
    exact ⟨blocks, rfl, mapM_eq_ok.mp hb⟩

theorem cheader_hash (h : cheader hash data ofsPostfix emitReg = .ok header) :
    header.hash = hash data := by
  obtain ⟨blocks, rfl, -⟩ := cheader_eq_ok h
  rfl

theorem cheader_blocks (h : cheader hash data ofsPostfix emitReg = .ok header) :
    List.Forall₂ (fun reg b ↦ block (optText data.namePrefix) reg = .ok b) data.regs
      header.blocks := by
  obtain ⟨blocks, rfl, hb⟩ := cheader_eq_ok h
  exact hb

theorem generateCheader_of_cheader (h : cheader hash data ofsPostfix emitReg = .ok header) :
    generateCheader hash data ofsPostfix emitReg = .ok header.text := by
  rw [generateCheader, h]
  rfl

/-- What the generator accepts: it checks no range beyond that. -/
theorem cheader_accepts_iff :
    (∃ header, cheader hash data ofsPostfix emitReg = .ok header) ↔
      (data.namePrefix = none → data.regs = []) ∧
        ∀ reg ∈ data.regs, ∃ expanded, expandFields reg.fields = .ok expanded ∧
          ∀ f ∈ expanded, f.Emittable := by
  constructor
  · rintro ⟨header, h⟩
    constructor
    · intro hn
      by_contra hregs
      rw [cheader, if_pos ⟨hn, hregs⟩] at h
      cases h
    · intro reg hreg
      obtain ⟨b, -, hb⟩ := mem_of_forall₂ (cheader_blocks h) hreg
      obtain ⟨expanded, he, hall, -⟩ := block_eq_ok hb
      exact ⟨expanded, he, hall⟩
  · rintro ⟨hnamed, h⟩
    obtain ⟨blocks, hb, -⟩ := exists_mapM (R := fun _ _ ↦ True)
      (f := block (optText data.namePrefix)) fun reg hr ↦ by
        obtain ⟨expanded, he, hall⟩ := h reg hr
        obtain ⟨b, hb⟩ := block_accepts he hall (optText data.namePrefix)
        exact ⟨b, hb, trivial⟩
    refine ⟨⟨hash data, data.desc, data.namePrefix, ofsPostfix, emitReg, data.regs, blocks⟩, ?_⟩
    rw [cheader, if_neg fun hn ↦ hn.2 (hnamed hn.1), hb]
    rfl

end Blocks

end Esp32c6Fw.Docskit
