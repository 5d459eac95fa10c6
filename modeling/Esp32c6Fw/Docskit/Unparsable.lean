import Esp32c6Fw.Docskit.Directives
import Esp32c6Fw.Docskit.Python

namespace Esp32c6Fw.Docskit

open Fallible Numeral Unicode

/-- The whole text is `N` or `M:N` in decimal digits; these are the digits of `M` and of `N`. -/
inductive HasShape [Unicode] (bits : String) : List ℕ → List ℕ → Prop
  | single {ds : List ℕ} : Digits bits.toList ds → ds ≠ [] → HasShape bits ds ds
  | pair {cs cs' : List Char} {ds es : List ℕ} : bits.toList = cs ++ ':' :: cs' → Digits cs ds →
      Digits cs' es → ds ≠ [] → es ≠ [] → HasShape bits ds es

/-- A place among the fields of a register of a description. -/
structure Place where
  desc : Option String
  namePrefix : Option String
  regsBefore : List Reg
  reg : Reg
  regsAfter : List Reg
  fieldsBefore : List Field
  fieldsAfter : List Field

def Place.filledReg (p : Place) (fields : List Field) : Reg :=
  { p.reg with fields := p.fieldsBefore ++ (fields ++ p.fieldsAfter) }

def Place.filled (p : Place) (fields : List Field) : Data :=
  ⟨p.desc, p.namePrefix, p.regsBefore ++ p.filledReg fields :: p.regsAfter⟩

def Emits (namePrefix : String) (reg : Reg) (field : Field) (r : Range) (b : Block) : Prop :=
  .field field.name (r.msb - r.lsb + 1) ∈ b.members ∧
    ∃ m ∈ b.macros, m.name = s!"{namePrefix}_{reg.name}_{field.name}" ∧ m.desc = field.desc ∧
      m.shift = r.lsb ∧ ∀ i : ℕ, m.mask.testBit i ↔ r.lsb ≤ (i : ℤ) ∧ (i : ℤ) ≤ r.msb

/-- What is to become of the bits of a field that is not counted. -/
structure SkipsUnparsable [Unicode] (hash : Data → String) (ofsPostfix : String) (emitReg : Bool)
    (p : Place) (field : Field) : Prop where
  emitted : ∀ ds es, HasShape field.bits ds es → ofDigits es ≤ ofDigits ds → ofDigits ds ≤ 31 →
    ∃ header b, cheader hash (p.filled [field]) ofsPostfix emitReg = .ok header ∧
      generateCheader hash (p.filled [field]) ofsPostfix emitReg = .ok header.text ∧
      header.blocks[p.regsBefore.length]? = some b ∧
      Emits (optText p.namePrefix) p.reg field ⟨ofDigits ds, ofDigits es⟩ b
  skipped : (¬∃ ds es, HasShape field.bits ds es) → ∃ rest rest',
    generateCheader hash (p.filled [field]) ofsPostfix emitReg =
      .ok (hashLines (hash (p.filled [field])) ++ rest) ∧
    generateCheader hash (p.filled []) ofsPostfix emitReg =
      .ok (hashLines (hash (p.filled [])) ++ rest') ∧ unspaced rest = unspaced rest'

structure Place.Accepted [Unicode] (p : Place) : Prop where
  named : p.namePrefix ≠ none
  regs : ∀ reg ∈ p.regsBefore ++ p.regsAfter, ∀ f ∈ reg.fields, f.Placed
  fields : ∀ f ∈ p.fieldsBefore ++ p.fieldsAfter, f.Placed

section Skipping

variable [Unicode] {field : Field} {r : Range} {expanded : List Field} {lastLsb : ℤ} {idx : ℕ}
  {namePrefix : String} {b : Block} {l₁ l₂ : List Field} {bits : String} {ds es : List ℕ}

section Emitted

theorem HasShape.parse (h : HasShape bits ds es) : parseBitRange bits = .ok (some r) ↔
    (ds.length ≤ maxStrDigits ∧ es.length ≤ maxStrDigits) ∧ r = ⟨ofDigits ds, ofDigits es⟩ := by
  cases h with
  | single hd hne =>
    rw [parseBitRange, matchRange_int hd, parseInt_digits hd hne, Option.map_map, Except.ok.injEq,
      Option.map_eq_some_iff]
    simp only [intOfDigits_eq_some, Function.comp_apply, and_self]
    constructor
    · rintro ⟨n, ⟨hle, rfl⟩, rfl⟩
      exact ⟨hle, rfl⟩
    · rintro ⟨hle, rfl⟩
      exact ⟨_, ⟨hle, rfl⟩, rfl⟩
  | pair hb hd he hne hne' =>
    rw [parseBitRange, hb, matchRange_digits hd he hne hne']
    constructor
    · intro h
      simp only at h
      split at h
      next m l hm hl =>
        obtain ⟨hle, rfl⟩ := intOfDigits_eq_some.mp hm
        obtain ⟨hle', rfl⟩ := intOfDigits_eq_some.mp hl
        cases h
        exact ⟨⟨hle, hle'⟩, rfl⟩
      next => cases h
    · rintro ⟨⟨hle, hle'⟩, rfl⟩
      simp only [intOfDigits_eq_some.mpr ⟨hle, rfl⟩, intOfDigits_eq_some.mpr ⟨hle', rfl⟩]

theorem HasShape.unique {ds' es' : List ℕ} (h : HasShape bits ds es)
    (h' : HasShape bits ds' es') : ds = ds' ∧ es = es' := by
  cases h with
  | single hd hne =>
    cases h' with
    | single hd' hne' =>
      have hg := grouped_digits hd hne
      rw [grouped_digits hd' hne'] at hg
      cases hg
      exact ⟨rfl, rfl⟩
    | pair hb' hd' he' hne' hne'' =>
      have hm := matchRange_int hd
      rw [hb', matchRange_digits hd' he' hne' hne''] at hm
      cases hm
  | pair hb hd he hne hne' =>
    have hm := matchRange_digits hd he hne hne'
    rw [← hb] at hm
    cases h' with
    | single hd' =>
      rw [matchRange_int hd'] at hm
      cases hm
    | pair hb' hd' he' hn hn' =>
      rw [hb', matchRange_digits hd' he' hn hn'] at hm
      cases hm
      exact ⟨rfl, rfl⟩

/-- The bits of such a shape that a unit has are placed unless the digits are too many. -/
theorem HasShape.placed_iff (hc : field.count = none) (h : HasShape field.bits ds es)
    (ho : ofDigits es ≤ ofDigits ds) (hb : ofDigits ds ≤ 31) :
    field.Placed ↔ ds.length ≤ maxStrDigits ∧ es.length ≤ maxStrDigits := by
  constructor
  · intro hp
    obtain ⟨r, hr⟩ := hp.parses
    exact (h.parse.mp hr).1
  · intro hle
    have hp := h.parse.mpr ⟨hle, rfl⟩
    have hunit : Writable 32 := by decide
    have hranges : field.ranges = [⟨ofDigits ds, ofDigits es⟩] := by
      simp only [Field.ranges, hp, hc]
    refine ⟨⟨_, hp⟩, ?_, ?_⟩
    · rw [hranges, List.forall_mem_singleton]
      exact ⟨Int.natCast_nonneg _, Int.natCast_nonneg _⟩
    · rw [hranges, List.forall_mem_singleton]
      obtain ⟨hm, hl⟩ := writable_of_parse hp
      refine ⟨hm, hl, writable_of_le hunit ?_⟩
      simp only [Range.width]
      omega

theorem macros_of_mem {regMacro : String} {ms : List FieldMacros} (hf : field ∈ expanded)
    (hp : parseBitRange field.bits = .ok (some r)) (h : fieldMacros regMacro expanded = .ok ms) :
    ∃ m ∈ ms, m.name = s!"{regMacro}_{field.name}" ∧ m.desc = field.desc ∧ m.shift = r.lsb ∧
      getBitMask (some r) = .ok m.mask := by
  induction expanded generalizing ms with
  | nil => cases hf
  | cons g expanded ih =>
    rw [fieldMacros] at h
    rcases List.mem_cons.mp hf with rfl | hf
    · simp only [hp] at h
      obtain ⟨mask, hmask, h⟩ := bind_eq_ok.mp h
      obtain ⟨rest, -, h⟩ := bind_eq_ok.mp h
      cases h
      exact ⟨_, List.mem_cons_self .., rfl, rfl, rfl, hmask⟩
    · split at h
      next => cases h
      next => exact ih hf h
      next q hg =>
        obtain ⟨mask, -, h⟩ := bind_eq_ok.mp h
        obtain ⟨rest, hrest, h⟩ := bind_eq_ok.mp h
        cases h
        obtain ⟨m, hm, he⟩ := ih hf hrest
        exact ⟨m, List.mem_cons_of_mem _ hm, he⟩

/-- A field that is a range comes out with its bits in whatever header there is. -/
theorem emits_of_parse {fs gs : List Field} {reg : Reg} (hc : field.count = none)
    (hp : parseBitRange field.bits = .ok (some r)) (hreg : reg.fields = fs ++ field :: gs)
    (h : block namePrefix reg = .ok b) : Emits namePrefix reg field r b := by
  obtain ⟨expanded, he, hall, -, hm, hmem⟩ := block_eq_ok h
  rw [hreg] at he
  obtain ⟨l₁, l₂, rfl, -⟩ := expandFields_remove hc he
  have hf : field ∈ l₁ ++ field :: l₂ := List.mem_append_right _ (List.mem_cons_self ..)
  have hl : 0 ≤ r.lsb := range_of_parse hp ▸ (hall field hf).nonneg.1
  obtain ⟨m, hmac, hn, hd, hshift, hmask⟩ := macros_of_mem hf hp hm
  obtain ⟨mask, hok, hbits⟩ := getBitMask_testBit hl
  rw [hmask] at hok
  cases hok
  rw [Emits, hmem]
  exact ⟨member_of_mem hf hp, m, hmac, hn, hd, hshift, hbits⟩

end Emitted

section Accepted

theorem filled_accepts_iff {hash : Data → String} {ofsPostfix : String} {emitReg : Bool}
    {p : Place} :
    (∃ header, cheader hash (p.filled [field]) ofsPostfix emitReg = .ok header) ↔
      field.Placed ∧ p.Accepted := by
  have hregs : (p.filled [field]).regs ≠ [] :=
    List.append_ne_nil_of_right_ne_nil _ (List.cons_ne_nil _ _)
  rw [cheader_accepts_iff]
  simp only [expandFields_forall_iff]
  constructor
  · intro h
    obtain ⟨hnamed, hall⟩ := h
    have hown := hall (p.filledReg [field]) (List.mem_append_right _ (List.mem_cons_self ..))
    refine ⟨hown field (List.mem_append_right _ List.mem_cons_self),
      fun hn ↦ hregs (hnamed hn), ?_, ?_⟩
    · intro reg hreg
      apply hall
      rcases List.mem_append.mp hreg with hreg | hreg
      · exact List.mem_append_left _ hreg
      · exact List.mem_append_right _ (List.mem_cons_of_mem _ hreg)
    · intro f hf
      apply hown
      rcases List.mem_append.mp hf with hf | hf
      · exact List.mem_append_left _ hf
      · exact List.mem_append_right _ (List.mem_cons_of_mem _ hf)
  · rintro ⟨hf, h⟩
    refine ⟨fun hn ↦ absurd hn h.named, ?_⟩
    intro reg hreg f hmem
    rcases List.mem_append.mp hreg with hreg | hreg
    · exact h.regs reg (List.mem_append_left _ hreg) f hmem
    rcases List.mem_cons.mp hreg with rfl | hreg
    · rcases List.mem_append.mp hmem with hmem | hmem
      · exact h.fields f (List.mem_append_left _ hmem)
      rcases List.mem_cons.mp hmem with rfl | hmem
      · exact hf
      · exact h.fields f (List.mem_append_right _ hmem)
    · exact h.regs reg (List.mem_append_right _ hreg) f hmem

end Accepted

variable {hash : Data → String} {ofsPostfix : String} {emitReg : Bool} {header header' : Header}
  {p : Place}

theorem sameFrame_filled {fields fields' : List Field}
    (h : cheader hash (p.filled fields) ofsPostfix emitReg = .ok header)
    (h' : cheader hash (p.filled fields') ofsPostfix emitReg = .ok header') :
    header.SameFrame header' := by
  obtain ⟨blocks, rfl, -⟩ := cheader_eq_ok h
  obtain ⟨blocks', rfl, -⟩ := cheader_eq_ok h'
  refine ⟨rfl, rfl, rfl, rfl, ?_⟩
  simp only [Place.filled, List.map_append, List.map_cons]
  rfl

theorem blockTexts_filled {fields : List Field}
    (h : cheader hash (p.filled fields) ofsPostfix emitReg = .ok header) :
    header.blockTexts =
      header.blocks.map (Block.text (optText p.namePrefix) ofsPostfix emitReg) := by
  obtain ⟨blocks, rfl, -⟩ := cheader_eq_ok h
  rfl

/-- An emitted field cannot be taken from its description without a trace. -/
theorem hashes_rest_lt (hc : field.count = none)
    (h : cheader hash (p.filled [field]) ofsPostfix emitReg = .ok header)
    (h' : cheader hash (p.filled []) ofsPostfix emitReg = .ok header') :
    hashes header'.rest < hashes header.rest := by
  have hu : Relator.RightUnique fun reg b ↦ block (optText p.namePrefix) reg = .ok b := by
    intro reg b b' hb hb'
    exact Except.ok.inj (hb.symm.trans hb')
  have hfields : (p.filledReg [field]).fields = p.fieldsBefore ++ field :: p.fieldsAfter := rfl
  have hreg : p.filledReg [] =
      { p.filledReg [field] with fields := p.fieldsBefore ++ p.fieldsAfter } := rfl
  have hlt (b b' : Block) (hb : block (optText p.namePrefix) (p.filledReg [field]) = .ok b)
      (hb' : block (optText p.namePrefix) (p.filledReg []) = .ok b') :
      (hashes ∘ Block.text (optText p.namePrefix) ofsPostfix emitReg) b' <
        (hashes ∘ Block.text (optText p.namePrefix) ofsPostfix emitReg) b := by
    rw [Function.comp_apply, Function.comp_apply]
    exact hashes_block_lt hc hfields hreg hb hb' ofsPostfix emitReg
  have hblocks := cheader_blocks h
  have hblocks' := cheader_blocks h'
  have hsum := sum_lt_of_forall₂ hu hlt hblocks hblocks'
  rw [← List.map_map, ← List.map_map, ← hashes_join, ← hashes_join] at hsum
  obtain ⟨before, after, hrest, hrest'⟩ := (sameFrame_filled h h').rest_eq
  rw [hrest, hrest', blockTexts_filled h, blockTexts_filled h']
  simp only [hashes_append]
  omega

theorem rest_of_generateCheader {data : Data} {rest : String}
    (h : generateCheader hash data ofsPostfix emitReg = .ok (hashLines (hash data) ++ rest)) :
    ∃ header, cheader hash data ofsPostfix emitReg = .ok header ∧ rest = header.rest := by
  obtain ⟨header, hh, h⟩ := bind_eq_ok.mp h
  obtain ⟨blocks, rfl, -⟩ := cheader_eq_ok hh
  refine ⟨_, hh, ?_⟩
  have htext := (Except.ok.inj h).symm
  rw [text_eq] at htext
  exact (String.append_right_inj _).mp htext

theorem exists_block (h : cheader hash (p.filled [field]) ofsPostfix emitReg = .ok header) :
    ∃ b, header.blocks[p.regsBefore.length]? = some b ∧
      block (optText p.namePrefix) (p.filledReg [field]) = .ok b := by
  have hblocks := cheader_blocks h
  have hlt : p.regsBefore.length < (p.filled [field]).regs.length := by
    rw [Place.filled, List.length_append, List.length_cons]
    omega
  have hlt' := hlt
  rw [hblocks.length_eq] at hlt'
  have hb := hblocks.get hlt hlt'
  have hreg : (p.filled [field]).regs.get ⟨p.regsBefore.length, hlt⟩ = p.filledReg [field] :=
    List.getElem_of_append rfl rfl
  rw [hreg] at hb
  exact ⟨_, List.getElem?_eq_getElem hlt', hb⟩

/-- The generator skips no field: without a shape it raises or takes a part for the whole. -/
theorem not_skipsUnparsable (hc : field.count = none)
    (hshape : ¬∃ ds es, HasShape field.bits ds es) :
    ¬SkipsUnparsable hash ofsPostfix emitReg p field := by
  intro h
  obtain ⟨rest, rest', hok, hok', heq⟩ := h.skipped hshape
  obtain ⟨header, hh, rfl⟩ := rest_of_generateCheader hok
  obtain ⟨header', hh', rfl⟩ := rest_of_generateCheader hok'
  exact absurd (hashes_unspaced heq) (Nat.ne_of_gt (hashes_rest_lt hc hh hh'))

/-- The fields with a shape are the ones that are emitted, where their digits are not too many
and the other fields let a header be written at all. -/
theorem skipsUnparsable_iff (hc : field.count = none) :
    SkipsUnparsable hash ofsPostfix emitReg p field ↔
      ∃ ds es, HasShape field.bits ds es ∧ (ofDigits es ≤ ofDigits ds → ofDigits ds ≤ 31 →
        (ds.length ≤ maxStrDigits ∧ es.length ≤ maxStrDigits) ∧ p.Accepted) := by
  constructor
  · intro h
    by_cases hshape : ∃ ds es, HasShape field.bits ds es
    · obtain ⟨ds, es, hs⟩ := hshape
      refine ⟨ds, es, hs, fun ho hb ↦ ?_⟩
      obtain ⟨header, b, hok, -⟩ := h.emitted ds es hs ho hb
      obtain ⟨hplaced, hacc⟩ := filled_accepts_iff.mp ⟨header, hok⟩
      exact ⟨(hs.placed_iff hc ho hb).mp hplaced, hacc⟩
    · exact absurd h (not_skipsUnparsable hc hshape)
  · rintro ⟨ds, es, hs, hif⟩
    constructor
    · intro ds' es' hs' ho hb
      obtain ⟨rfl, rfl⟩ := hs.unique hs'
      obtain ⟨hlen, hacc⟩ := hif ho hb
      have hplaced := (hs.placed_iff hc ho hb).mpr hlen
      obtain ⟨header, hok⟩ := filled_accepts_iff.mpr ⟨hplaced, hacc⟩
      obtain ⟨b, hget, hblock⟩ := exists_block hok
      have hfields : (p.filledReg [field]).fields = p.fieldsBefore ++ field :: p.fieldsAfter := rfl
      have hemits := emits_of_parse hc (hs.parse.mpr ⟨hlen, rfl⟩) hfields hblock
      exact ⟨header, b, hok, generateCheader_of_cheader hok, hget, hemits⟩
    · intro hshape
      exact absurd ⟨ds, es, hs⟩ hshape

theorem chars_of_shape (h : HasShape bits ds es) :
    ∀ c ∈ bits.toList, c = ':' ∨ ∃ d, digit c = some d := by
  have hdigits {cs : List Char} {ds : List ℕ} (hd : Digits cs ds) :
      ∀ c ∈ cs, c = ':' ∨ ∃ d, digit c = some d := by
    intro c hc
    obtain ⟨d, -, hd⟩ := mem_of_forall₂ hd hc
    exact Or.inr ⟨d, hd⟩
  cases h with
  | single hd _ => exact hdigits hd
  | pair hb hd he _ _ =>
    rw [hb]
    intro c hc
    rcases List.mem_append.mp hc with hc | hc
    · exact hdigits hd c hc
    rcases List.mem_cons.mp hc with rfl | hc
    · exact Or.inl rfl
    · exact hdigits he c hc

theorem no_shape {c : Char} (hc : c ∈ bits.toList) (hcolon : c ≠ ':') (hd : digit c = none) :
    ¬∃ ds es, HasShape bits ds es := by
  rintro ⟨ds, es, hs⟩
  obtain he | ⟨d, hd'⟩ := chars_of_shape hs c hc
  · exact hcolon he
  · rw [hd] at hd'
    cases hd'

end Skipping

section Examples

open scoped Python

def statusPlace : Place :=
  ⟨none, some "UART", [], ⟨"STATUS", "Status", 0x1C, none, none, []⟩, [],
    [⟨"BUSY", "0", "", none, none⟩], [⟨"FULL", "7", "", none, none⟩]⟩

theorem placed_bit {name bits desc : String} (bit : ℕ)
    (h : parseBitRange bits = .ok (some ⟨bit, bit⟩)) :
    (⟨name, bits, desc, none, none⟩ : Field).Placed := by
  have hunit : Writable 32 := by decide
  refine placed_iff.mpr ⟨_, expandField_plain rfl, ?_⟩
  rw [List.forall_mem_singleton]
  refine ⟨⟨bit, bit⟩, h, Int.natCast_nonneg bit, writable_of_le hunit ?_⟩
  simp only [Range.width]
  omega

theorem accepted_statusPlace : statusPlace.Accepted := by
  refine ⟨Option.some_ne_none _, fun reg hreg ↦ (by cases hreg), ?_⟩
  rw [statusPlace, List.singleton_append, List.forall_mem_cons, List.forall_mem_singleton]
  exact ⟨placed_bit 0 (by decide), placed_bit 7 (by decide)⟩

theorem skipsUnparsable_iff_status :
    SkipsUnparsable (fun _ ↦ "") "_OFS" true statusPlace ⟨"LEVEL", "6:1", "", none, none⟩ := by
  have hsix : Digits ['6'] [6] := .cons rfl .nil
  have hone : Digits ['1'] [1] := .cons rfl .nil
  have hshape : HasShape "6:1" [6] [1] := .pair rfl hsix hone (by decide) (by decide)
  apply (skipsUnparsable_iff rfl).mpr
  exact ⟨[6], [1], hshape, fun _ _ ↦ ⟨by decide, accepted_statusPlace⟩⟩

/-- No number, and a range with something behind it. -/
theorem unparsable_not_skipped :
    ¬SkipsUnparsable (fun _ ↦ "") "_OFS" true statusPlace ⟨"LEVEL", "abc", "", none, none⟩ ∧
      ¬SkipsUnparsable (fun _ ↦ "") "_OFS" true statusPlace ⟨"LEVEL", "6:1x", "", none, none⟩ := by
  have habc : ¬∃ ds es, HasShape "abc" ds es :=
    @no_shape _ "abc" 'a' (by decide) (by decide) (digit_eq_none (by decide) rfl)
  have hsix : ¬∃ ds es, HasShape "6:1x" ds es :=
    @no_shape _ "6:1x" 'x' (by decide) (by decide) (digit_eq_none (by decide) rfl)
  constructor
  · apply not_skipsUnparsable rfl
    exact habc
  · apply not_skipsUnparsable rfl
    exact hsix

end Examples

end Esp32c6Fw.Docskit
