import Esp32c6Fw.Docskit.Consistency
import Esp32c6Fw.Lib.Constant
import Esp32c6Fw.Lib.Packing

namespace Esp32c6Fw.Docskit

open Fallible Packing

namespace FieldMacros

def accessor (m : FieldMacros) : Accessor 32 := ⟨m.shift.toNat, BitVec.ofNat 32 m.mask⟩

/-- The macro `VALUE`, on a `uint32_t`. -/
def value (m : FieldMacros) (raw : BitVec 32) : BitVec 32 :=
  (raw &&& BitVec.ofNat 32 m.mask) >>> m.shift.toNat

/-- The macro `RAW`, on a `uint32_t`. -/
def raw (m : FieldMacros) (value : BitVec 32) : BitVec 32 := value <<< m.shift.toNat

def update (m : FieldMacros) (raw value : BitVec 32) : BitVec 32 :=
  (raw &&& ~~~BitVec.ofNat 32 m.mask) ||| m.raw value

end FieldMacros

/-- A macro body that is an integer constant in parentheses. -/
def Denotes (body : String) (n : ℕ) : Prop :=
  ∃ cs, body.toList = "( ".toList ++ cs ++ " )".toList ∧ Constant.read cs = some n

/-- The lines of a field define its shift and its mask, and by these what `value` and `raw` are. -/
structure FieldMacros.Written (m : FieldMacros) : Prop where
  shift : ∃ d ∈ m.defines, d.name = s!"{m.name}_SHIFT" ∧ d.params = "" ∧
    Denotes d.value m.shift.toNat
  mask : ∃ d ∈ m.defines, d.name = s!"{m.name}_MASK" ∧ d.params = "" ∧ Denotes d.value m.mask
  value : ∃ d ∈ m.defines, d.name = s!"{m.name}_VALUE" ∧ d.params = "(raw)" ∧
    d.value = s!"( ((raw) & ({m.name}_MASK)) >> ({m.name}_SHIFT) )"
  raw : ∃ d ∈ m.defines, d.name = s!"{m.name}_RAW" ∧ d.params = "(value)" ∧
    d.value = s!"( (value) << ({m.name}_SHIFT) )"

def rawAll (ms : List FieldMacros) (values : List (BitVec 32)) : BitVec 32 :=
  orAll (List.zipWith FieldMacros.raw ms values)

def maskAll (ms : List FieldMacros) : BitVec 32 := orAll (ms.map fun m ↦ BitVec.ofNat 32 m.mask)

def Field.width [Unicode] (field : Field) : ℕ := (field.range.msb - field.range.lsb + 1).toNat

def Field.Holds [Unicode] (field : Field) (value : BitVec 32) : Prop :=
  value.toNat < 2 ^ field.width

structure PacksFaithfully [Unicode] (expanded : List Field) (ms : List FieldMacros) : Prop where
  unpack : ∀ values, List.Forall₂ Field.Holds expanded values →
    ms.map (·.value (rawAll ms values)) = values
  pack : ∀ raw, rawAll ms (ms.map (·.value raw)) = raw &&& maskAll ms
  change : ∀ (i : ℕ) (f : Field) (m : FieldMacros), expanded[i]? = some f → ms[i]? = some m →
    ∀ raw v, f.Holds v →
      m.value (m.update raw v) = v ∧
        (∀ (j : ℕ) (n : FieldMacros), j ≠ i → ms[j]? = some n →
          n.value (m.update raw v) = n.value raw) ∧
        m.update raw v &&& ~~~maskAll ms = raw &&& ~~~maskAll ms

theorem denotes_mask (n : ℕ) : Denotes s!"( 0x{hexText 8 n} )" n := by
  have hneg : ¬(n : ℤ) < 0 := by omega
  have hdigits : (hexText 8 n).toList =
      List.replicate (8 - (Nat.toDigits 16 n).length) '0' ++
        (Nat.toDigits 16 n).map Char.toUpper := by
    simp only [hexText, if_neg hneg, String.toList_ofList, Int.natAbs_natCast, List.length_map]
    rfl
  refine ⟨'0' :: 'x' :: (hexText 8 n).toList, ?_, ?_⟩
  · rw [String.toList_append, String.toList_append]
    rfl
  · rw [hdigits]
    exact Constant.read_hex _ n

theorem denotes_shift {z : ℤ} (h : 0 ≤ z) : Denotes s!"( {z} )" z.toNat := by
  refine ⟨(toString z).toList, ?_, ?_⟩
  · rw [String.toList_append, String.toList_append]
    rfl
  · rw [Numeral.toList_toString, if_pos h]
    exact Constant.read_toDigits z.toNat

theorem FieldMacros.written {m : FieldMacros} (h : 0 ≤ m.shift) : m.Written where
  shift := by
    refine ⟨⟨s!"{m.name}_SHIFT", "", m.name.length + 11, s!"( {m.shift} )"⟩, ?_, rfl, rfl,
      denotes_shift h⟩
    exact List.mem_cons_of_mem _ List.mem_cons_self
  mask := by
    refine ⟨⟨s!"{m.name}_MASK", "", m.name.length + 11, s!"( 0x{hexText 8 m.mask} )"⟩, ?_, rfl, rfl,
      denotes_mask m.mask⟩
    exact List.mem_cons_of_mem _ (List.mem_cons_of_mem _ List.mem_cons_self)
  value := by
    refine ⟨⟨s!"{m.name}_VALUE", "(raw)", m.name.length + 11,
      s!"( ((raw) & ({m.name}_MASK)) >> ({m.name}_SHIFT) )"⟩, ?_, rfl, rfl, rfl⟩
    exact List.mem_of_getElem? (show m.defines[3]? = some _ from rfl)
  raw := by
    refine ⟨⟨s!"{m.name}_RAW", "(value)", m.name.length + 11,
      s!"( (value) << ({m.name}_SHIFT) )"⟩, ?_, rfl, rfl, rfl⟩
    exact List.mem_of_getElem? (show m.defines[4]? = some _ from rfl)

section Faithful

variable [Unicode] {expanded : List Field} {regMacro : String} {ms : List FieldMacros} {reg : Reg}
  {f : Field} {m : FieldMacros}

theorem Masks.spans (h : Masks regMacro f m) (hl : 0 ≤ f.range.lsb)
    (hm : f.range.lsb ≤ f.range.msb) (hu : f.range.msb ≤ 31) : m.accessor.Spans f.width := by
  have hs := h.shift
  constructor
  · simp only [FieldMacros.accessor, Field.width]
    omega
  · intro i
    have hmask := h.mask i
    simp only [FieldMacros.accessor, Field.width, BitVec.getLsbD_ofNat, Bool.and_eq_true,
      decide_eq_true_eq, hmask]
    omega

theorem Masks.apart {g : Field} {n : FieldMacros} (hm : Masks regMacro f m)
    (hn : Masks regMacro g n) (hl : 0 ≤ f.range.lsb) (h : f.range.Apart g.range) :
    m.accessor.mask &&& n.accessor.mask = 0#32 := by
  have hz := (mask_disjoint_iff hm hl hn).mpr h
  simp only [FieldMacros.accessor]
  rw [← BitVec.ofNat_and, hz]

theorem packsFaithfully (h : List.Forall₂ (Masks regMacro) expanded ms)
    (hb : ∀ f ∈ expanded, 0 ≤ f.range.lsb ∧ f.range.lsb ≤ f.range.msb ∧ f.range.msb ≤ 31)
    (ha : expanded.Pairwise fun f g ↦ f.range.Apart g.range) : PacksFaithfully expanded ms := by
  have hspans : List.Forall₂ (fun f m ↦ m.accessor.Spans f.width) expanded ms :=
    ((List.forall₂_and_left _ _).mpr ⟨hb, h⟩).imp fun f m ⟨⟨hl, hm, hu⟩, hmask⟩ ↦
      hmask.spans hl hm hu
  have hapart : ms.Pairwise fun m n ↦ m.accessor.mask &&& n.accessor.mask = 0#32 :=
    pairwise_of_forall₂ ((List.forall₂_and_left _ _).mpr ⟨hb, h⟩).flip ha
      fun m n f g hm hn hd ↦ hm.2.apart hn.2 hm.1.1 hd
  have hpacked (values : List (BitVec 32)) :
      packed (ms.map FieldMacros.accessor) values = rawAll ms values := by
    rw [packed, List.zipWith_map_left]
    rfl
  have hmasks : masks (ms.map FieldMacros.accessor) = maskAll ms := by
    rw [masks, List.map_map]
    rfl
  refine ⟨fun values hv ↦ ?_, fun raw ↦ ?_, fun i f m hf hm raw v hv ↦ ?_⟩
  · have hfits : List.Forall₂ Accessor.Fits (ms.map FieldMacros.accessor) values := by
      rw [List.forall₂_map_left_iff]
      exact forall₂_comp hspans hv fun f m v hs hh ↦ hs.fits hh
    have hu := map_value_packed hfits (List.pairwise_map.mpr hapart)
    rw [hpacked, List.map_map] at hu
    exact hu
  · have hall : ∀ a ∈ ms.map FieldMacros.accessor, ∃ width, a.Spans width := by
      intro a ha
      obtain ⟨m, hm, rfl⟩ := List.mem_map.mp ha
      obtain ⟨f, -, hs⟩ := mem_of_forall₂ hspans.flip hm
      exact ⟨f.width, hs⟩
    have hp := packed_map_value hall raw
    rw [hpacked, hmasks, List.map_map] at hp
    exact hp
  · have hfits : m.accessor.Fits v := (forall₂_getElem? hspans hf hm).fits hv
    refine ⟨value_updated_self hfits raw, fun j n hj hn ↦ ?_, ?_⟩
    · exact value_updated_of_apart hfits
        (pairwise_getElem? (fun h ↦ BitVec.and_comm .. ▸ h) hapart (Ne.symm hj) hm hn) raw
    · rw [← hmasks]
      exact updated_and_not_masks hfits
        (List.mem_map_of_mem (List.mem_of_getElem? hm)) raw

theorem macros_faithful (he : expandFields reg.fields = .ok expanded)
    (hp : ∀ field ∈ expanded, ∃ r, parseBitRange field.bits = .ok (some r))
    (hv : ValidFields expanded) (namePrefix : String) : ∃ b, block namePrefix reg = .ok b ∧
      b.macros.map (·.name) = expanded.map (fun f ↦ s!"{namePrefix}_{reg.name}_{f.name}") ∧
      (∀ m ∈ b.macros, m.Written) ∧ PacksFaithfully expanded b.macros := by
  have hunit : Numeral.Writable 32 := by decide
  have hall : ∀ f ∈ expanded, f.Emittable := by
    intro f hf
    obtain ⟨r, hr⟩ := hp f hf
    obtain ⟨hl, hm, hu⟩ := hv.bounds f hf r hr
    exact ⟨r, hr, hl, Numeral.writable_of_le hunit (by rw [Range.width]; omega)⟩
  have hparse : ∀ f ∈ expanded, parseBitRange f.bits = .ok (some f.range) :=
    fun f hf ↦ (hall f hf).parses
  have hl : ∀ f ∈ expanded, 0 ≤ f.range.lsb := fun f hf ↦ (hall f hf).nonneg.1
  obtain ⟨b, hb⟩ := block_accepts he hall namePrefix
  obtain ⟨expanded', he', -, -, hms, -⟩ := block_eq_ok hb
  obtain rfl : expanded = expanded' := Except.ok.inj (he.symm.trans he')
  obtain ⟨ms, hms', hmask⟩ := @fieldMacros_ok _ _ s!"{namePrefix}_{reg.name}" hall
  obtain rfl : b.macros = ms := Except.ok.inj (hms.symm.trans hms')
  obtain ⟨hbounds, hapart⟩ := (validFields_iff hparse hl).mp hv
  refine ⟨b, hb, ?_, fun m hm ↦ ?_,
    packsFaithfully hmask (fun f hf ↦ ⟨hl f hf, hbounds f hf⟩) hapart⟩
  · rw [← List.forall₂_eq_eq_eq, List.forall₂_map_left_iff, List.forall₂_map_right_iff]
    exact (hmask.imp fun f m h ↦ h.name).flip
  · obtain ⟨f, hf, hmf⟩ := mem_of_forall₂ hmask.flip hm
    exact FieldMacros.written (hmf.shift ▸ hl f hf)

end Faithful

section Examples

open scoped Python

/-- A status bit, an array of two three-bit fields and one that touches bit 31. -/
def packedReg : Reg :=
  ⟨"CTRL", "", 0, none, none, [⟨"MODE", "31:24", "", none, none⟩, ⟨"SEL", "3:1", "", some 2, none⟩,
    ⟨"BUSY", "0", "", none, none⟩]⟩

def packedFields : List Field :=
  [⟨"BUSY", "0", "", none, none⟩, ⟨"SEL0", "3:1", "", some 2, none⟩,
    ⟨"SEL1", "6:4", "", some 2, none⟩, ⟨"MODE", "31:24", "", none, none⟩]

theorem expandFields_packedReg : expandFields packedReg.fields = .ok packedFields := by
  decide +kernel

theorem validFields_of_ranges [Unicode] {expanded : List Field} {rs : List Range}
    (h : HasRanges expanded rs) (hb : ∀ r ∈ rs, 0 ≤ r.lsb ∧ r.lsb ≤ r.msb ∧ r.msb ≤ 31)
    (ha : rs.Pairwise fun r q ↦ r.msb < q.lsb) : ValidFields expanded := by
  obtain ⟨hparse, hrange⟩ := h.range
  have hmem (f : Field) (hf : f ∈ expanded) : f.range ∈ rs := hrange ▸ List.mem_map_of_mem hf
  rw [← hrange, List.pairwise_map] at ha
  rw [validFields_iff hparse fun f hf ↦ (hb _ (hmem f hf)).1]
  refine ⟨fun f hf ↦ (hb _ (hmem f hf)).2, ha.imp fun {f g} hlt i ⟨hi, hi'⟩ ↦ ?_⟩
  have hf := hi.2
  have hg := hi'.1
  omega

def packedRanges : List Range := [⟨0, 0⟩, ⟨3, 1⟩, ⟨6, 4⟩, ⟨31, 24⟩]

theorem hasRanges_packed : HasRanges packedFields packedRanges := by
  unfold HasRanges
  decide +kernel

theorem macros_faithful_ctrl : ∃ b, block "SOC" packedReg = .ok b ∧
    b.macros.map (·.name) = packedFields.map (fun f ↦ s!"SOC_CTRL_{f.name}") ∧
      (∀ m ∈ b.macros, m.Written) ∧ PacksFaithfully packedFields b.macros :=
  macros_faithful expandFields_packedReg
    (fun field hf ↦ ⟨field.range, hasRanges_packed.range.1 field hf⟩)
    (validFields_of_ranges hasRanges_packed (by decide) (by decide)) "SOC"

end Examples

end Esp32c6Fw.Docskit
