import Esp32c6Fw.Lib.Fallible
import Esp32c6Fw.Lib.Numeral
import Mathlib.Data.List.Sort

namespace Esp32c6Fw.Docskit

open Fallible Numeral Unicode

inductive Error
  | typeError
  | valueError
  deriving DecidableEq

structure Field where
  name : String
  bits : String
  desc : String
  count : Option ℤ
  stride : Option ℤ
  deriving DecidableEq

structure Reg where
  name : String
  desc : String
  offset : ℤ
  count : Option ℤ
  stride : Option ℤ
  fields : List Field
  deriving DecidableEq

/-- A parsed description; `namePrefix` is its `prefix`. -/
structure Data where
  desc : Option String
  namePrefix : Option String
  regs : List Reg
  deriving DecidableEq

structure Range where
  msb : ℤ
  lsb : ℤ
  deriving DecidableEq

namespace Range

def text (r : Range) : String := if r.msb ≠ r.lsb then s!"{r.msb}:{r.lsb}" else s!"{r.lsb}"

/-- The text, where its numbers are not too long. -/
def write (r : Range) : Except Error String :=
  if Writable r.msb ∧ Writable r.lsb then .ok r.text else .error .valueError

def shift (r : Range) (n : ℤ) : Range := ⟨r.msb + n, r.lsb + n⟩

def width (r : Range) : ℤ := r.msb - r.lsb + 1

variable {r : Range}

theorem text_eq_toString (h : r.msb = r.lsb) : r.text = toString r.lsb := by
  rw [Range.text, if_neg (not_not_intro h)]

theorem toList_text (h : r.msb ≠ r.lsb) :
    r.text.toList = (toString r.msb).toList ++ ':' :: (toString r.lsb).toList := by
  rw [Range.text, if_pos h, String.toList_append, String.toList_append, List.append_assoc]
  rfl

theorem write_eq_ok {bits : String} :
    r.write = .ok bits ↔ (Writable r.msb ∧ Writable r.lsb) ∧ bits = r.text := by
  rw [write]
  split
  next h => exact ⟨fun he ↦ ⟨h, (Except.ok.inj he).symm⟩, fun he ↦ congrArg _ he.2.symm⟩
  next h => exact ⟨fun he ↦ (by cases he), fun he ↦ absurd he.1 h⟩

end Range

/-- A shift by a negative number raises. -/
def getBitMask : Option Range → Except Error ℕ
  | none => .ok 0
  | some ⟨msb, lsb⟩ =>
    if msb < lsb then .ok 0
    else if lsb < 0 then .error .valueError
    else
      let width := msb - lsb + 1
      let mask := (1 <<< width.toNat) - 1
      .ok (mask <<< lsb.toNat)

def regInstances (reg : Reg) : List (String × ℤ) :=
  match reg.count with
  | none => [(reg.name, reg.offset)]
  | some count =>
    let stride := reg.stride.getD 1
    (List.range count.toNat).map fun (n : ℕ) ↦ (s!"{reg.name}{n}", reg.offset + n * stride)

structure Range.Writable (r : Range) : Prop where
  msb : Numeral.Writable r.msb
  lsb : Numeral.Writable r.lsb
  width : Numeral.Writable r.width

instance (r : Range) : Decidable r.Writable :=
  decidable_of_iff (Numeral.Writable r.msb ∧ Numeral.Writable r.lsb ∧ Numeral.Writable r.width)
    ⟨fun h ↦ ⟨h.1, h.2.1, h.2.2⟩, fun h ↦ ⟨h.msb, h.lsb, h.width⟩⟩

def Field.numbered (field : Field) (i : ℕ) (bits : String) : Field :=
  { field with name := s!"{field.name}{i}", bits := bits }

def Field.nthRange (field : Field) (range : Range) (i : ℕ) : Range :=
  let stride := field.stride.getD (range.msb - range.lsb + 1)
  range.shift (i * stride)

section Parsing

variable [Unicode]

/-- `re.match` of digits, a colon and digits at the start of the text, by its groups. -/
def matchRange (bits : List Char) : Option (List ℕ × List ℕ) :=
  match spanDigits bits with
  | (d :: ds, ':' :: rest) =>
    match spanDigits rest with
    | (e :: es, _) => some (d :: ds, e :: es)
    | ([], _) => none
  | _ => none

/-- Only the last `int` stands in the `try`. -/
def parseBitRange (bitsStr : String) : Except Error (Option Range) :=
  match matchRange bitsStr.toList with
  | some (ds, es) =>
    match intOfDigits ds, intOfDigits es with
    | some msb, some lsb => .ok (some ⟨msb, lsb⟩)
    | _, _ => .error .valueError
  | none => .ok ((parseInt bitsStr.toList).map fun bit ↦ ⟨bit, bit⟩)

/-- One turn of the loop of `expand_fields`. The default of the stride is
computed even when there is a stride. -/
def expandField (field : Field) : Except Error (List Field) :=
  match field.count with
  | none => .ok [field]
  | some count =>
    match parseBitRange field.bits with
    | .error e => .error e
    | .ok none => .error .typeError
    | .ok (some range) => (List.range count.toNat).mapM fun (i : ℕ) ↦ do
      return field.numbered i (← (field.nthRange range i).write)

def sortKey (field : Field) : Except Error ℤ := do
  match ← parseBitRange field.bits with
  | none => return 0
  | some range => return range.lsb

def Field.range (field : Field) : Range :=
  match parseBitRange field.bits with
  | .ok (some range) => range
  | _ => ⟨0, 0⟩

/-- `sorted` has all keys before it compares any. -/
def expandFields (fields : List Field) : Except Error (List Field) := do
  let expanded ← fields.mapM expandField
  let _ ← expanded.flatten.mapM sortKey
  return expanded.flatten.insertionSort fun f g ↦ f.range.lsb ≤ g.range.lsb

def Field.ranges (field : Field) : List Range :=
  match parseBitRange field.bits with
  | .ok (some range) =>
    match field.count with
    | none => [range]
    | some count => (List.range count.toNat).map (field.nthRange range)
  | _ => []

structure Field.WellFormed (field : Field) : Prop where
  range : ∃ r, parseBitRange field.bits = .ok (some r) ∧ 0 ≤ r.lsb ∧ r.lsb ≤ r.msb
  stride : ∀ s ∈ field.stride, 0 ≤ s

/-- The bits of the field are a number or a range, and none of the ranges it stands for goes
below bit 0 or has too long a number. -/
structure Field.Placed (field : Field) : Prop where
  parses : ∃ r, parseBitRange field.bits = .ok (some r)
  nonneg : ∀ r ∈ field.ranges, 0 ≤ r.lsb ∧ 0 ≤ r.msb
  writable : ∀ r ∈ field.ranges, r.Writable

def Field.Emittable (field : Field) : Prop :=
  ∃ r, parseBitRange field.bits = .ok (some r) ∧ 0 ≤ r.lsb ∧ Numeral.Writable r.width

def HasRanges (expanded : List Field) (rs : List Range) : Prop :=
  expanded.map (fun field ↦ parseBitRange field.bits) = rs.map fun r ↦ .ok (some r)

variable {field : Field} {fields expanded : List Field} {bits : String} {r q : Range}
  {cs cs' : List Char} {ds es : List ℕ}

theorem matchRange_digits (hd : Digits cs ds) (he : Digits cs' es) (hne : ds ≠ [])
    (hne' : es ≠ []) : matchRange (cs ++ ':' :: cs') = some (ds, es) := by
  have hcolon : ∀ c ∈ (':' :: cs').head?, digit c = none := by
    intro c hc
    cases hc
    exact digit_eq_none (by decide) rfl
  have h₁ := spanDigits_digits hd hcolon
  have h₂ := @spanDigits_digits _ cs' [] es he (by simp)
  rw [List.append_nil] at h₂
  cases ds with
  | nil => exact absurd rfl hne
  | cons d ds =>
    cases es with
    | nil => exact absurd rfl hne'
    | cons e es => simp only [matchRange, h₁, h₂]

theorem matchRange_int (hd : Digits cs ds) : matchRange cs = none := by
  have h := @spanDigits_digits _ cs [] ds hd (by simp)
  rw [List.append_nil] at h
  rw [matchRange, h]
  cases ds <;> rfl

theorem lt_of_matchRange (h : matchRange cs = some (ds, es)) :
    (∀ d ∈ ds, d < 10) ∧ ∀ e ∈ es, e < 10 := by
  rw [matchRange] at h
  split at h
  next d ds' rest hspan =>
    have hd := lt_of_spanDigits cs
    have he := lt_of_spanDigits rest
    rw [hspan] at hd
    split at h
    next e es' rest' hspan' =>
      rw [hspan'] at he
      cases h
      exact ⟨hd, he⟩
    next => cases h
  next => cases h

/-- Where bits come from: two groups, or one `int`. -/
theorem parseBitRange_cases (h : parseBitRange bits = .ok (some r)) :
    (∃ ds es, ∃ m l : ℕ, matchRange bits.toList = some (ds, es) ∧ intOfDigits ds = some m ∧
      intOfDigits es = some l ∧ r = ⟨m, l⟩) ∨
    ∃ bit, matchRange bits.toList = none ∧ parseInt bits.toList = some bit ∧ r = ⟨bit, bit⟩ := by
  rw [parseBitRange] at h
  split at h
  next ds es hmatch =>
    split at h
    next m l hm hl =>
      cases h
      exact Or.inl ⟨ds, es, m, l, hmatch, hm, hl, rfl⟩
    next => cases h
  next hmatch =>
    obtain ⟨bit, hbit, rfl⟩ := Option.map_eq_some_iff.mp (Except.ok.inj h)
    exact Or.inr ⟨bit, hmatch, hbit, rfl⟩

theorem nonneg_of_parse (h : parseBitRange bits = .ok (some r)) :
    0 ≤ r.lsb ∧ 0 ≤ r.msb ∨ r.msb = r.lsb := by
  obtain ⟨ds, es, m, l, -, -, -, rfl⟩ | ⟨bit, -, -, rfl⟩ := parseBitRange_cases h
  · exact Or.inl ⟨Int.natCast_nonneg l, Int.natCast_nonneg m⟩
  · exact Or.inr rfl

theorem writable_of_parse (h : parseBitRange bits = .ok (some r)) :
    Numeral.Writable r.msb ∧ Numeral.Writable r.lsb := by
  obtain ⟨ds, es, m, l, hmatch, hm, hl, rfl⟩ | ⟨bit, -, hbit, rfl⟩ := parseBitRange_cases h
  · obtain ⟨hd, he⟩ := lt_of_matchRange hmatch
    exact ⟨writable_of_intOfDigits hm hd, writable_of_intOfDigits hl he⟩
  · have hw := writable_of_parseInt hbit
    exact ⟨hw, hw⟩

theorem range_of_parse (h : parseBitRange field.bits = .ok (some r)) : field.range = r := by
  rw [Field.range, h]

theorem matchRange_toString (z : ℤ) : matchRange (toString z).toList = none := by
  rw [toList_toString]
  split
  · obtain ⟨ds, -, hd, -, ht⟩ := toDigits_eq z.toNat
    rw [ht, matchRange_int (digits_digitChar hd)]
  · have hminus : digit '-' = none := digit_eq_none (by decide) rfl
    simp only [matchRange, spanDigits, hminus]

theorem parseBitRange_toString {z : ℤ} (h : Numeral.Writable z) :
    parseBitRange (toString z) = .ok (some ⟨z, z⟩) := by
  rw [parseBitRange, matchRange_toString, parseInt_toString h]
  rfl

theorem parseBitRange_text (hl : 0 ≤ r.lsb) (hm : 0 ≤ r.msb) (hwm : Numeral.Writable r.msb)
    (hwl : Numeral.Writable r.lsb) : parseBitRange r.text = .ok (some r) := by
  by_cases hne : r.msb = r.lsb
  · rw [Range.text_eq_toString hne, parseBitRange_toString hwl]
    cases r
    cases hne
    rfl
  · obtain ⟨es, hes, he, hle, hte⟩ := toDigits_eq r.lsb.toNat
    obtain ⟨ds, hds, hd, hld, htd⟩ := toDigits_eq r.msb.toNat
    have hwm' : Numeral.Writable (r.msb.toNat : ℤ) := writable_of_le hwm (by omega)
    have hwl' : Numeral.Writable (r.lsb.toNat : ℤ) := writable_of_le hwl (by omega)
    have ht : r.text.toList = ds.map Nat.digitChar ++ ':' :: es.map Nat.digitChar := by
      rw [Range.toList_text hne, toList_toString, toList_toString, if_pos hm, if_pos hl, htd, hte]
    rw [parseBitRange, ht, matchRange_digits (digits_digitChar hd) (digits_digitChar he) hds hes]
    simp only [intOfDigits_of_writable hwm' htd hld, intOfDigits_of_writable hwl' hte hle,
      Int.toNat_of_nonneg hl, Int.toNat_of_nonneg hm]

theorem nonneg_of_text (hw : Numeral.Writable r.lsb) (h : parseBitRange r.text = .ok (some q))
    (hq : 0 ≤ q.lsb) : 0 ≤ r.lsb ∧ 0 ≤ r.msb := by
  by_cases hne : r.msb = r.lsb
  · rw [Range.text_eq_toString hne, parseBitRange_toString hw] at h
    cases h
    exact ⟨hq, hne ▸ hq⟩
  · have ht := Range.toList_text hne
    have hint : parseInt r.text.toList = none := by
      rw [Option.eq_none_iff_forall_ne_some]
      intro z hz
      apply colon_not_mem_of_parseInt hz
      rw [ht]
      exact List.mem_append_right _ (List.mem_cons_self ..)
    have hminus : digit '-' = none := digit_eq_none (by decide) rfl
    have hcolon : digit ':' = none := digit_eq_none (by decide) rfl
    obtain ⟨ds, es, m, l, hmatch, -⟩ | ⟨bit, -, hbit, -⟩ := parseBitRange_cases h
    · rw [ht, toList_toString] at hmatch
      by_cases hm : 0 ≤ r.msb
      · refine ⟨?_, hm⟩
        by_contra hl
        obtain ⟨ds', -, hd, -, htd⟩ := toDigits_eq r.msb.toNat
        have hspan := @spanDigits_digits _ _ (':' :: (toString r.lsb).toList) _
          (digits_digitChar hd) (by simpa using hcolon)
        rw [if_pos hm, htd, matchRange, hspan, toList_toString, if_neg hl] at hmatch
        cases ds' <;> simp [spanDigits, hminus] at hmatch
      · rw [if_neg hm] at hmatch
        simp [matchRange, spanDigits, hminus] at hmatch
    · rw [hint] at hbit
      cases hbit

theorem ranges_ordered (h : field.WellFormed) : ∀ r ∈ field.ranges, 0 ≤ r.lsb ∧ r.lsb ≤ r.msb := by
  obtain ⟨⟨range, hr, hl, hm⟩, hs⟩ := h
  intro r hmem
  rw [Field.ranges, hr] at hmem
  cases hc : field.count with
  | none =>
    simp only [hc, List.mem_singleton] at hmem
    rw [hmem]
    exact ⟨hl, hm⟩
  | some count =>
    simp only [hc] at hmem
    obtain ⟨i, -, rfl⟩ := List.mem_map.mp hmem
    have hstride : 0 ≤ field.stride.getD (range.msb - range.lsb + 1) := by
      cases hst : field.stride with
      | none => simp only [Option.getD_none]; omega
      | some s => exact hs s hst
    have hi := Int.mul_nonneg (Int.natCast_nonneg i) hstride
    simp only [Field.nthRange, Range.shift]
    omega

theorem Field.WellFormed.placed_iff (h : field.WellFormed) :
    field.Placed ↔ ∀ r ∈ field.ranges, r.Writable := by
  constructor
  · exact fun hp ↦ hp.writable
  · intro hw
    obtain ⟨r, hr, -, -⟩ := h.range
    refine ⟨⟨r, hr⟩, fun q hq ↦ ?_, hw⟩
    have ho := ranges_ordered h q hq
    omega

theorem expandField_plain (hc : field.count = none) : expandField field = .ok [field] := by
  rw [expandField, hc]

theorem expandField_counted {count : ℤ} {fs : List Field} (hc : field.count = some count)
    (hr : parseBitRange field.bits = .ok (some r)) : expandField field = .ok fs ↔
      List.Forall₂ (fun i f ↦ (Numeral.Writable (field.nthRange r i).msb ∧
        Numeral.Writable (field.nthRange r i).lsb) ∧ f = field.numbered i (field.nthRange r i).text)
        (List.range count.toNat) fs := by
  have hturn (i : ℕ) (f : Field) :
      ((field.nthRange r i).write >>= fun bits ↦ pure (field.numbered i bits)) = .ok f ↔
        (Numeral.Writable (field.nthRange r i).msb ∧ Numeral.Writable (field.nthRange r i).lsb) ∧
          f = field.numbered i (field.nthRange r i).text := by
    simp only [bind_eq_ok, Range.write_eq_ok]
    constructor
    · rintro ⟨bits, ⟨hw, rfl⟩, hf⟩
      cases hf
      exact ⟨hw, rfl⟩
    · rintro ⟨hw, rfl⟩
      exact ⟨_, ⟨hw, rfl⟩, rfl⟩
  rw [expandField, hc]
  simp only [hr, mapM_eq_ok, hturn]

theorem expandField_of_placed (h : field.Placed) :
    ∃ fs, expandField field = .ok fs ∧ HasRanges fs field.ranges := by
  obtain ⟨⟨range, hr⟩, hn, hw⟩ := h
  rw [Field.ranges, hr] at hn hw ⊢
  cases hc : field.count with
  | none => exact ⟨[field], expandField_plain hc, by simp [HasRanges, hr]⟩
  | some count =>
    simp only [hc] at hn hw ⊢
    rw [List.forall_mem_map] at hn hw
    let nth (i : ℕ) : Field := field.numbered i (field.nthRange range i).text
    refine ⟨(List.range count.toNat).map nth, (expandField_counted hc hr).mpr ?_, ?_⟩
    · rw [List.forall₂_map_right_iff, List.forall₂_same]
      exact fun i hi ↦ ⟨⟨(hw i hi).msb, (hw i hi).lsb⟩, rfl⟩
    · rw [HasRanges, List.map_map, List.map_map]
      refine List.map_congr_left fun i hi ↦ ?_
      obtain ⟨hl, hm⟩ := hn i hi
      exact parseBitRange_text hl hm (hw i hi).msb (hw i hi).lsb

theorem hasRanges_append {fs gs : List Field} {rs qs : List Range} (h : HasRanges fs rs)
    (h' : HasRanges gs qs) : HasRanges (fs ++ gs) (rs ++ qs) := by
  rw [HasRanges, List.map_append, List.map_append, h, h']

theorem hasRanges_flatten {fss : List (List Field)}
    (h : List.Forall₂ (fun field fs ↦ HasRanges fs field.ranges) fields fss) :
    HasRanges fss.flatten (fields.flatMap Field.ranges) := by
  induction h with
  | nil => rfl
  | cons hr _ ih =>
    rw [List.flatten_cons, List.flatMap_cons]
    exact hasRanges_append hr ih

theorem HasRanges.range {rs : List Range} (h : HasRanges expanded rs) :
    (∀ field ∈ expanded, parseBitRange field.bits = .ok (some field.range)) ∧
      expanded.map Field.range = rs := by
  induction expanded generalizing rs with
  | nil =>
    cases rs with
    | nil => exact ⟨by simp, rfl⟩
    | cons r rs => cases h
  | cons field expanded ih =>
    cases rs with
    | nil => cases h
    | cons r rs =>
      obtain ⟨hr, ht⟩ := List.cons_eq_cons.mp h
      obtain ⟨hparse, hmap⟩ := ih ht
      have hrange := range_of_parse hr
      refine ⟨List.forall_mem_cons.mpr ⟨hrange ▸ hr, hparse⟩, ?_⟩
      rw [List.map_cons, hrange, hmap]

instance : Std.Total fun f g : Field ↦ f.range.lsb ≤ g.range.lsb :=
  ⟨fun f g ↦ le_total f.range.lsb g.range.lsb⟩

instance : IsTrans Field fun f g ↦ f.range.lsb ≤ g.range.lsb := ⟨fun _ _ _ ↦ le_trans⟩

theorem expandFields_eq_ok : expandFields fields = .ok expanded ↔
    ∃ fss, List.Forall₂ (fun f fs ↦ expandField f = .ok fs) fields fss ∧
      (∀ f ∈ fss.flatten, ∃ o, parseBitRange f.bits = .ok o) ∧
      expanded = fss.flatten.insertionSort fun f g ↦ f.range.lsb ≤ g.range.lsb := by
  have hkey (f : Field) : (∃ key, sortKey f = .ok key) ↔ ∃ o, parseBitRange f.bits = .ok o := by
    rw [sortKey]
    constructor
    · rintro ⟨key, h⟩
      obtain ⟨o, ho, -⟩ := bind_eq_ok.mp h
      exact ⟨o, ho⟩
    · rintro ⟨o, ho⟩
      rw [ho]
      cases o <;> exact ⟨_, rfl⟩
  constructor
  · intro h
    obtain ⟨fss, hfss, h⟩ := bind_eq_ok.mp h
    obtain ⟨keys, hkeys, h⟩ := bind_eq_ok.mp h
    cases h
    refine ⟨fss, mapM_eq_ok.mp hfss, fun f hf ↦ ?_, rfl⟩
    obtain ⟨key, -, hk⟩ := mem_of_forall₂ (mapM_eq_ok.mp hkeys) hf
    exact (hkey f).mp ⟨key, hk⟩
  · rintro ⟨fss, hfss, hparse, rfl⟩
    obtain ⟨keys, hkeys, -⟩ := exists_mapM (R := fun _ _ ↦ True) (f := sortKey) fun f hf ↦ by
      obtain ⟨key, hk⟩ := (hkey f).mpr (hparse f hf)
      exact ⟨key, hk, trivial⟩
    rw [expandFields, mapM_eq_ok.mpr hfss]
    simp only [bind, Except.bind, hkeys]
    rfl

/-- What comes of the expansion of placed fields: their ranges, from the lowest on. -/
structure Expands (fields expanded : List Field) : Prop where
  parses : ∀ field ∈ expanded, parseBitRange field.bits = .ok (some field.range)
  perm : (expanded.map Field.range).Perm (fields.flatMap Field.ranges)
  sorted : expanded.Pairwise fun f g ↦ f.range.lsb ≤ g.range.lsb

theorem expandFields_of_placed (h : ∀ field ∈ fields, field.Placed) :
    ∃ expanded, expandFields fields = .ok expanded ∧ Expands fields expanded := by
  obtain ⟨fss, hfs, hr⟩ := exists_mapM fun field hf ↦ expandField_of_placed (h field hf)
  obtain ⟨hparse, hrange⟩ := (hasRanges_flatten hr).range
  let le (f g : Field) : Prop := f.range.lsb ≤ g.range.lsb
  have hperm : (fss.flatten.insertionSort le).Perm fss.flatten := List.perm_insertionSort _ _
  have hmap : ((fss.flatten.insertionSort le).map Field.range).Perm
      (fields.flatMap Field.ranges) := by
    rw [← hrange]
    exact hperm.map _
  refine ⟨fss.flatten.insertionSort le, ?_, fun f hf ↦ hparse f (hperm.mem_iff.mp hf), hmap,
    List.pairwise_insertionSort _ _⟩
  exact expandFields_eq_ok.mpr ⟨fss, mapM_eq_ok.mp hfs, fun f hf ↦ ⟨_, hparse f hf⟩, rfl⟩

theorem Expands.exists_range (h : Expands fields expanded) {f : Field} (hf : f ∈ expanded) :
    ∃ field ∈ fields, f.range ∈ field.ranges :=
  List.mem_flatMap.mp (h.perm.mem_iff.mp (List.mem_map_of_mem hf))

end Parsing

end Esp32c6Fw.Docskit
