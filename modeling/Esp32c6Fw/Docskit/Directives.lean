import Esp32c6Fw.Docskit.Order

namespace Esp32c6Fw.Docskit

open Fallible Numeral Sorting Unicode

section Count

/-- The text without its spaces, which fill up the columns. -/
def unspaced (s : String) : List Char := s.toList.filter (· ≠ ' ')

/-- How often the text has the character that every directive starts with. -/
def hashes (s : String) : ℕ := s.toList.count '#'

@[simp] theorem hashes_append (s t : String) : hashes (s ++ t) = hashes s + hashes t := by
  rw [hashes, String.toList_append, List.count_append]
  rfl

theorem hashes_join (ss : List String) : hashes (String.join ss) = (ss.map hashes).sum := by
  induction ss with
  | nil => rfl
  | cons s ss ih => rw [String.join_cons, hashes_append, ih, List.map_cons, List.sum_cons]

theorem hashes_unspaced {s t : String} (h : unspaced s = unspaced t) : hashes s = hashes t := by
  have hcount (s : String) : (unspaced s).count '#' = hashes s := List.count_filter (by decide)
  rw [← hcount, ← hcount, h]

theorem hashes_toString_int (z : ℤ) : hashes (toString z) = 0 := by
  have hdigits (n : ℕ) : (Nat.toDigits 10 n).count '#' = 0 := by
    obtain ⟨ds, -, hd, -, ht⟩ := toDigits_eq n
    have hne : ∀ d < 10, d.digitChar ≠ '#' := by decide
    rw [ht, List.count_eq_zero]
    intro hmem
    obtain ⟨d, hmem, he⟩ := List.mem_map.mp hmem
    exact hne d (hd d hmem) he
  rw [hashes, toList_toString]
  split
  · exact hdigits _
  · rw [List.count_cons, hdigits]
    rfl

theorem hashes_toString_nat (n : ℕ) : hashes (toString n) = 0 := hashes_toString_int n

theorem hashes_spaces (n : ℕ) : hashes (spaces n) = 0 := by
  rw [hashes, spaces, String.toList_ofList, List.count_replicate]
  rfl

def FieldMacros.text (m : FieldMacros) : String :=
  String.join (m.defines.map Define.text) ++ "\n"

theorem hashes_macros_pos (m : FieldMacros) : 0 < hashes m.text := by
  have hdirective : hashes "#define " = 1 := rfl
  simp only [FieldMacros.text, FieldMacros.defines, hashes_append, hashes_join, List.map_cons,
    List.sum_cons, Define.text, hdirective]
  omega

end Count

variable [Unicode] {field : Field} {r : Range} {expanded : List Field} {lastLsb : ℤ} {idx : ℕ}
  {namePrefix : String} {b : Block} {l₁ l₂ : List Field}

/-- The columns and the width of a member have no part in its directives. -/
theorem hashes_member (padding : ℕ) (m : Member) : hashes (m.text padding) = hashes m.name := by
  obtain ⟨n, ht⟩ := m.text_eq padding
  have hfill : hashes "\t\tuint32_t " = 0 ∧ hashes " : " = 0 ∧ hashes ";\n" = 0 := ⟨rfl, rfl, rfl⟩
  rw [ht]
  simp only [hashes_append, hashes_spaces, hashes_toString_int]
  omega

theorem hashes_rsvd (padding idx : ℕ) (width : ℤ) :
    hashes (Member.text padding (.rsvd idx width)) = 0 := by
  have hname : hashes "rsvd" = 0 := rfl
  rw [hashes_member]
  change hashes ("rsvd" ++ toString idx) = 0
  rw [hashes_append, hashes_toString_nat, hname]

theorem hashes_field (padding : ℕ) (name : String) (width : ℤ) :
    hashes (Member.text padding (.field name width)) = hashes (lower name) :=
  hashes_member padding (.field name width)

theorem hashes_members (padding : ℕ)
    (hp : ∀ f ∈ expanded, parseBitRange f.bits = .ok (some f.range)) :
    hashes (String.join ((members lastLsb idx expanded).map (Member.text padding))) =
      (expanded.map fun f ↦ hashes (lower f.name)).sum := by
  rw [hashes_join, List.map_map]
  induction expanded generalizing lastLsb idx with
  | nil =>
    rw [members]
    split
    · rw [List.map_singleton, List.sum_singleton, Function.comp_apply, hashes_rsvd]
      rfl
    · rfl
  | cons f expanded ih =>
    rw [List.forall_mem_cons] at hp
    have ht := @ih (f.range.msb + 1) (idx + 1) hp.2
    have ht' := @ih (f.range.msb + 1) idx hp.2
    rw [members]
    simp only [hp.1]
    split
    · simp only [List.map_cons, List.sum_cons, Function.comp_apply, hashes_rsvd, hashes_field,
        Nat.zero_add, ht]
    · simp only [List.map_cons, List.sum_cons, Function.comp_apply, hashes_field, ht']

/-- An uncounted field stands in the sorted list as it is, and without it the list is the rest. -/
theorem expandFields_remove {fs gs : List Field} (hc : field.count = none)
    (h : expandFields (fs ++ field :: gs) = .ok expanded) :
    ∃ l₁ l₂, expanded = l₁ ++ field :: l₂ ∧ expandFields (fs ++ gs) = .ok (l₁ ++ l₂) := by
  obtain ⟨fss, hfss, hparse, rfl⟩ := expandFields_eq_ok.mp h
  have hm := mapM_eq_ok.mpr hfss
  rw [List.mapM_append, List.mapM_cons, expandField_plain hc] at hm
  obtain ⟨as, has, hm⟩ := bind_eq_ok.mp hm
  obtain ⟨bs', hbs', hm⟩ := bind_eq_ok.mp hm
  obtain ⟨single, hsingle, hbs'⟩ := bind_eq_ok.mp hbs'
  cases hsingle
  obtain ⟨bs, hbs, hb⟩ := bind_eq_ok.mp hbs'
  cases hb
  cases hm
  have hrest : (fs ++ gs).mapM expandField = .ok (as ++ bs) := by
    rw [List.mapM_append, has, hbs]
    rfl
  obtain ⟨l₁, l₂, hl, hl'⟩ := insertionSort_remove
    (r := fun f g : Field ↦ f.range.lsb ≤ g.range.lsb) as.flatten bs.flatten field
  have hsub : (as ++ bs).flatten.Sublist (as ++ [field] :: bs).flatten := by
    rw [List.flatten_append, List.flatten_append, List.flatten_cons]
    exact (List.Sublist.refl _).append (List.sublist_append_right _ _)
  refine ⟨l₁, l₂, ?_, expandFields_eq_ok.mpr ⟨as ++ bs, mapM_eq_ok.mp hrest, ?_, ?_⟩⟩
  · rw [List.flatten_append]
    exact hl
  · exact fun f hf ↦ hparse f (hsub.subset hf)
  · rw [List.flatten_append]
    exact hl'.symm

theorem fieldMacros_remove {regMacro : String} {ms : List FieldMacros}
    (hp : parseBitRange field.bits = .ok (some r))
    (h : fieldMacros regMacro (l₁ ++ field :: l₂) = .ok ms) :
    ∃ ms₁ m ms₂, ms = ms₁ ++ m :: ms₂ ∧ fieldMacros regMacro (l₁ ++ l₂) = .ok (ms₁ ++ ms₂) := by
  induction l₁ generalizing ms with
  | nil =>
    rw [List.nil_append, fieldMacros] at h
    simp only [hp] at h
    obtain ⟨mask, -, h⟩ := bind_eq_ok.mp h
    obtain ⟨rest, hrest, h⟩ := bind_eq_ok.mp h
    cases h
    exact ⟨[], _, rest, rfl, hrest⟩
  | cons g l₁ ih =>
    rw [List.cons_append, fieldMacros] at h
    rw [List.cons_append, fieldMacros]
    split at h
    next => cases h
    next => exact ih h
    next q hg =>
      obtain ⟨mask, hmask, h⟩ := bind_eq_ok.mp h
      obtain ⟨rest, hrest, h⟩ := bind_eq_ok.mp h
      cases h
      obtain ⟨ms₁, m, ms₂, rfl, hl⟩ := ih hrest
      refine ⟨_ :: ms₁, m, ms₂, rfl, ?_⟩
      rw [hmask, hl]
      rfl

theorem hashes_block_lt {fs gs : List Field} {reg reg' : Reg} {b' : Block}
    (hc : field.count = none) (hreg : reg.fields = fs ++ field :: gs)
    (hreg' : reg' = { reg with fields := fs ++ gs }) (h : block namePrefix reg = .ok b)
    (h' : block namePrefix reg' = .ok b') (ofsPostfix : String) (emitReg : Bool) :
    hashes (Block.text namePrefix ofsPostfix emitReg b') <
      hashes (Block.text namePrefix ofsPostfix emitReg b) := by
  obtain ⟨expanded, he, hall, hb, hmac, hmem⟩ := block_eq_ok h
  obtain ⟨expanded', he', hall', hb', hmac', hmem'⟩ := block_eq_ok h'
  have hbare : b'.reg.bare = b.reg.bare := by
    rw [hb, hb', hreg']
    rfl
  rw [hreg] at he
  rw [hreg'] at he' hmac'
  obtain ⟨l₁, l₂, rfl, hrest⟩ := expandFields_remove hc he
  rw [hrest] at he'
  cases he'
  have hp : ∀ f ∈ l₁ ++ field :: l₂, parseBitRange f.bits = .ok (some f.range) :=
    fun f hf ↦ (hall f hf).parses
  have hp' : ∀ f ∈ l₁ ++ l₂, parseBitRange f.bits = .ok (some f.range) :=
    fun f hf ↦ (hall' f hf).parses
  have hf := hp field (List.mem_append_right _ (List.mem_cons_self ..))
  obtain ⟨ms₁, m, ms₂, hms, hms'⟩ := fieldMacros_remove hf hmac
  have hmacs : b'.macros = ms₁ ++ ms₂ := Except.ok.inj (hmac'.symm.trans hms')
  have hmembers : hashes (String.join (b'.members.map (Member.text b'.padding))) ≤
      hashes (String.join (b.members.map (Member.text b.padding))) := by
    rw [hmem, hmem', hashes_members _ hp, hashes_members _ hp']
    simp only [List.map_append, List.map_cons, List.sum_append, List.sum_cons]
    omega
  have hmacros : hashes (String.join (b'.macros.map FieldMacros.text)) <
      hashes (String.join (b.macros.map FieldMacros.text)) := by
    have hpos := hashes_macros_pos m
    rw [hms, hmacs, hashes_join, hashes_join]
    simp only [List.map_append, List.map_cons, List.sum_append, List.sum_cons]
    omega
  rw [← blockText_bare _ _ _ b, ← blockText_bare _ _ _ b', hbare]
  unfold FieldMacros.text at hmacros
  unfold Block.text
  simp only [hashes_append]
  omega

end Esp32c6Fw.Docskit
