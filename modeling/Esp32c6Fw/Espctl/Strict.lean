import Esp32c6Fw.Espctl.Frames

namespace Esp32c6Fw.Espctl

/-- Every escape that a byte follows is one of the two that encoding writes. -/
def KnownEscapes : Bytes → Prop
  | [] => True
  | b :: data =>
    if b = slipEsc then
      match data with
      | [] => True
      | c :: data => (c = slipEscEnd ∨ c = slipEscEsc) ∧ KnownEscapes data
    else KnownEscapes data

/-- What decoding returns encodes to the input again, or it raises. -/
def Strict (s : Bytes) : Prop :=
  (∃ d, slipDecode s = .ok d ∧ slipEncode d = s) ∨ ∃ e, slipDecode s = .error e

variable {b c : UInt8} {s d : Bytes}

theorem knownEscapes_cons (h : b ≠ slipEsc) (s : Bytes) :
    KnownEscapes (b :: s) ↔ KnownEscapes s := by
  cases s <;> simp [KnownEscapes, h]

theorem knownEscapes_esc (c : UInt8) (s : Bytes) :
    KnownEscapes (slipEsc :: c :: s) ↔ (c = slipEscEnd ∨ c = slipEscEsc) ∧ KnownEscapes s := by
  simp [KnownEscapes]

theorem knownEscapes_slipEncode (d : Bytes) : KnownEscapes (slipEncode d) := by
  induction d with
  | nil => trivial
  | cons b d ih =>
    unfold slipEncode
    split
    · exact (knownEscapes_esc _ _).mpr ⟨Or.inl rfl, ih⟩
    split
    · exact (knownEscapes_esc _ _).mpr ⟨Or.inr rfl, ih⟩
    next h => exact (knownEscapes_cons h _).mpr ih

theorem map_eq_ok {x : Except Error Bytes} {g : Bytes → Bytes} (h : x.map g = .ok d) :
    ∃ a, x = .ok a ∧ d = g a := by
  cases x with
  | error e => cases h
  | ok a =>
    cases h
    exact ⟨a, rfl, rfl⟩

/-- Without an unknown escape, encoding undoes decoding. -/
theorem slipEncode_slipDecode (h : slipEnd ∉ s) (hk : KnownEscapes s) (hd : slipDecode s = .ok d) :
    slipEncode d = s := by
  induction s using slipDecode.induct generalizing d with
  | case1 =>
    cases hd
    rfl
  | case2 => cases hd
  | case3 s ih =>
    rw [slipDecode, if_pos rfl] at hd
    obtain ⟨d, hs, rfl⟩ := map_eq_ok hd
    have hs' := ih (fun hm ↦ h (by simp [hm])) ((knownEscapes_esc _ s).mp hk).2 hs
    rw [slipEncode, if_pos rfl, hs']
  | case4 s hne ih =>
    rw [slipDecode, if_pos rfl] at hd
    obtain ⟨d, hs, rfl⟩ := map_eq_ok hd
    have hs' := ih (fun hm ↦ h (by simp [hm])) ((knownEscapes_esc _ s).mp hk).2 hs
    rw [slipEncode, if_neg (by decide), if_pos rfl, hs']
  | case5 c s hne hne' ih =>
    obtain ⟨hc, -⟩ := (knownEscapes_esc c s).mp hk
    exact absurd hc (not_or.mpr ⟨hne, hne'⟩)
  | case6 b s hb ih =>
    rw [slipDecode_cons hb] at hd
    obtain ⟨d, hs, rfl⟩ := map_eq_ok hd
    obtain ⟨hend, hrest⟩ := not_or.mp (List.mem_cons.not.mp h)
    rw [slipEncode, if_neg (Ne.symm hend), if_neg hb, ih hrest ((knownEscapes_cons hb s).mp hk) hs]

/-- An escape before any other byte is dropped together with that byte, and nothing reports it. -/
theorem strict_iff (h : slipEnd ∉ s) : Strict s ↔ KnownEscapes s ∨ Dangling s := by
  constructor
  · intro hs
    obtain ⟨d, -, rfl⟩ | ⟨e, he⟩ := hs
    · exact Or.inl (knownEscapes_slipEncode d)
    · exact Or.inr (slipDecode_error_iff.mp he).2
  · intro hc
    by_cases hd : Dangling s
    · exact Or.inr ⟨_, slipDecode_error_iff.mpr ⟨rfl, hd⟩⟩
    have hk := hc.resolve_right hd
    cases hs : slipDecode s with
    | error e => exact absurd (slipDecode_error_iff.mp hs).2 hd
    | ok d => exact Or.inl ⟨d, hs, slipEncode_slipDecode h hk hs⟩

theorem strict_iff_escaped :
    Strict [0x01, slipEsc, slipEscEnd, slipEsc] ↔
      KnownEscapes [0x01, slipEsc, slipEscEnd, slipEsc] ∨
        Dangling [0x01, slipEsc, slipEscEnd, slipEsc] :=
  strict_iff (by decide)

/-- The corrupted pair disappears: nothing encodes to these bytes, and they decode to two. -/
theorem slipDecode_drops :
    slipEnd ∉ [0x01, slipEsc, 0x41, 0x02] ∧
      slipDecode [0x01, slipEsc, 0x41, 0x02] = .ok [0x01, 0x02] ∧
      (∀ d, slipEncode d ≠ [0x01, slipEsc, 0x41, 0x02]) ∧ ¬Strict [0x01, slipEsc, 0x41, 0x02] := by
  have hd : slipDecode [0x01, slipEsc, 0x41, 0x02] = .ok [0x01, 0x02] := rfl
  have hne : ∀ d, slipEncode d ≠ [0x01, slipEsc, 0x41, 0x02] := by
    intro d h
    have hback := slipDecode_slipEncode d
    rw [h, hd] at hback
    cases hback
    exact absurd h (by decide)
  refine ⟨by decide, hd, hne, ?_⟩
  intro hs
  obtain ⟨d, -, he⟩ | ⟨e, he⟩ := hs
  · exact hne d he
  · rw [hd] at he
    cases he

end Esp32c6Fw.Espctl
