import Esp32c6Fw.Stdio.Printing

namespace Esp32c6Fw.Stdio

open Formatted Output Soc

open Conversion (letters)

variable {σ : Spec} {f : Field} {d : Directive} {ap ap' : VaList} {s : Text}
  {vfprintfFloat : Spec → Byte → BitVec 64 → Output Byte ℤ}

section Finish

theorem int_neg {v : ℤ} (h : v.natAbs < 2 ^ 31) : int (-v) = .ret (-v) :=
  int_of_lt (by omega) (by omega)

theorem finishPrec_means {f : Flags} {width : ℤ} {precision : Option ℤ}
    (hf : f.prec = precision.isSome) :
    ∃ g prec, finishPrec ⟨f, width, precision.getD 0, 0⟩ = ⟨g, width, prec, 0⟩ ∧
      { g with prec := f.prec } = f ∧
      g.prec = (precision.bind fun p ↦ if p < 0 then none else some p.toNat).isSome ∧
      prec = ((precision.bind fun p ↦ if p < 0 then none else some p.toNat).getD 0 : ℕ) := by
  cases precision with
  | none => exact ⟨f, 0, rfl, rfl, hf, rfl⟩
  | some p =>
    by_cases hp : p < 0
    · refine ⟨{ f with prec := false }, 0, ?_, rfl, ?_, ?_⟩
      · rw [finishPrec]
        exact if_pos hp
      · simp [hp]
      · simp [hp]
    · refine ⟨f, p, ?_, rfl, ?_, ?_⟩
      · rw [finishPrec]
        exact if_neg hp
      · simp [hp, hf]
      · simp [hp]
        omega

theorem specOf_flags (d : Directive) (width : ℤ) (precision : Option ℤ) :
    let f := (specOf d width precision).flags
    f.lpad = decide (.minus ∈ d.flags) ∧ f.zfill = decide (.zero ∈ d.flags) ∧
      f.plus = decide (.plus ∈ d.flags) ∧
      f.space = (decide (.space ∈ d.flags) || decide (.plus ∈ d.flags)) ∧
      f.alt = decide (.alt ∈ d.flags) ∧ f.prec = d.precision.isSome ∧ f.negative = false ∧
      f.Sized d.conversion.length := by
  obtain ⟨flags, a, p, c, -⟩ := d
  simp only [specOf]
  generalize c.length = length
  match a with
  | .digits [] => cases length <;> exact ⟨rfl, rfl, rfl, rfl, rfl, rfl, rfl, rfl, rfl, rfl⟩
  | .digits (_ :: _) => cases length <;> exact ⟨rfl, rfl, rfl, rfl, rfl, rfl, rfl, rfl, rfl, rfl⟩
  | .star => cases length <;> exact ⟨rfl, rfl, rfl, rfl, rfl, rfl, rfl, rfl, rfl, rfl⟩

theorem finish_ready {width : ℤ} {precision : Option ℤ} (hw : width.natAbs < 2 ^ 31)
    (hp : precision.isSome = d.precision.isSome) :
    ∃ σ, finishWidth (finishPrec (specOf d width precision)) = .ret σ ∧
      Ready σ (d.field width precision) d.conversion.length := by
  obtain ⟨h₁, h₂, h₃, h₄, h₅, h₆, h₇, hl, hs, hr⟩ := specOf_flags d width precision
  obtain ⟨g, prec, hfin, hg, hgp, hprec⟩ :=
    @finishPrec_means _ width precision (h₆.trans hp.symm)
  have hlp : g.lpad = decide (.minus ∈ d.flags) := (congrArg Flags.lpad hg).trans h₁
  have hready {lpad : Bool} {w : ℤ}
      (hlpad : lpad = (decide (.minus ∈ d.flags) || decide (width < 0)))
      (hwidth : w = width.natAbs) :
      Ready ⟨{ g with lpad }, w, prec, 0⟩ (d.field width precision) d.conversion.length :=
    { lpad := hlpad
      zfill := (congrArg Flags.zfill hg).trans h₂
      prec_isSome := hgp
      width_eq := hwidth
      prec_eq := hprec
      long := (congrArg Flags.long hg).trans hl
      short := (congrArg Flags.short hg).trans hs
      repdType := (congrArg Flags.repdType hg).trans hr
      plus := (congrArg Flags.plus hg).trans h₃
      space := (congrArg Flags.space hg).trans h₄
      alt := (congrArg Flags.alt hg).trans h₅
      negative := (congrArg Flags.negative hg).trans h₇ }
  have hspec : finishPrec (specOf d width precision) = ⟨g, width, prec, 0⟩ := hfin
  rw [hspec, finishWidth]
  by_cases hneg : width < 0
  · refine ⟨_, ?_, @hready true (-width) (by simp [hneg]) (by omega)⟩
    rw [if_pos hneg, int_neg hw]
    rfl
  · refine ⟨_, ?_, @hready g.lpad width (by simp [hneg, hlp]) (by omega)⟩
    rw [if_neg hneg]
    rfl

end Finish

/-- A text that stands for this one, some of whose zeros may be lost. -/
structure Loses (lost : Bool) (s' s : Text) : Prop where
  length_le : s'.length ≤ s.length
  eq : lost = false → s' = s
  count_lt : lost = true → s'.count (chr '0') < s.count (chr '0')

namespace Loses

theorem refl (s : Text) : Loses false s s := ⟨le_rfl, fun _ ↦ rfl, fun h ↦ by cases h⟩

variable {l₁ l₂ : Bool} {s₁ s₁' s₂ s₂' : Text}

theorem count_le {lost : Bool} {s' : Text} (h : Loses lost s' s) :
    s'.count (chr '0') ≤ s.count (chr '0') := by
  cases hl : lost with
  | false => exact (h.eq hl).symm ▸ le_rfl
  | true => exact (h.count_lt hl).le

theorem append (h₁ : Loses l₁ s₁' s₁) (h₂ : Loses l₂ s₂' s₂) :
    Loses (l₁ || l₂) (s₁' ++ s₂') (s₁ ++ s₂) where
  length_le := by
    rw [List.length_append, List.length_append]
    exact Nat.add_le_add h₁.length_le h₂.length_le
  eq h := by
    obtain ⟨hl₁, hl₂⟩ := Bool.or_eq_false_iff.mp h
    rw [h₁.eq hl₁, h₂.eq hl₂]
  count_lt h := by
    rw [List.count_append, List.count_append]
    rcases Bool.or_eq_true_iff.mp h with hl | hl
    · exact Nat.add_lt_add_of_lt_of_le (h₁.count_lt hl) h₂.count_le
    · exact Nat.add_lt_add_of_le_of_lt h₁.count_le (h₂.count_lt hl)

theorem cons (c : Byte) {lost : Bool} {s' : Text} (h : Loses lost s' s) :
    Loses lost (c :: s') (c :: s) := (refl [c]).append h

end Loses

section Convert

def losesZero (f : Field) : Conversion → List Arg → Bool
  | .unsigned length .octal, a :: _ => (length.integer a).any fun v ↦ lostZero f v.toNat
  | _, _ => false

theorem isFloat_letter (c : Conversion) : isFloat c.letter = false := by
  have hall : letters.all fun x ↦ isFloat (chr x) = false := rfl
  obtain ⟨x, hx, he⟩ := c.exists_letter
  rw [he]
  exact of_decide_eq_true (List.all_eq_true.mp hall x hx)

theorem letter_ne (c : Conversion) (hc : c ≠ .char) (hs : c ≠ .string) :
    c.letter ≠ chr 'c' ∧ c.letter ≠ chr 's' := by
  cases c with
  | signed length i =>
    cases i with
    | false => exact (by decide : chr 'd' ≠ chr 'c' ∧ chr 'd' ≠ chr 's')
    | true => exact (by decide : chr 'i' ≠ chr 'c' ∧ chr 'i' ≠ chr 's')
  | unsigned length base =>
    cases base with
    | decimal => exact (by decide : chr 'u' ≠ chr 'c' ∧ chr 'u' ≠ chr 's')
    | octal => exact (by decide : chr 'o' ≠ chr 'c' ∧ chr 'o' ≠ chr 's')
    | hex upper =>
      cases upper with
      | false => exact (by decide : chr 'x' ≠ chr 'c' ∧ chr 'x' ≠ chr 's')
      | true => exact (by decide : chr 'X' ≠ chr 'c' ∧ chr 'X' ≠ chr 's')
  | pointer => exact (by decide : chr 'p' ≠ chr 'c' ∧ chr 'p' ≠ chr 's')
  | char => exact absurd rfl hc
  | string => exact absurd rfl hs

theorem convert_int (σ : Spec) {c : Conversion} (hc : c ≠ .char) (hs : c ≠ .string) (ap : VaList) :
    convert vfprintfFloat σ c.letter ap = vfprintfInt σ c.letter ap := by
  obtain ⟨hc', hs'⟩ := letter_ne c hc hs
  rw [convert, if_neg (by simp [isFloat_letter]), if_neg hc', if_neg hs']

/-- An octal number, with the zero that the standard has or without it. -/
theorem loses_octalText (f : Field) (n : ℕ) :
    Loses (lostZero f n) (octalText f n) (f.unsigned .octal n) := by
  cases hz : lostZero f n with
  | false =>
    rw [octal_number hz]
    exact .refl _
  | true =>
    simp only [lostZero, Bool.and_eq_true, decide_eq_true_eq] at hz
    obtain ⟨⟨halt, hp⟩, rfl⟩ := hz
    have hnone : f.precision.isNone = false := by
      rw [hp]
      rfl
    have hzeros : f.atLeast (Base.octal.digits 0) = [] := by
      rw [Field.atLeast, hp]
      rfl
    have hlost : octalText f 0 = f.pad [] := by
      rw [octalText, octalStart_zero, hzeros, Field.number, hnone, Bool.and_false]
      rfl
    have hkept : f.unsigned .octal 0 = f.pad [chr '0'] := by
      rw [Field.unsigned, hzeros, halt, Field.number, hnone, Bool.and_false]
      rfl
    have hcount (n : ℕ) : (List.replicate n (chr ' ')).count (chr '0') = 0 :=
      List.count_eq_zero.mpr fun h ↦ absurd (List.eq_of_mem_replicate h) (by decide)
    rw [hlost, hkept]
    refine ⟨?_, (fun h ↦ by cases h), fun _ ↦ ?_⟩
    · simp only [Field.pad]
      split <;> simp <;> omega
    · simp only [Field.pad]
      split <;> simp [hcount]

theorem convert_converts {c : Conversion} (h : f.convert c ap = some (s, ap'))
    (hlen : s.length < 2 ^ 31) :
    ∃ s', Loses (losesZero f c ap) s' s ∧
      ∀ σ, Ready σ f c.length → Converts (convert vfprintfFloat σ c.letter ap) s' ap' := by
  cases ap with
  | nil => cases c <;> cases h
  | cons a ap =>
    cases c with
    | signed length i =>
      obtain ⟨v, hv, he⟩ := Option.map_eq_some_iff.mp h
      cases he
      refine ⟨_, .refl _, fun σ hr ↦ ?_⟩
      rw [convert_int σ (by simp) (by simp)]
      exact vfprintfInt_signed hr hv i hlen
    | unsigned length base =>
      obtain ⟨v, hv, he⟩ := Option.map_eq_some_iff.mp h
      cases he
      by_cases hb : base = .octal
      · subst hb
        have hl := loses_octalText f v.toNat
        have hany : losesZero f (.unsigned length .octal) (a :: ap') = lostZero f v.toNat := by
          rw [losesZero, hv]
          rfl
        refine ⟨_, hany.symm ▸ hl, fun σ hr ↦ ?_⟩
        rw [convert_int σ (by simp) (by simp)]
        exact vfprintfInt_octal hr hv (hl.length_le.trans_lt hlen)
      · have hletter : base.letter ≠ Base.octal.letter := by
          cases base with
          | decimal => decide
          | octal => exact absurd rfl hb
          | hex upper => cases upper <;> decide
        have hany : losesZero f (.unsigned length base) (a :: ap') = false := by
          cases base with
          | octal => exact absurd rfl hb
          | _ => rfl
        refine ⟨f.unsigned base v.toNat, hany.symm ▸ .refl _, fun σ hr ↦ ?_⟩
        rw [convert_int σ (by simp) (by simp)]
        exact vfprintfInt_unsigned hr hv hletter hlen
    | pointer =>
      cases a with
      | word v =>
        cases h
        refine ⟨_, .refl _, fun σ hr ↦ ?_⟩
        rw [convert_int σ (by simp) (by simp)]
        exact vfprintfInt_pointer hr hlen
      | _ => cases h
    | char =>
      cases a with
      | word v =>
        cases h
        exact ⟨_, .refl _, fun σ hr ↦ (strLpad_prints hr.toMeans _).converts _⟩
      | _ => cases h
    | string =>
      cases a with
      | str p =>
        cases h
        refine ⟨_, .refl _, fun σ hr ↦ ?_⟩
        have hsize : (if σ.flags.prec then σ.prec.toNat
            else (p.elim null CString.bytes).length) =
            f.precision.getD (p.elim null CString.bytes).length := by
          rw [hr.prec_isSome, hr.prec_eq]
          cases f.precision <;> rfl
        have hp := (strLpad_prints hr.toMeans ((p.elim null CString.bytes).take
          (f.precision.getD (p.elim null CString.bytes).length))).converts ap'
        rw [← hsize] at hp
        rw [Field.string, ← hsize]
        exact hp
      | _ => cases h

theorem width_le_convert {c : Conversion} (h : f.convert c ap = some (s, ap')) :
    f.width ≤ s.length := by
  have hpad (f : Field) (t : Text) : f.width ≤ (f.pad t).length := by
    simp only [Field.pad]
    split <;> simp <;> omega
  have hnum (f : Field) (start body : Text) : f.width ≤ (f.number start body).length := by
    rw [Field.number]
    split
    next =>
      simp only [List.length_append, List.length_replicate]
      omega
    next => exact hpad f _
  have huns (f : Field) (base : Base) (n : ℕ) : f.width ≤ (f.unsigned base n).length := by
    cases base <;> exact hnum f _ _
  cases ap with
  | nil => cases c <;> cases h
  | cons a ap =>
    cases c with
    | signed length i =>
      obtain ⟨v, -, he⟩ := Option.map_eq_some_iff.mp h
      cases he
      exact hnum f _ _
    | unsigned length base =>
      obtain ⟨v, -, he⟩ := Option.map_eq_some_iff.mp h
      cases he
      exact huns f base _
    | pointer =>
      cases a <;> cases h
      exact huns { f with alt := true } _ _
    | char =>
      cases a <;> cases h
      exact hpad f _
    | string =>
      cases a <;> cases h
      exact hpad f _

end Convert

section Loop

variable {fmtOrig t : Text} {apOrig : VaList} {fuel : ℕ}

def keepsZeros : List Piece → List Arg → Bool
  | [], _ => true
  | .literal _ _ :: ps, ap => keepsZeros ps ap
  | .directive d :: ps, ap =>
    match d.read ap with
    | none => true
    | some (f, ap) => !losesZero f d.conversion ap &&
        ((f.convert d.conversion ap).elim true fun r ↦ keepsZeros ps r.2)

def intPrecision : Piece → Bool
  | .literal _ _ => true
  | .directive d => d.precision.all fun
    | .digits ds => Amount.digitsFrom 0 ds < 2 ^ 31
    | .star => true

theorem literals_literal {c : Byte} (hc : c ≠ chr '%') (t : Text) :
    literals (c :: t) = .put c (literals t) := by
  cases t with
  | nil => rw [literals.eq_2, if_neg hc]
  | cons c' t => rw [literals.eq_3, if_neg hc]

theorem literals_percent (t : Text) :
    literals (chr '%' :: chr '%' :: t) = .put (chr '%') (literals t) := rfl

theorem literals_conversion {c : Byte} (hc : c ≠ chr '%') (t : Text) :
    literals (chr '%' :: c :: t) = .ret (some (c, some t)) := by
  rw [literals.eq_3, if_pos rfl, if_pos hc]
  rfl

theorem formatLoop_literal {c : Byte} (hc : c ≠ chr '%') (t : Text) :
    formatLoop vfprintfFloat fmtOrig apOrig (fuel + 1) (c :: t) ap =
      .put c (formatLoop vfprintfFloat fmtOrig apOrig (fuel + 1) t ap) := by
  rw [formatLoop, literals_literal hc, put_bind, formatLoop]

theorem formatLoop_percent (t : Text) :
    formatLoop vfprintfFloat fmtOrig apOrig (fuel + 1) (chr '%' :: chr '%' :: t) ap =
      .put (chr '%') (formatLoop vfprintfFloat fmtOrig apOrig (fuel + 1) t ap) := by
  rw [formatLoop, literals_percent, put_bind, formatLoop]

theorem exists_of_read {f : Field} (h : d.read ap = some (f, ap')) :
    ∃ width precision ap₁, d.width.value ap = some (width, ap₁) ∧
      Directive.precisionValue d.precision ap₁ = some (precision, ap') ∧
      f = d.field width precision := by
  rw [Directive.read] at h
  obtain ⟨⟨width, ap₁⟩, hw, h⟩ := Option.bind_eq_some_iff.mp h
  obtain ⟨⟨precision, ap₂⟩, hp, h⟩ := Option.bind_eq_some_iff.mp h
  cases h
  exact ⟨width, precision, ap₁, hw, hp, rfl⟩

theorem precision_isSome {p : Option Amount} {precision : Option ℤ}
    (h : Directive.precisionValue p ap = some (precision, ap')) : precision.isSome = p.isSome := by
  cases p with
  | none =>
    cases h
    rfl
  | some p =>
    obtain ⟨r, -, he⟩ := Option.map_eq_some_iff.mp h
    cases he
    rfl

theorem precision_lt {p : Option Amount} {precision : Option ℤ}
    (hp : p.all fun | .digits ds => Amount.digitsFrom 0 ds < 2 ^ 31 | .star => true)
    (h : Directive.precisionValue p ap = some (precision, ap')) : ∀ v ∈ precision, v < 2 ^ 31 := by
  cases p with
  | none =>
    cases h
    exact fun v hv ↦ by cases hv
  | some p =>
    obtain ⟨r, hr, he⟩ := Option.map_eq_some_iff.mp h
    cases he
    intro v hv
    cases hv
    cases p with
    | digits ds =>
      cases hr
      have hds : (Amount.digitsFrom 0 ds : ℤ) < 2 ^ 31 := by exact_mod_cast of_decide_eq_true hp
      exact hds
    | star =>
      cases ap with
      | nil => cases hr
      | cons a ap =>
        cases a with
        | word v =>
          cases hr
          exact v.toInt_lt
        | _ => cases hr

theorem formatLoop_directive (hd : d.read ap = some (f, ap')) (hp : intPrecision (.directive d))
    (hwidth : f.width < 2 ^ 31) {ap'' : VaList}
    (hc : ∀ σ, Ready σ f d.conversion.length →
      Converts (convert vfprintfFloat σ d.conversion.letter ap') s ap'') {bs : Text}
    (ht : (formatLoop vfprintfFloat fmtOrig apOrig fuel t ap'').Yields bs ()) :
    (formatLoop vfprintfFloat fmtOrig apOrig (fuel + 1) (chr '%' :: (d.text ++ t)) ap).Yields
      (s ++ bs) () := by
  obtain ⟨width, precision, ap₁, hw, hprec, rfl⟩ := exists_of_read hd
  have hwidth' : width.natAbs < 2 ^ 31 := hwidth
  have hplt := precision_lt hp hprec
  obtain ⟨σ, hfin, hr⟩ := finish_ready hwidth' (precision_isSome hprec)
  obtain ⟨s₁, w, hy, htext⟩ := hc σ hr
  obtain ⟨c, fmt, hfmt⟩ := List.exists_cons_of_ne_nil (List.append_ne_nil_of_left_ne_nil
    d.text_ne_nil t)
  have hc : c ≠ chr '%' := by
    obtain ⟨c', fmt', hd'⟩ := List.exists_cons_of_ne_nil d.text_ne_nil
    rw [hd', List.cons_append] at hfmt
    cases hfmt
    exact (Directive.inner_text (hd' ▸ List.mem_cons_self)).2
  have hspec := @specRead_directive fmtOrig t apOrig ap d width precision ap₁ ap' hw hprec
    (by omega) hplt
  rw [hfmt] at hspec ⊢
  rw [formatLoop, literals_conversion hc, ret_bind]
  have hloop : specLoop fmtOrig apOrig {} ap c fmt = _ := hspec
  simp only [Option.elim_some, hloop, ret_bind]
  rw [← htext, List.append_assoc]
  have hargno : ¬(specOf d width precision).argno ≠ 0 := fun h ↦ h rfl
  rw [if_neg hargno, hfin, pure_eq, ret_bind, ret_bind]
  exact hy.bind ((yields_repeated w _).bind ht)

theorem formatLoop_prints {ps : List Piece} {bs : Text} (hfuel : (Formatted.text ps).length < fuel)
    (hr : render ps ap = some bs) (hp : ps.all intPrecision) (hlen : bs.length < 2 ^ 31) :
    ∃ bs', (formatLoop vfprintfFloat fmtOrig apOrig fuel (Formatted.text ps) ap).Yields bs' () ∧
      Loses (!keepsZeros ps ap) bs' bs := by
  induction ps generalizing fuel ap bs with
  | nil =>
    cases hr
    cases fuel with
    | zero => cases hfuel
    | succ fuel => exact ⟨[], yields_ret (), .refl []⟩
  | cons p ps ih =>
    obtain ⟨hp₀, hps⟩ := Bool.and_eq_true_iff.mp hp
    obtain ⟨fuel, rfl⟩ : ∃ n, fuel = n + 1 := ⟨fuel - 1, by omega⟩
    have htext : Formatted.text (p :: ps) = p.text ++ Formatted.text ps := rfl
    rw [htext, List.length_append] at hfuel
    rw [htext]
    cases p with
    | literal c ne_nul =>
      obtain ⟨bs', hr', rfl⟩ := Option.map_eq_some_iff.mp hr
      rw [List.length_cons] at hlen
      rw [Piece.text] at hfuel ⊢
      split at hfuel
      next hc =>
        subst hc
        rw [if_pos rfl]
        obtain ⟨out, hy, hl⟩ := @ih _ (fuel + 1) _ (by omega) hr' hps (by omega)
        exact ⟨_, (formatLoop_percent _).symm ▸ hy.put, hl.cons _⟩
      next hc =>
        rw [if_neg hc]
        obtain ⟨out, hy, hl⟩ := @ih _ (fuel + 1) _ (by omega) hr' hps (by omega)
        exact ⟨_, (formatLoop_literal hc _).symm ▸ hy.put, hl.cons _⟩
    | directive d =>
      obtain ⟨⟨s, ap''⟩, hs, hr'⟩ := Option.bind_eq_some_iff.mp hr
      obtain ⟨bs', hrest, rfl⟩ := Option.map_eq_some_iff.mp hr'
      obtain ⟨⟨f, ap'⟩, hd, hs⟩ := Option.bind_eq_some_iff.mp hs
      dsimp only at hs hrest
      rw [List.length_append] at hlen
      have hlen' : (Piece.directive d).text.length = d.text.length + 1 := rfl
      have hwidth := (width_le_convert hs).trans_lt (show s.length < 2 ^ 31 by omega)
      obtain ⟨s', hl, hc⟩ := @convert_converts _ _ _ _ vfprintfFloat _ hs (by omega)
      obtain ⟨out, hy, hl'⟩ := @ih _ fuel _ (by omega) hrest hps (by omega)
      have hlost : (!keepsZeros (.directive d :: ps) ap) =
          (losesZero f d.conversion ap' || !keepsZeros ps ap'') := by
        simp [keepsZeros, hd, hs]
      rw [hlost]
      exact ⟨_, formatLoop_directive hd hp₀ hwidth hc hy, hl.append hl'⟩

end Loop

theorem format_prints {ps : List Piece} {out : Text} (hr : render ps ap = some out)
    (hp : ps.all intPrecision) (hlen : out.length < 2 ^ 31) :
    ∃ out', (format vfprintfFloat (Formatted.format ps) ap).Yields out' () ∧
      Loses (!keepsZeros ps ap) out' out :=
  formatLoop_prints (Nat.lt_succ_self _) hr hp hlen

/-- A call of `printf` that prints what the standard says. -/
structure PrintfCall where
  pieces : List Piece
  args : List Arg
  out : Text
  render_eq : render pieces args = some out
  int_precision : pieces.all intPrecision
  keeps_zeros : keepsZeros pieces args
  out_lt : out.length < 2 ^ 31

namespace PrintfCall

def fmt (c : PrintfCall) : CString := Formatted.format c.pieces

theorem yields (c : PrintfCall) : (format vfprintfFloat c.fmt c.args).Yields c.out () := by
  obtain ⟨out, hy, hl⟩ := @format_prints _ vfprintfFloat _ _ c.render_eq c.int_precision c.out_lt
  rw [c.keeps_zeros] at hl
  exact hl.eq rfl ▸ hy

end PrintfCall

section Device

open Transfer

variable {S : Type}

/-- What putting out these characters comes to: their number is returned, or else the device
has refused one of them, the last it was offered, and there is -1 and the error flag. -/
def outcome (put : Byte → StateM S Word) (flags : Byte) (s : S) (bs : Text) :
    (Option Word × Byte) × S :=
  (if takes (refuses put) s bs = bs.length then (some (BitVec.ofNat 32 bs.length), flags)
    else (some (-1), flags ||| serr),
    after (asks (refuses put) bs) s (min (takes (refuses put) s bs + 1) bs.length))

theorem vfprintf_run {fmt : CString} {bs : Text}
    (h : (format vfprintfFloat fmt ap).Yields bs ()) (hlen : bs.length < 2 ^ 31)
    {flags : Byte} (hw : flags &&& swr ≠ 0) (put : Byte → StateM S Word) (s : S) :
    (vfprintf vfprintfFloat put flags fmt ap).run s = outcome put flags s bs := by
  have hle : takes (refuses put) s bs ≤ bs.length := untilFailure_le
  rw [run_vfprintf vfprintfFloat hw, h.run_device, outcome]
  split
  next heq =>
    simp only [vfprintfResult, if_pos hlen]
  next hne =>
    have hlt : takes (refuses put) s bs + 1 < 2 ^ 31 := by omega
    simp only [vfprintfResult, if_pos hlt]

/-- A device that keeps what it is given, the last character first. -/
def keepPut (c : Byte) : StateM Text Word := fun s ↦ (0, c :: s)

theorem outcome_keepPut (flags : Byte) (bs : Text) :
    (outcome keepPut flags [] bs).2 = bs.reverse := by
  have hstate := @after_accepting _ _ (refuses keepPut) (fun s c ↦ c :: s) (fun _ _ ↦ rfl) bs []
  exact hstate.trans (List.foldl_flip_cons_eq_append'.trans (List.append_nil _))

/-- `vfprintf` prints what the standard says, except for the zeros of `%#.0o`: whatever the flags,
widths, precisions and lengths of the conversions, if and only if no octal 0 with `#` and
precision 0 is among them, it puts out to any device the characters that the format and the
arguments call for, one by one, up to the first that the device refuses, and returns their
number if there is none, and else -1, with the error flag set. -/
theorem vfprintf_conforms {ps : List Piece} {args : List Arg} {out : Text}
    (hr : render ps args = some out) (hp : ps.all intPrecision) (hlen : out.length < 2 ^ 31)
    {flags : Byte} (hw : flags &&& swr ≠ 0)
    (vfprintfFloat : Spec → Byte → BitVec 64 → Output Byte ℤ) :
    (∀ (S : Type) (put : Byte → StateM S Word) (s : S),
      (vfprintf vfprintfFloat put flags (Formatted.format ps) args).run s =
        outcome put flags s out) ↔ keepsZeros ps args := by
  obtain ⟨out', hy, hl⟩ := @format_prints _ vfprintfFloat _ _ hr hp hlen
  have hrun {S : Type} (put : Byte → StateM S Word) (s : S) :=
    vfprintf_run hy (hl.length_le.trans_lt hlen) hw put s
  constructor
  · intro h
    by_contra hz
    rw [Bool.not_eq_true] at hz
    rw [hz] at hl
    have hsame := congrArg Prod.snd ((hrun keepPut []).symm.trans (h Text keepPut []))
    rw [outcome_keepPut, outcome_keepPut, List.reverse_inj] at hsame
    exact (hl.count_lt rfl).ne (congrArg _ hsame)
  · intro hz S put s
    rw [hz] at hl
    rw [hrun put s, hl.eq rfl]

/-- `%#x|%-*d|%s` of 255, a width of 4, 7 and NULL. -/
def smallCall : PrintfCall where
  pieces := [.directive (.bare [.alt] (.unsigned .none (.hex false))),
    .literal (chr '|') (by decide),
    .directive ⟨[.minus], .star, none, .signed .none false, Amount.head_ne_star⟩,
    .literal (chr '|') (by decide),
    .directive (.bare [] .string)]
  args := [.word 255, .word 4, .word 7, .str none]
  out := "0xff|7   |(null)".toList.map chr
  render_eq := by decide
  int_precision := rfl
  keeps_zeros := by decide
  out_lt := by decide

theorem vfprintf_conforms_small :
    (∀ (S : Type) (put : Byte → StateM S Word) (s : S),
      (vfprintf (fun _ _ _ ↦ .undefined) put swr smallCall.fmt smallCall.args).run s =
        outcome put swr s smallCall.out) ↔ keepsZeros smallCall.pieces smallCall.args :=
  vfprintf_conforms smallCall.render_eq smallCall.int_precision smallCall.out_lt (by decide) _

end Device

end Esp32c6Fw.Stdio
