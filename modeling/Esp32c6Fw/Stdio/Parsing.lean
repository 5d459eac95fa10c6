import Esp32c6Fw.Stdio.Vfprintf
import Mathlib.Data.List.Induction

namespace Esp32c6Fw.Stdio

open Formatted Output Soc

open Amount (digit digitsFrom le_digitsFrom)
open Conversion (letters)

variable {fmtOrig t : Text} {apOrig ap : VaList} {σ : Spec}

def specRead (fmtOrig : Text) (apOrig : VaList) (σ : Spec) (ap : VaList) :
    Text → Output Byte (Option Parsed)
  | [] => .ret (some ⟨σ, 0, none, ap⟩)
  | c :: fmt => specLoop fmtOrig apOrig σ ap c fmt

theorem specRead_next {σ' : Spec} {ap' : VaList} {c : Byte}
    (h : specChar fmtOrig apOrig σ ap c = .ret (.next σ' ap')) (t : Text) :
    specRead fmtOrig apOrig σ ap (c :: t) = specRead fmtOrig apOrig σ' ap' t := by
  change specLoop fmtOrig apOrig σ ap c t = _
  cases t with
  | nil =>
    rw [specLoop, h]
    rfl
  | cons c' t =>
    rw [specLoop, h]
    rfl

theorem specRead_leave {c : Byte} (h : specChar fmtOrig apOrig σ ap c = .ret .leave) (t : Text) :
    specRead fmtOrig apOrig σ ap (c :: t) = .ret (some ⟨σ, c, some t, ap⟩) := by
  change specLoop fmtOrig apOrig σ ap c t = _
  cases t with
  | nil =>
    rw [specLoop, h]
    rfl
  | cons c' t =>
    rw [specLoop, h]
    rfl

section Flags

def Flags.add (f : Flags) : Flag → Flags
  | .zero => { f with zfill := true }
  | .plus => { f with plus := true, space := true }
  | .space => { f with space := true }
  | .minus => { f with lpad := true }
  | .alt => { f with alt := true }
  | .quote => f

theorem checkFlag_char (f : Flags) (x : Flag) : checkFlag x.char f = some (f.add x) := by
  cases x <;> rfl

theorem Flags.belowWidth_add (f : Flags) (x : Flag) : (f.add x).belowWidth = f.belowWidth := by
  cases x <;> rfl

theorem specRead_flags (fs : List Flag) (h : σ.flags.belowWidth) :
    specRead fmtOrig apOrig σ ap (fs.map Flag.char ++ t) =
      specRead fmtOrig apOrig { σ with flags := fs.foldl Flags.add σ.flags } ap t := by
  induction fs generalizing σ with
  | nil => rfl
  | cons x fs ih =>
    have hc : specChar fmtOrig apOrig σ ap x.char =
        .ret (.next { σ with flags := σ.flags.add x } ap) := by
      simp [specChar, h, checkFlag_char]
    have hx : ({ σ with flags := σ.flags.add x } : Spec).flags.belowWidth := by
      rw [Flags.belowWidth_add]
      exact h
    rw [List.map_cons, List.cons_append, specRead_next hc, ih hx]
    rfl

def Flags.ofList (fs : List Flag) : Flags where
  zfill := .zero ∈ fs
  plus := .plus ∈ fs
  space := .space ∈ fs || .plus ∈ fs
  lpad := .minus ∈ fs
  alt := .alt ∈ fs

theorem Flags.foldl_add (fs : List Flag) : fs.foldl Flags.add {} = Flags.ofList fs := by
  induction fs using List.reverseRecOn with
  | nil => rfl
  | append_singleton fs x ih =>
    rw [List.foldl_concat, ih]
    cases x <;> simp [Flags.add, Flags.ofList]

end Flags

section Amounts

theorem toNat_digit (d : Fin 10) : (digit d - chr '0').toNat = d := by
  revert d
  decide

theorem appendDigit_digit {n : ℕ} {d : Fin 10} (h : 10 * n + d < 2 ^ 31) :
    appendDigit n (digit d) = .ret ((10 * n + d : ℕ) : ℤ) := by
  have hi : int (10 * n) = .ret (10 * (n : ℤ)) := if_pos (by omega)
  have hw : (BitVec.ofInt 32 (10 * (n : ℤ) + (digit d - chr '0').toNat)).toInt =
      ((10 * n + d : ℕ) : ℤ) := by
    rw [toNat_digit, BitVec.toInt_ofInt, Int.bmod_eq_of_le (by omega) (by omega)]
    push_cast
    rfl
  rw [appendDigit, hi]
  exact congrArg Output.ret hw

theorem isDigit_digit (d : Fin 10) : isDigit (digit d) = true := by
  revert d
  decide

theorem Flags.with_width {f : Flags} (h : f.width = true) : { f with width := true } = f := by
  cases f
  cases h
  rfl

/-- The digits of a width, but for the first. -/
theorem specRead_width {f : Flags} {n : ℕ} {prec : ℤ} {ds : List (Fin 10)} (hf : f.belowLong)
    (hp : f.prec = false) (hw : f.width = true) (hlt : digitsFrom n ds < 2 ^ 31) :
    specRead fmtOrig apOrig ⟨f, n, prec, 0⟩ ap (ds.map digit ++ t) =
      specRead fmtOrig apOrig ⟨f, digitsFrom n ds, prec, 0⟩ ap t := by
  induction ds generalizing n with
  | nil => rfl
  | cons d ds ih =>
    have hd : 10 * n + d < 2 ^ 31 := (le_digitsFrom _ ds).trans_lt hlt
    have hc : specChar fmtOrig apOrig ⟨f, n, prec, 0⟩ ap (digit d) =
        .ret (.next ⟨f, (10 * n + d : ℕ), prec, 0⟩ ap) := by
      rw [specChar, if_neg (by simp [Flags.belowWidth, hw]),
        if_pos (by simp [hf, isDigit_digit]), if_neg (by simp [hp]),
        appendDigit_digit hd, Flags.with_width hw]
      rfl
    rw [List.map_cons, List.cons_append, specRead_next hc, ih hlt]
    rfl

theorem specRead_prec {f : Flags} {width : ℤ} {n : ℕ} {ds : List (Fin 10)} (hf : f.belowLong)
    (hp : f.prec = true) (hlt : digitsFrom n ds < 2 ^ 31) :
    specRead fmtOrig apOrig ⟨f, width, n, 0⟩ ap (ds.map digit ++ t) =
      specRead fmtOrig apOrig ⟨f, width, digitsFrom n ds, 0⟩ ap t := by
  induction ds generalizing n with
  | nil => rfl
  | cons d ds ih =>
    have hd : 10 * n + d < 2 ^ 31 := (le_digitsFrom _ ds).trans_lt hlt
    have hc : specChar fmtOrig apOrig ⟨f, width, n, 0⟩ ap (digit d) =
        .ret (.next ⟨f, width, (10 * n + d : ℕ), 0⟩ ap) := by
      rw [specChar, if_neg (by simp [Flags.belowWidth, hp]),
        if_pos (by simp [hf, isDigit_digit]), if_pos hp, appendDigit_digit hd]
      rfl
    rw [List.map_cons, List.cons_append, specRead_next hc, ih hlt]
    rfl

theorem checkFlag_digit {d : Fin 10} (hd : d ≠ 0) (f : Flags) : checkFlag (digit d) f = none := by
  have hne : ∀ d : Fin 10, d ≠ 0 → digit d ≠ chr '0' ∧ digit d ≠ chr '+' ∧ digit d ≠ chr ' ' ∧
      digit d ≠ chr '-' ∧ digit d ≠ chr '#' ∧ digit d ≠ chr '\'' := by decide
  obtain ⟨h₁, h₂, h₃, h₄, h₅, h₆⟩ := hne d hd
  rw [checkFlag, if_neg h₁, if_neg h₂, if_neg h₃, if_neg h₄, if_neg h₅, if_neg h₆]

theorem checkFlag_star (f : Flags) : checkFlag (chr '*') f = none := rfl

theorem checkFlag_dot (f : Flags) : checkFlag (chr '.') f = none := rfl

theorem isDigit_star : isDigit (chr '*') = false := rfl

theorem isDigit_dot : isDigit (chr '.') = false := rfl

theorem dot_ne_star : chr '.' ≠ chr '*' := by decide

def Flags.withWidth (f : Flags) : Amount → Flags
  | .digits [] => f
  | _ => { f with width := true }

theorem specRead_amount {f : Flags} {a : Amount} {width : ℤ} {ap' : VaList}
    (hv : a.value ap = some (width, ap')) (hne : ∀ ds, a = .digits ds → ds.head? ≠ some 0)
    (hlt : width < 2 ^ 31) (hf : f.belowWidth) :
    specRead fmtOrig apOrig ⟨f, 0, 0, 0⟩ ap (a.text ++ t) =
      specRead fmtOrig apOrig ⟨f.withWidth a, width, 0, 0⟩ ap' t := by
  have hb : f.belowLong = true ∧ f.prec = false := by
    simp only [Flags.belowWidth, Bool.and_eq_true, Bool.not_eq_true', Bool.or_eq_false_iff] at hf
    exact ⟨hf.2, hf.1.2⟩
  match a, hv with
  | .digits [], hv =>
    cases hv
    rfl
  | .digits (d :: ds), hv =>
    cases hv
    have hd : d ≠ 0 := fun h ↦ hne _ rfl (congrArg some h)
    have hn : 10 * 0 + d.val = d.val := by omega
    have hc : specChar fmtOrig apOrig ⟨f, 0, 0, 0⟩ ap (digit d) =
        .ret (.next ⟨{ f with width := true }, (d : ℕ), 0, 0⟩ ap) := by
      have ha := @appendDigit_digit 0 d (by omega)
      rw [Nat.cast_zero, hn] at ha
      rw [specChar, if_neg (by simp [checkFlag_digit hd]), if_pos (by simp [hb, isDigit_digit]),
        if_neg (by simp [hb]), ha]
      rfl
    have hw : digitsFrom 0 (d :: ds) = digitsFrom d ds := by
      rw [digitsFrom, List.foldl_cons, hn]
      rfl
    rw [Amount.text, List.map_cons, List.cons_append, specRead_next hc, hw]
    rw [hw] at hlt
    exact specRead_width hb.1 hb.2 rfl (by omega)
  | .star, hv =>
    cases ap with
    | nil => cases hv
    | cons x ap =>
      cases x with
      | word v =>
        cases hv
        have hc : specChar fmtOrig apOrig ⟨f, 0, 0, 0⟩ (.word v :: ap') (chr '*') =
            .ret (.next ⟨{ f with width := true }, v.toInt, 0, 0⟩ ap') := by
          rw [specChar, if_neg (by simp [checkFlag_star]), if_neg (by simp [isDigit_star]),
            if_pos (by simp [hb]), if_neg (by simp)]
          simp [vaInt, hb]
        exact specRead_next hc t
      | _ => cases hv

def Flags.withPrecision (f : Flags) (p : Option Amount) : Flags := { f with prec := p.isSome }

theorem specRead_precision {f : Flags} {p : Option Amount} {width : ℤ} {precision : Option ℤ}
    {ap' : VaList} (hv : Directive.precisionValue p ap = some (precision, ap'))
    (hlt : ∀ v ∈ precision, v < 2 ^ 31) (hb : f.belowLong) (hp : f.prec = false) :
    specRead fmtOrig apOrig ⟨f, width, 0, 0⟩ ap ((p.elim [] fun p ↦ chr '.' :: p.text) ++ t) =
      specRead fmtOrig apOrig ⟨f.withPrecision p, width, precision.getD 0, 0⟩ ap' t := by
  cases p with
  | none =>
    cases hv
    have hf : f.withPrecision none = f := by
      cases f
      cases hp
      rfl
    rw [hf]
    rfl
  | some p =>
    have hdot : specChar fmtOrig apOrig ⟨f, width, 0, 0⟩ ap (chr '.') =
        .ret (.next ⟨f.withPrecision (some p), width, 0, 0⟩ ap) := by
      rw [specChar, if_neg (by simp [checkFlag_dot]), if_neg (by simp [isDigit_dot]),
        if_neg (by simp [dot_ne_star]), if_pos (by simp [hb]), if_neg (by simp [hp])]
      rfl
    rw [Option.elim_some, List.cons_append, specRead_next hdot]
    match p, hv with
    | .digits ds, hv =>
      cases hv
      have hds : (digitsFrom 0 ds : ℤ) < 2 ^ 31 := hlt _ rfl
      exact specRead_prec hb rfl (by exact_mod_cast hds)
    | .star, hv =>
      cases ap with
      | nil => cases hv
      | cons x ap =>
        cases x with
        | word v =>
          cases hv
          have hc : specChar fmtOrig apOrig ⟨f.withPrecision (some .star), width, 0, 0⟩
              (.word v :: ap) (chr '*') =
              .ret (.next ⟨f.withPrecision (some .star), width, v.toInt, 0⟩ ap) := by
            have hb' : (f.withPrecision (some .star)).belowLong = true := hb
            rw [specChar, if_neg (by simp [checkFlag_star]), if_neg (by simp [isDigit_star]),
              if_pos (by simp [hb']), if_neg (by simp)]
            rfl
          exact specRead_next hc t
        | _ => cases hv

end Amounts

section Letters

/-- What is no flag, digit or other mark in a conversion. -/
structure Plain (c : Byte) : Prop where
  flag : ∀ f, checkFlag c f = none
  digit : isDigit c = false
  star : c ≠ chr '*'
  dot : c ≠ chr '.'
  dollar : c ≠ chr '$'

theorem specChar_plain {c : Byte} (h : Plain c) :
    specChar fmtOrig apOrig σ ap c =
      match checkIntSizes c σ.flags with
      | some flags => .ret (.next { σ with flags } ap)
      | none => .ret .leave := by
  rw [specChar, if_neg (by simp [h.flag]), if_neg (by simp [h.digit]), if_neg (by simp [h.star]),
    if_neg (by simp [h.dot]), if_neg (by simp [h.dollar])]
  rfl

theorem plain_chr {c : Char} (h : c ∈ ['h', 'l', 'j', 'z', 't'] ++ letters) : Plain (chr c) := by
  simp only [letters, List.cons_append, List.nil_append, List.mem_cons, List.not_mem_nil,
    or_false] at h
  rcases h with
    rfl | rfl | rfl | rfl | rfl | rfl | rfl | rfl | rfl | rfl | rfl | rfl | rfl | rfl <;>
    exact ⟨fun _ ↦ rfl, rfl, by decide, by decide, by decide⟩

theorem checkIntSizes_letter {c : Char} (h : c ∈ letters) (f : Flags) :
    checkIntSizes (chr c) f = none := by
  simp only [letters, List.mem_cons, List.not_mem_nil, or_false] at h
  rcases h with rfl | rfl | rfl | rfl | rfl | rfl | rfl | rfl | rfl <;> rfl

def Flags.withLength (f : Flags) : Length → Flags
  | .hh => { f with short := true, repdType := true }
  | .h => { f with short := true }
  | .none | .z | .t => f
  | .l => { f with long := true }
  | .ll | .j => { f with long := true, repdType := true }

theorem specRead_size {f f' : Flags} {width prec : ℤ} {c : Char}
    (h : c ∈ ['h', 'l', 'j', 'z', 't'] ++ letters)
    (hc : checkIntSizes (chr c) f = some f') (t : Text) :
    specRead fmtOrig apOrig ⟨f, width, prec, 0⟩ ap (chr c :: t) =
      specRead fmtOrig apOrig ⟨f', width, prec, 0⟩ ap t := by
  apply specRead_next
  rw [specChar_plain (plain_chr h), hc]

theorem specRead_length {f : Flags} {width prec : ℤ} (length : Length)
    (hb : f.long = false ∧ f.short = false ∧ f.repdType = false) :
    specRead fmtOrig apOrig ⟨f, width, prec, 0⟩ ap (length.text ++ t) =
      specRead fmtOrig apOrig ⟨f.withLength length, width, prec, 0⟩ ap t := by
  obtain ⟨hl, hs, hr⟩ := hb
  obtain ⟨f₁, f₂, f₃, f₄, f₅, f₆, f₇, f₈, f₉, f₁₀, f₁₁⟩ := f
  cases hl
  cases hs
  cases hr
  cases length with
  | hh => exact (specRead_size (by decide) rfl _).trans (specRead_size (by decide) rfl t)
  | ll => exact (specRead_size (by decide) rfl _).trans (specRead_size (by decide) rfl t)
  | none => rfl
  | _ => exact specRead_size (by decide) rfl t

theorem specRead_letter (c : Conversion) :
    specRead fmtOrig apOrig σ ap (c.letter :: t) = .ret (some ⟨σ, c.letter, some t, ap⟩) := by
  obtain ⟨x, hx, he⟩ := c.exists_letter
  rw [he]
  apply specRead_leave
  rw [specChar_plain (plain_chr (List.mem_append_right _ hx)), checkIntSizes_letter hx]

end Letters

def specOf (d : Directive) (width : ℤ) (precision : Option ℤ) : Spec where
  flags := (((Flags.ofList d.flags).withWidth d.width).withPrecision d.precision).withLength
    d.conversion.length
  width := width
  prec := precision.getD 0

theorem Flags.withWidth_belowLong (f : Flags) (a : Amount) :
    (f.withWidth a).belowLong = f.belowLong ∧ (f.withWidth a).prec = f.prec ∧
      (f.withWidth a).long = f.long ∧ (f.withWidth a).short = f.short ∧
      (f.withWidth a).repdType = f.repdType := by
  match a with
  | .digits [] => exact ⟨rfl, rfl, rfl, rfl, rfl⟩
  | .digits (_ :: _) => exact ⟨rfl, rfl, rfl, rfl, rfl⟩
  | .star => exact ⟨rfl, rfl, rfl, rfl, rfl⟩

theorem specRead_directive {d : Directive} {width : ℤ} {precision : Option ℤ} {ap' ap'' : VaList}
    (hw : d.width.value ap = some (width, ap'))
    (hp : Directive.precisionValue d.precision ap' = some (precision, ap''))
    (hwlt : width < 2 ^ 31) (hplt : ∀ v ∈ precision, v < 2 ^ 31) :
    specRead fmtOrig apOrig {} ap (d.text ++ t) =
      .ret (some ⟨specOf d width precision, d.conversion.letter, some t, ap''⟩) := by
  obtain ⟨hb, hprec, hl, hs, hr⟩ := (Flags.ofList d.flags).withWidth_belowLong d.width
  let f := ((Flags.ofList d.flags).withWidth d.width).withPrecision d.precision
  have hlen : f.long = false ∧ f.short = false ∧ f.repdType = false := ⟨hl, hs, hr⟩
  simp only [Directive.text, Conversion.text, List.append_assoc]
  rw [specRead_flags d.flags rfl]
  simp only [Flags.foldl_add]
  rw [specRead_amount hw d.head_ne hwlt rfl, specRead_precision hp hplt hb hprec,
    specRead_length _ hlen, List.singleton_append, specRead_letter]
  rfl

end Esp32c6Fw.Stdio
