import Esp32c6Fw.Lib.Unicode
import Mathlib.Algebra.GroupWithZero.Nat
import Mathlib.Data.List.DropRight
import Mathlib.Data.List.Forall2
import Mathlib.Data.List.TakeDrop

namespace Esp32c6Fw.Numeral

def ofDigits (ds : List ℕ) : ℕ := ds.foldl (fun n d ↦ 10 * n + d) 0

/-- `sys.int_info.default_max_str_digits`. -/
def maxStrDigits : ℕ := 4300

def intOfDigits (ds : List ℕ) : Option ℕ :=
  if ds.length ≤ maxStrDigits then some (ofDigits ds) else none

/-- The number is not too long for `str`. -/
def Writable (z : ℤ) : Prop := (Nat.toDigits 10 z.natAbs).length ≤ maxStrDigits

instance (z : ℤ) : Decidable (Writable z) := inferInstanceAs (Decidable (_ ≤ _))

theorem toDigits_eq (n : ℕ) : ∃ ds : List ℕ, ds ≠ [] ∧ (∀ d ∈ ds, d < 10) ∧ ofDigits ds = n ∧
    Nat.toDigits 10 n = ds.map Nat.digitChar := by
  induction n using Nat.strong_induction_on with
  | _ n ih =>
    by_cases hn : n < 10
    · exact ⟨[n], by simp, by simpa using hn, by simp [ofDigits], Nat.toDigits_of_lt_base hn⟩
    · obtain ⟨ds, -, hd, ho, ht⟩ := ih (n / 10) (by omega)
      refine ⟨ds ++ [n % 10], by simp, ?_, ?_, ?_⟩
      · intro d hm
        rcases List.mem_append.mp hm with hm | hm
        · exact hd d hm
        · rw [List.mem_singleton.mp hm]
          omega
      · rw [ofDigits, List.foldl_append, ← ofDigits, ho, List.foldl_cons, List.foldl_nil]
        omega
      · rw [Nat.toDigits_of_base_le (by decide) (not_lt.mp hn), ht, List.map_append]
        rfl

theorem toList_toString (z : ℤ) : (toString z).toList =
    if 0 ≤ z then Nat.toDigits 10 z.toNat else '-' :: Nat.toDigits 10 (-z).toNat := by
  rw [Int.toString_eq_repr, Int.repr_eq_if]
  split
  · exact Nat.toList_repr
  · rw [String.toList_append, Nat.toList_repr]
    rfl

theorem ofDigits_lt {ds : List ℕ} (h : ∀ d ∈ ds, d < 10) : ofDigits ds < 10 ^ ds.length := by
  induction ds using List.reverseRecOn with
  | nil => exact Nat.one_pos
  | append_singleton ds d ih =>
    have hd := h d (List.mem_append_right _ (List.mem_singleton_self d))
    have hlt := ih fun e he ↦ h e (List.mem_append_left _ he)
    rw [ofDigits, List.foldl_append, ← ofDigits, List.foldl_cons, List.foldl_nil,
      List.length_append, List.length_singleton, Nat.pow_succ]
    omega

theorem writable_iff (z : ℤ) : Writable z ↔ z.natAbs < 10 ^ maxStrDigits :=
  Nat.length_toDigits_le_iff (by decide) (by decide)

theorem writable_of_le {y z : ℤ} (h : Writable z) (hle : y.natAbs ≤ z.natAbs) : Writable y := by
  rw [writable_iff] at h ⊢
  exact hle.trans_lt h

theorem intOfDigits_eq_some {ds : List ℕ} {n : ℕ} :
    intOfDigits ds = some n ↔ ds.length ≤ maxStrDigits ∧ ofDigits ds = n := by
  rw [intOfDigits]
  split
  next h => simp only [h, true_and, Option.some.injEq]
  next h => simp only [h, false_and, reduceCtorEq]

/-- What `int` takes `str` gives. -/
theorem writable_of_intOfDigits {ds : List ℕ} {n : ℕ} (h : intOfDigits ds = some n)
    (hd : ∀ d ∈ ds, d < 10) : Writable n := by
  obtain ⟨hle, rfl⟩ := intOfDigits_eq_some.mp h
  rw [writable_iff, Int.natAbs_natCast]
  exact (ofDigits_lt hd).trans_le (Nat.pow_le_pow_right (by decide) hle)

theorem intOfDigits_of_writable {ds : List ℕ} {n : ℕ} (h : Writable n) (hd : Nat.toDigits 10 n =
    ds.map Nat.digitChar) (ho : ofDigits ds = n) : intOfDigits ds = some n := by
  rw [Writable, Int.natAbs_natCast, hd, List.length_map] at h
  exact intOfDigits_eq_some.mpr ⟨h, ho⟩

theorem mem_dropWhile {p : Char → Bool} {c : Char} {s : List Char} (hc : c ∈ s)
    (hp : p c = false) : c ∈ s.dropWhile p := by
  rw [← List.takeWhile_append_dropWhile (p := p) (l := s)] at hc
  rcases List.mem_append.mp hc with hc | hc
  · rw [List.mem_takeWhile_imp hc] at hp
    cases hp
  · exact hc

open Unicode

variable [Unicode]

def spanDigits : List Char → List ℕ × List Char
  | [] => ([], [])
  | c :: cs =>
    match digit c with
    | none => ([], c :: cs)
    | some d => (d :: (spanDigits cs).1, (spanDigits cs).2)

/-- Digits, with single underscores between them. -/
def grouped : List Char → Option (List ℕ)
  | [] => none
  | [c] => (digit c).map fun d ↦ [d]
  | c :: c' :: cs => do
    let d ← digit c
    let ds ← if c' = '_' then grouped cs else grouped (c' :: cs)
    return d :: ds

def strip (s : List Char) : List Char := (s.dropWhile isSpace).rdropWhile isSpace

def parseNat (cs : List Char) : Option ℕ := (grouped cs).bind intOfDigits

/-- `int(s)`, where it is defined. -/
def parseInt (s : List Char) : Option ℤ :=
  match strip s with
  | '-' :: cs => (parseNat cs).map fun n : ℕ ↦ -(n : ℤ)
  | '+' :: cs => (parseNat cs).map fun n : ℕ ↦ (n : ℤ)
  | cs => (parseNat cs).map fun n : ℕ ↦ (n : ℤ)

def Digits (cs : List Char) (ds : List ℕ) : Prop := List.Forall₂ (fun c d ↦ digit c = some d) cs ds

theorem digits_digitChar {ds : List ℕ} (h : ∀ d ∈ ds, d < 10) :
    Digits (ds.map Nat.digitChar) ds := by
  apply List.forall₂_map_left_iff.mpr
  exact List.forall₂_same.mpr fun d hd ↦ digit_digitChar (h d hd)

variable {cs rest : List Char} {ds : List ℕ}

theorem grouped_digits (h : Digits cs ds) (hne : ds ≠ []) : grouped cs = some ds := by
  induction h with
  | nil => exact absurd rfl hne
  | @cons c d cs ds hc h ih =>
    cases h with
    | nil => simp [grouped, hc]
    | @cons c' d' cs ds hc' h =>
      have ht := ih (List.cons_ne_nil _ _)
      simp only [grouped, hc, if_neg (ne_of_digit hc' '_' (by decide) rfl), ht]
      rfl

theorem spanDigits_digits (h : Digits cs ds) (hr : ∀ c ∈ rest.head?, digit c = none) :
    spanDigits (cs ++ rest) = (ds, rest) := by
  induction h with
  | nil =>
    cases rest with
    | nil => rfl
    | cons c rest => simp [spanDigits, hr c rfl]
  | cons hc _ ih => simp only [List.cons_append, spanDigits, hc, ih]

theorem lt_of_spanDigits (cs : List Char) : ∀ d ∈ (spanDigits cs).1, d < 10 := by
  induction cs with
  | nil => simp [spanDigits]
  | cons c cs ih =>
    rw [spanDigits]
    cases hc : digit c with
    | none => simp
    | some d => exact List.forall_mem_cons.mpr ⟨digit_lt hc, ih⟩

theorem strip_eq {s : List Char} (h : ∀ c ∈ s, isSpace c = false) : strip s = s := by
  have hd : s.dropWhile isSpace = s := by
    cases s with
    | nil => rfl
    | cons c s => rw [List.dropWhile_cons, h c (List.mem_cons_self ..)]; rfl
  rw [strip, hd, List.rdropWhile_eq_self_iff]
  intro hl
  rw [h _ (List.getLast_mem hl)]
  simp

theorem not_isSpace_of_digits (h : Digits cs ds) : ∀ c ∈ cs, isSpace c = false := by
  induction h with
  | nil => simp
  | cons hc _ ih => exact List.forall_mem_cons.mpr ⟨isSpace_digit hc, ih⟩

theorem parseNat_digits (h : Digits cs ds) (hne : ds ≠ []) : parseNat cs = intOfDigits ds := by
  rw [parseNat, grouped_digits h hne, Option.bind_some]

theorem parseInt_digits (h : Digits cs ds) (hne : ds ≠ []) :
    parseInt cs = (intOfDigits ds).map fun n : ℕ ↦ (n : ℤ) := by
  have hn := parseNat_digits h hne
  rw [parseInt, strip_eq (not_isSpace_of_digits h)]
  cases h with
  | nil => exact absurd rfl hne
  | cons hc _ =>
    have hm := ne_of_digit hc '-' (by decide) rfl
    have hp := ne_of_digit hc '+' (by decide) rfl
    split
    next h => exact absurd (List.cons_eq_cons.mp h).1 hm
    next h => exact absurd (List.cons_eq_cons.mp h).1 hp
    next => rw [hn]

theorem parseInt_minus (h : Digits cs ds) (hne : ds ≠ []) :
    parseInt ('-' :: cs) = (intOfDigits ds).map fun n : ℕ ↦ -(n : ℤ) := by
  have hminus : isSpace '-' = false := isSpace_ascii '-' (by decide)
  have hs : ∀ c ∈ '-' :: cs, isSpace c = false :=
    List.forall_mem_cons.mpr ⟨hminus, not_isSpace_of_digits h⟩
  rw [parseInt, strip_eq hs]
  simp only [parseNat_digits h hne]

theorem parseInt_toString {z : ℤ} (h : Writable z) : parseInt (toString z).toList = some z := by
  rw [toList_toString]
  split
  next hz =>
    obtain ⟨ds, hne, hd, ho, ht⟩ := toDigits_eq z.toNat
    have hw : Writable (z.toNat : ℤ) := writable_of_le h (by omega)
    rw [ht, parseInt_digits (digits_digitChar hd) hne, intOfDigits_of_writable hw ht ho,
      Option.map_some, Int.toNat_of_nonneg hz]
  next hz =>
    obtain ⟨ds, hne, hd, ho, ht⟩ := toDigits_eq (-z).toNat
    have hw : Writable ((-z).toNat : ℤ) := writable_of_le h (by omega)
    rw [ht, parseInt_minus (digits_digitChar hd) hne, intOfDigits_of_writable hw ht ho,
      Option.map_some, Int.toNat_of_nonneg (by omega), Int.neg_neg]

theorem mem_strip {c : Char} {s : List Char} (hc : c ∈ s) (hs : isSpace c = false) :
    c ∈ strip s := by
  rw [strip, List.rdropWhile, List.mem_reverse]
  apply mem_dropWhile _ hs
  rw [List.mem_reverse]
  exact mem_dropWhile hc hs

theorem mem_of_grouped (h : grouped cs = some ds) :
    ∀ c ∈ cs, c = '_' ∨ ∃ d, digit c = some d := by
  induction cs using grouped.induct generalizing ds with
  | case1 => cases h
  | case2 c =>
    obtain ⟨d, hd, -⟩ := Option.map_eq_some_iff.mp h
    intro c' hc
    rw [List.mem_singleton.mp hc]
    exact Or.inr ⟨d, hd⟩
  | case3 c c' cs ih ih' =>
    rw [grouped] at h
    obtain ⟨d, hd, h⟩ := Option.bind_eq_some_iff.mp h
    refine List.forall_mem_cons.mpr ⟨Or.inr ⟨d, hd⟩, ?_⟩
    simp only at h
    split at h
    next hc =>
      obtain ⟨es, hes, -⟩ := Option.bind_eq_some_iff.mp h
      exact List.forall_mem_cons.mpr ⟨Or.inl hc, ih hes⟩
    next =>
      obtain ⟨es, hes, -⟩ := Option.bind_eq_some_iff.mp h
      exact ih' hes

theorem lt_of_grouped (h : grouped cs = some ds) : ∀ d ∈ ds, d < 10 := by
  induction cs using grouped.induct generalizing ds with
  | case1 => cases h
  | case2 c =>
    obtain ⟨d, hd, rfl⟩ := Option.map_eq_some_iff.mp h
    exact List.forall_mem_singleton.mpr (digit_lt hd)
  | case3 c c' cs ih ih' =>
    rw [grouped] at h
    obtain ⟨d, hd, h⟩ := Option.bind_eq_some_iff.mp h
    simp only at h
    split at h
    next =>
      obtain ⟨es, hes, h⟩ := Option.bind_eq_some_iff.mp h
      cases h
      exact List.forall_mem_cons.mpr ⟨digit_lt hd, ih hes⟩
    next =>
      obtain ⟨es, hes, h⟩ := Option.bind_eq_some_iff.mp h
      cases h
      exact List.forall_mem_cons.mpr ⟨digit_lt hd, ih' hes⟩

theorem parseNat_of_parseInt {s : List Char} {z : ℤ} (h : parseInt s = some z) :
    ∃ cs n, parseNat cs = some n ∧ z.natAbs = n ∧
      (strip s = '-' :: cs ∨ strip s = '+' :: cs ∨ strip s = cs) := by
  rw [parseInt] at h
  split at h
  next cs hs =>
    obtain ⟨n, hn, rfl⟩ := Option.map_eq_some_iff.mp h
    exact ⟨cs, n, hn, by omega, Or.inl hs⟩
  next cs hs =>
    obtain ⟨n, hn, rfl⟩ := Option.map_eq_some_iff.mp h
    exact ⟨cs, n, hn, by omega, Or.inr (Or.inl hs)⟩
  next =>
    obtain ⟨n, hn, rfl⟩ := Option.map_eq_some_iff.mp h
    exact ⟨strip s, n, hn, by omega, Or.inr (Or.inr rfl)⟩

theorem writable_of_parseInt {s : List Char} {z : ℤ} (h : parseInt s = some z) : Writable z := by
  obtain ⟨cs, n, hn, hz, -⟩ := parseNat_of_parseInt h
  obtain ⟨ds, hg, hn⟩ := Option.bind_eq_some_iff.mp hn
  have hw := writable_of_intOfDigits hn (lt_of_grouped hg)
  exact writable_of_le hw (by omega)

theorem colon_not_mem_of_parseInt {s : List Char} {z : ℤ} (h : parseInt s = some z) : ':' ∉ s := by
  obtain ⟨cs, n, hn, -, hs⟩ := parseNat_of_parseInt h
  obtain ⟨ds, hg, -⟩ := Option.bind_eq_some_iff.mp hn
  have hcolon : ':' ∉ cs := by
    intro hc
    obtain he | ⟨d, hd⟩ := mem_of_grouped hg _ hc
    · cases he
    · exact ne_of_digit hd ':' (by decide) rfl rfl
  intro hc
  have hspace : isSpace ':' = false := isSpace_ascii ':' (by decide)
  have hstrip := mem_strip hc hspace
  rcases hs with hs | hs | hs
  · rw [hs] at hstrip
    exact hcolon (List.mem_of_ne_of_mem (by decide) hstrip)
  · rw [hs] at hstrip
    exact hcolon (List.mem_of_ne_of_mem (by decide) hstrip)
  · rw [hs] at hstrip
    exact hcolon hstrip

end Esp32c6Fw.Numeral
