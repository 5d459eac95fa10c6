import Mathlib.Algebra.GroupWithZero.Nat
import Mathlib.Data.List.Forall2
import Mathlib.Data.List.Perm.Basic

namespace Esp32c6Fw.Fallible

variable {ε α β γ : Type}

theorem bind_eq_ok {x : Except ε α} {k : α → Except ε β} {y : β} :
    (x >>= k) = .ok y ↔ ∃ a, x = .ok a ∧ k a = .ok y := by
  cases x with
  | error e => exact ⟨fun h ↦ (by cases h), fun ⟨a, h, _⟩ ↦ (by cases h)⟩
  | ok a => exact ⟨fun h ↦ ⟨a, rfl, h⟩, fun ⟨a', h, hk⟩ ↦ by cases h; exact hk⟩

section Forall₂

variable {R : α → β → Prop} {l : List α} {bs : List β}

theorem mem_of_forall₂ (h : List.Forall₂ R l bs) {a : α} (ha : a ∈ l) : ∃ b ∈ bs, R a b := by
  induction h with
  | nil => cases ha
  | cons hr _ ih =>
    rcases List.mem_cons.mp ha with rfl | ha
    · exact ⟨_, List.mem_cons_self .., hr⟩
    · obtain ⟨b, hb, hr⟩ := ih ha
      exact ⟨b, List.mem_cons_of_mem _ hb, hr⟩

theorem forall₂_comp {Q : α → γ → Prop} {T : β → γ → Prop} {cs : List γ}
    (h : List.Forall₂ R l bs) (h' : List.Forall₂ Q l cs)
    (ht : ∀ a b c, R a b → Q a c → T b c) : List.Forall₂ T bs cs := by
  induction h generalizing cs with
  | nil =>
    cases h'
    exact .nil
  | cons hr _ ih =>
    cases h' with
    | cons hq h' => exact .cons (ht _ _ _ hr hq) (ih h')

theorem pairwise_of_forall₂ {P : β → β → Prop} {Q : α → α → Prop} (h : List.Forall₂ R l bs)
    (hp : bs.Pairwise P) (hq : ∀ a a' b b', R a b → R a' b' → P b b' → Q a a') :
    l.Pairwise Q := by
  induction h with
  | nil => exact .nil
  | cons hr hrs ih =>
    obtain ⟨hp₁, hp₂⟩ := List.pairwise_cons.mp hp
    refine List.pairwise_cons.mpr ⟨fun a' ha' ↦ ?_, ih hp₂⟩
    obtain ⟨b', hb', hr'⟩ := mem_of_forall₂ hrs ha'
    exact hq _ _ _ _ hr hr' (hp₁ b' hb')

theorem forall₂_getElem? (h : List.Forall₂ R l bs) {i : ℕ} {a : α} {b : β} (ha : l[i]? = some a)
    (hb : bs[i]? = some b) : R a b := by
  induction h generalizing i with
  | nil => cases ha
  | cons hr _ ih =>
    cases i with
    | zero =>
      cases ha
      cases hb
      exact hr
    | succ i => exact ih ha hb

theorem pairwise_getElem? {R : α → α → Prop} (hs : ∀ {a b}, R a b → R b a)
    {l : List α} (h : l.Pairwise R) {i j : ℕ} (hij : i ≠ j) {a b : α} (ha : l[i]? = some a)
    (hb : l[j]? = some b) : R a b := by
  obtain ⟨hi, rfl⟩ := List.getElem?_eq_some_iff.mp ha
  obtain ⟨hj, rfl⟩ := List.getElem?_eq_some_iff.mp hb
  rcases Nat.lt_or_gt_of_ne hij with hlt | hlt
  · exact List.pairwise_iff_getElem.mp h i j hi hj hlt
  · exact hs (List.pairwise_iff_getElem.mp h j i hj hi hlt)

/-- Lists that differ at one place, and there by weight, have different weights. -/
theorem sum_lt_of_forall₂ {weight : β → ℕ} (hu : Relator.RightUnique R) {as as' : List α} {a a' : α}
    (hlt : ∀ b b', R a b → R a' b' → weight b' < weight b) {bs bs' : List β}
    (h : List.Forall₂ R (as ++ a :: as') bs) (h' : List.Forall₂ R (as ++ a' :: as') bs') :
    (bs'.map weight).sum < (bs.map weight).sum := by
  induction as generalizing bs bs' with
  | nil =>
    cases h with
    | @cons _ b _ bs hb h =>
      cases h' with
      | @cons _ b' _ bs' hb' h' =>
        have hrest : bs' = bs := List.right_unique_forall₂' hu h' h
        have hfirst := hlt b b' hb hb'
        rw [hrest, List.map_cons, List.map_cons, List.sum_cons, List.sum_cons]
        omega
  | cons _ as ih =>
    cases h with
    | cons hb h =>
      cases h' with
      | cons hb' h' =>
        have hrest := ih h h'
        rw [hu hb' hb, List.map_cons, List.map_cons, List.sum_cons, List.sum_cons]
        omega

end Forall₂

variable {f : α → Except ε β} {l l' : List α} {bs : List β}

/-- A run over a list returns exactly if every turn does. -/
theorem mapM_eq_ok : l.mapM f = .ok bs ↔ List.Forall₂ (fun a b ↦ f a = .ok b) l bs := by
  constructor
  · intro h
    induction l generalizing bs with
    | nil =>
      cases h
      exact .nil
    | cons a l ih =>
      rw [List.mapM_cons] at h
      obtain ⟨b, hb, h⟩ := bind_eq_ok.mp h
      obtain ⟨bs', hbs, h⟩ := bind_eq_ok.mp h
      cases h
      exact .cons hb (ih hbs)
  · intro h
    induction h with
    | nil => rfl
    | cons hb _ ih =>
      rw [List.mapM_cons, hb, ih]
      rfl

theorem exists_mapM {R : α → β → Prop} (h : ∀ a ∈ l, ∃ b, f a = .ok b ∧ R a b) :
    ∃ bs, l.mapM f = .ok bs ∧ List.Forall₂ R l bs := by
  induction l with
  | nil => exact ⟨[], rfl, .nil⟩
  | cons a l ih =>
    rw [List.forall_mem_cons] at h
    obtain ⟨⟨b, hb, hr⟩, h⟩ := h
    obtain ⟨bs, hbs, hrs⟩ := ih h
    refine ⟨b :: bs, ?_, .cons hr hrs⟩
    rw [List.mapM_cons, hb, hbs]
    rfl

theorem mapM_perm (h : l.Perm l') (hl : l.mapM f = .ok bs) :
    ∃ bs', l'.mapM f = .ok bs' ∧ bs.Perm bs' := by
  obtain ⟨bs', hf, hp⟩ := List.perm_comp_forall₂ h.symm (mapM_eq_ok.mp hl)
  exact ⟨bs', mapM_eq_ok.mpr hf, hp.symm⟩

theorem mapM_eq_error {e : ε} (h : l.mapM f = .error e) : ∃ a ∈ l, f a = .error e := by
  induction l with
  | nil => cases h
  | cons a l ih =>
    rw [List.mapM_cons] at h
    cases ha : f a with
    | error e' =>
      rw [ha] at h
      cases h
      exact ⟨a, List.mem_cons_self, ha⟩
    | ok b =>
      rw [ha] at h
      cases hl : l.mapM f with
      | error e' =>
        rw [hl] at h
        cases h
        obtain ⟨c, hc, he⟩ := ih hl
        exact ⟨c, List.mem_cons_of_mem _ hc, he⟩
      | ok bs =>
        rw [hl] at h
        cases h

end Esp32c6Fw.Fallible
