import Mathlib.Init

namespace Esp32c6Fw

variable {S T C R : Type}

/-- What a component promises to who calls it: the calls that may be made in a state, and
what a call may return and leave. -/
structure Contract (T C R : Type) where
  Legal : T → C → Prop
  Step : T → C → R → T → Prop

namespace Contract

/-- A run of legal calls, with what each of them returns. -/
inductive Runs (K : Contract T C R) : T → List C → List R → T → Prop
  | nil (t : T) : Runs K t [] [] t
  | cons {t t' t'' : T} {c : C} {cs : List C} {r : R} {rs : List R} :
      K.Legal t c → K.Step t c r t' → Runs K t' cs rs t'' → Runs K t (c :: cs) (r :: rs) t''

variable {K : Contract T C R} {t t' : T} {cs : List C} {rs : List R}

theorem Runs.invariant {I : T → Prop} (hI : ∀ {t c r t'}, I t → K.Step t c r t' → I t')
    (h : K.Runs t cs rs t') (h₀ : I t) : I t' := by
  induction h with
  | nil => exact h₀
  | cons _ hs _ ih => exact ih (hI h₀ hs)

end Contract

/-- Call after call; `none` if one does not return. -/
def runCalls (exec : S → C → Option (R × S)) : S → List C → Option (List R × S)
  | s, [] => some ([], s)
  | s, c :: cs => do
    let (r, s) ← exec s c
    let (rs, s) ← runCalls exec s cs
    some (r :: rs, s)

/-- Every legal call returns, and does what the contract says. -/
def Refines (exec : S → C → Option (R × S)) (K : Contract T C R) (Rel : T → S → Prop) : Prop :=
  ∀ t s c, Rel t s → K.Legal t c →
    ∃ r s' t', exec s c = some (r, s') ∧ K.Step t c r t' ∧ Rel t' s'

variable {exec : S → C → Option (R × S)} {K : Contract T C R} {Rel : T → S → Prop} {s s' : S}
  {t t' : T} {c : C} {cs : List C} {r : R} {rs : List R}

theorem runCalls_cons {s'' : S} (h : exec s c = some (r, s'))
    (hs : runCalls exec s' cs = some (rs, s'')) :
    runCalls exec s (c :: cs) = some (r :: rs, s'') := by
  simp only [runCalls, h, hs, Option.bind_eq_bind, Option.bind_some]

/-- Up to the first call that is not legal, if there is one, a run does what the contract
says. -/
theorem Refines.runCalls (h : Refines exec K Rel) (hr : Rel t s) (cs : List C) :
    (∃ rs s' t', runCalls exec s cs = some (rs, s') ∧ K.Runs t cs rs t' ∧ Rel t' s') ∨
      ∃ cs₁ c cs₂ rs s' t', cs = cs₁ ++ c :: cs₂ ∧ Esp32c6Fw.runCalls exec s cs₁ = some (rs, s') ∧
        K.Runs t cs₁ rs t' ∧ ¬ K.Legal t' c := by
  induction cs generalizing s t with
  | nil => exact .inl ⟨[], s, t, rfl, .nil t, hr⟩
  | cons c cs ih =>
    by_cases hl : K.Legal t c
    · obtain ⟨r, s', t', he, hs, hr'⟩ := h t s c hr hl
      rcases ih hr' with ⟨rs, s'', t'', hrun, hruns, hr''⟩ |
        ⟨cs₁, c', cs₂, rs, s'', t'', rfl, hrun, hruns, hnl⟩
      · exact .inl ⟨r :: rs, s'', t'', runCalls_cons he hrun, .cons hl hs hruns, hr''⟩
      · exact .inr ⟨c :: cs₁, c', cs₂, r :: rs, s'', t'', rfl, runCalls_cons he hrun,
          .cons hl hs hruns, hnl⟩
    · exact .inr ⟨[], c, cs, [], s, t, rfl, rfl, .nil t, hl⟩

end Esp32c6Fw
