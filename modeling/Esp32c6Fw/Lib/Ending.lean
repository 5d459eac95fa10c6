import Esp32c6Fw.Lib.Script

namespace Esp32c6Fw.Script

variable {R X E α β σ : Type} {p : Script R X E α} {f : α → Script R X E β} {l l' : List R}
  {q : R} {x : X}

section Returns

def Returns (p : Script R X E α) (l : List R) (a : α) (l' : List R) : Prop :=
  (p.run l).outcome = .ok a ∧ (p.run l).rest = l'

theorem returns_pure {a b : α} :
    Returns (pure a : Script R X E α) l b l' ↔ b = a ∧ l' = l := by
  simp only [Returns, run_pure, Outcome.ok.injEq, eq_comm]

theorem returns_emit {e : E} {u : Unit} :
    Returns (emit e : Script R X E Unit) l u l' ↔ l' = l := by
  simp only [Returns, run_emit, true_and, eq_comm]

theorem not_returns_raise {a : α} : ¬ Returns (raise x : Script R X E α) l a l' := by
  simp only [Returns, run_raise, reduceCtorEq, false_and, not_false_eq_true]

theorem returns_bind {b : β} : Returns (p >>= f) l b l' ↔
    ∃ a l₁, Returns p l a l₁ ∧ Returns (f a) l₁ b l' := by
  simp only [Returns, run_bind]
  generalize p.run l = r
  obtain ⟨o, l₁, e⟩ := r
  cases o with
  | ok a => simp
  | raise x | blocked => simp

theorem returns_reraise {a : α} :
    Returns (tryCatch p fun _ ↦ raise x) l a l' ↔ Returns p l a l' := by
  simp only [Returns, tryCatch, run_bind, run_attempt]
  generalize p.run l = r
  obtain ⟨o, l₁, e⟩ := r
  cases o with
  | ok a => simp
  | raise y | blocked => simp

theorem returns_loop {body : σ → Script R X E (σ ⊕ α)} (hb : ∀ s, Consumes (body s)) {s : σ}
    {a : α} : Returns (loop body s) l a l' ↔ Returns (body s) l (.inr a) l' ∨
      ∃ s' l₁, Returns (body s) l (.inl s') l₁ ∧ Returns (loop body s') l₁ a l' := by
  simp only [Returns, run_loop hb s]
  generalize (body s).run l = r
  obtain ⟨o, l₁, e⟩ := r
  cases o with
  | ok b => cases b <;> simp
  | raise x | blocked => simp

end Returns

section Raised

def Raises (p : Script R X E α) (l : List R) (x : X) (l' : List R) : Prop :=
  (p.run l).outcome = .raise x ∧ (p.run l).rest = l'

theorem raises_bind : Raises (p >>= f) l x l' ↔
    Raises p l x l' ∨ ∃ a l₁, Returns p l a l₁ ∧ Raises (f a) l₁ x l' := by
  simp only [Raises, Returns, run_bind]
  generalize p.run l = r
  obtain ⟨o, l₁, e⟩ := r
  cases o with
  | ok a => simp
  | raise y | blocked => simp

theorem raises_reraise {y : X} : Raises (tryCatch p fun _ ↦ raise x) l y l' ↔
    y = x ∧ ∃ z, Raises p l z l' := by
  simp only [Raises, tryCatch, run_bind, run_attempt]
  generalize p.run l = r
  obtain ⟨o, l₁, e⟩ := r
  cases o with
  | raise z => simp [eq_comm]
  | ok a | blocked => simp

theorem raises_loop {body : σ → Script R X E (σ ⊕ α)} (hb : ∀ s, Consumes (body s)) {s : σ} :
    Raises (loop body s) l x l' ↔ Raises (body s) l x l' ∨
      ∃ s' l₁, Returns (body s) l (.inl s') l₁ ∧ Raises (loop body s') l₁ x l' := by
  simp only [Raises, Returns, run_loop hb s]
  generalize (body s).run l = r
  obtain ⟨o, l₁, e⟩ := r
  cases o with
  | ok b => cases b <;> simp
  | raise x | blocked => simp

end Raised

section Try

variable {handler : X → Script R X E α} {c : Script R X E Unit} {a : α} {e : List E}

theorem run_tryCatch_ok (h : p.run l = ⟨.ok a, l', e⟩) :
    (Script.tryCatch p handler).run l = ⟨.ok a, l', e⟩ := by
  simp [Script.tryCatch, h]

theorem run_tryCatch_raise (h : p.run l = ⟨.raise x, l', e⟩) :
    (Script.tryCatch p handler).run l = ⟨((handler x).run l').outcome, ((handler x).run l').rest,
      e ++ ((handler x).run l').log⟩ := by
  simp [Script.tryCatch, h]

theorem run_tryCatch_blocked (h : p.run l = ⟨.blocked, l', e⟩) :
    (Script.tryCatch p handler).run l = ⟨.blocked, l', e⟩ := by
  simp [Script.tryCatch, h]

theorem run_tryFinally_ok (h : p.run l = ⟨.ok a, l', e⟩) : (Script.tryFinally p c).run l =
    ⟨(c.run l').outcome.bind fun _ ↦ .ok a, (c.run l').rest, e ++ (c.run l').log⟩ := by
  simp only [Script.tryFinally, run_bind, run_attempt, h, Result.ok_attempt, Result.ok_bind]
  generalize c.run l' = r
  obtain ⟨o, l₁, e₁⟩ := r
  cases o <;> simp [Outcome.bind]

/-- What `finally` raises hides what was raised before it. -/
theorem run_tryFinally_raise (h : p.run l = ⟨.raise x, l', e⟩) : (Script.tryFinally p c).run l =
    ⟨(c.run l').outcome.bind fun _ ↦ .raise x, (c.run l').rest, e ++ (c.run l').log⟩ := by
  simp only [Script.tryFinally, run_bind, run_attempt, h, Result.raise_attempt, Result.ok_bind]
  generalize c.run l' = r
  obtain ⟨o, l₁, e₁⟩ := r
  cases o <;> simp [Outcome.bind]

theorem run_tryFinally_blocked (h : p.run l = ⟨.blocked, l', e⟩) :
    (Script.tryFinally p c).run l = ⟨.blocked, l', e⟩ := by
  simp [Script.tryFinally, h]

end Try

section RaiseAll

variable {P : X → Prop}

def RaiseAll (P : X → Prop) (p : Script R X E α) : Prop :=
  ∀ l x, (p.run l).outcome = .raise x → P x

theorem raiseAll_pure (a : α) : RaiseAll P (pure a : Script R X E α) := by
  intro l x h
  cases h

theorem raiseAll_raise (h : P x) : RaiseAll P (raise x : Script R X E α) := by
  intro l y hy
  cases hy
  exact h

theorem raiseAll_emit (e : E) : RaiseAll P (emit e : Script R X E Unit) := by
  intro l x h
  cases h

theorem RaiseAll.bind (hp : RaiseAll P p) (hf : ∀ a, RaiseAll P (f a)) :
    RaiseAll P (p >>= f) := by
  intro l x h
  have hl := hp l
  rw [run_bind] at h
  generalize p.run l = r at h hl
  obtain ⟨o, l', e⟩ := r
  cases o with
  | ok a => exact hf a l' x h
  | raise y =>
    cases h
    exact hl _ rfl
  | blocked => cases h

theorem raiseAll_reraise (h : P x) : RaiseAll P (tryCatch p fun _ ↦ raise x) := by
  intro l y hy
  rw [tryCatch, run_bind, run_attempt] at hy
  generalize p.run l = r at hy
  obtain ⟨o, l', e⟩ := r
  cases o with
  | ok a | blocked => cases hy
  | raise z =>
    cases hy
    exact h

end RaiseAll

section Ends

/-- The program ends, once its input goes on with enough of `q`. -/
def Ends (q : R) (p : Script R X E α) : Prop :=
  ∀ l, ∃ n, (p.run (l ++ List.replicate n q)).outcome ≠ .blocked

theorem ends_of_outcome (h : ∀ l, (p.run l).outcome ≠ .blocked) : Ends q p :=
  fun _ ↦ ⟨0, h _⟩

theorem ends_pure (a : α) : Ends q (pure a : Script R X E α) :=
  ends_of_outcome fun _ h ↦ by cases h

theorem ends_raise (x : X) : Ends q (raise x : Script R X E α) :=
  ends_of_outcome fun _ h ↦ by cases h

theorem ends_emit (e : E) : Ends q (emit e : Script R X E Unit) :=
  ends_of_outcome fun _ h ↦ by cases h

theorem Ends.bind (hp : Ends q p) (hf : ∀ a, Ends q (f a)) : Ends q (p >>= f) := by
  intro l
  obtain ⟨n, hn⟩ := hp l
  generalize hr : p.run (l ++ List.replicate n q) = r at hn
  obtain ⟨o, l', e⟩ := r
  cases o with
  | blocked => exact absurd rfl hn
  | raise x =>
    refine ⟨n, ?_⟩
    rw [run_bind, hr]
    exact fun ho ↦ by cases ho
  | ok a =>
    obtain ⟨m, hm⟩ := hf a l'
    refine ⟨n + m, ?_⟩
    rw [List.replicate_add, ← List.append_assoc, run_bind, run_append_of_ok hr]
    exact hm

theorem Ends.attempt (hp : Ends q p) : Ends q p.attempt := by
  intro l
  obtain ⟨n, hn⟩ := hp l
  refine ⟨n, ?_⟩
  rw [run_attempt]
  generalize p.run (l ++ List.replicate n q) = r at hn ⊢
  obtain ⟨o, l', e⟩ := r
  cases o with
  | blocked => exact absurd rfl hn
  | ok a | raise x => exact fun h ↦ by cases h

theorem Ends.tryCatch {handler : X → Script R X E α} (hp : Ends q p)
    (hh : ∀ x, Ends q (handler x)) : Ends q (tryCatch p handler) := by
  apply hp.attempt.bind
  intro r
  cases r with
  | ok a => exact ends_pure a
  | error x => exact hh x

theorem Ends.tryFinally {c : Script R X E Unit} (hp : Ends q p) (hc : Ends q c) :
    Ends q (tryFinally p c) := by
  refine hp.attempt.bind fun r ↦ hc.bind fun _ ↦ ?_
  cases r with
  | ok a => exact ends_pure a
  | error x => exact ends_raise x

variable [DecidableEq R]

def noise (q : R) (l : List R) : ℕ := l.countP (· ≠ q)

theorem noise_append_replicate (q : R) (l : List R) (n : ℕ) :
    noise q (l ++ List.replicate n q) = noise q l := by
  rw [noise, List.countP_append, List.countP_replicate]
  simp [noise]

theorem noise_cons {r : R} (h : r ≠ q) (l : List R) : noise q (r :: l) = noise q l + 1 :=
  List.countP_cons_of_pos (by simpa using h)

theorem noise_le_of_suffix (h : l' <:+ l) : noise q l' ≤ noise q l :=
  h.sublist.countP_le

/-- A loop ends if each turn does and goes on only when it has read something but `q`. -/
theorem ends_loop {body : σ → Script R X E (σ ⊕ α)} (hc : ∀ s, Consumes (body s))
    (hb : ∀ s, Ends q (body s))
    (hn : ∀ s l s' l', Returns (body s) l (.inl s') l' → noise q l' < noise q l) (s : σ) :
    Ends q (loop body s) := by
  intro l
  induction h : noise q l using Nat.strong_induction_on generalizing l s with
  | _ k ih =>
    obtain ⟨n, hbn⟩ := hb s l
    have hlt := hn s (l ++ List.replicate n q)
    rw [noise_append_replicate, h] at hlt
    generalize hr : (body s).run (l ++ List.replicate n q) = r at hbn
    obtain ⟨o, l', e⟩ := r
    cases o with
    | blocked => exact absurd rfl hbn
    | raise x =>
      refine ⟨n, ?_⟩
      rw [run_loop hc, hr]
      exact fun ho ↦ by cases ho
    | ok a =>
      cases a with
      | inr a =>
        refine ⟨n, ?_⟩
        rw [run_loop hc, hr]
        exact fun ho ↦ by cases ho
      | inl s' =>
        obtain ⟨m, hm⟩ := ih _ (hlt s' l' ⟨by rw [hr], by rw [hr]⟩) s' l' rfl
        refine ⟨n + m, ?_⟩
        rw [List.replicate_add, ← List.append_assoc, run_loop hc, run_append_of_ok hr]
        exact hm

end Ends

end Esp32c6Fw.Script
