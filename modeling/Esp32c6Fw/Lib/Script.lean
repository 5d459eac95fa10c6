import Mathlib.Data.List.Infix

namespace Esp32c6Fw

variable {R X E α β σ : Type}

inductive Outcome (X α : Type) : Type
  | ok (a : α)
  | raise (x : X)
  | blocked
  deriving DecidableEq

def Outcome.bind (f : α → Outcome X β) : Outcome X α → Outcome X β
  | .ok a => f a
  | .raise x => .raise x
  | .blocked => .blocked

theorem Outcome.bind_eq_ok {o : Outcome X α} {f : α → Outcome X β} {b : β} :
    o.bind f = .ok b ↔ ∃ a, o = .ok a ∧ f a = .ok b := by
  cases o with
  | ok a => simp [Outcome.bind]
  | raise x | blocked => simp [Outcome.bind]

structure Result (R X E α : Type) where
  outcome : Outcome X α
  rest : List R
  log : List E
  deriving DecidableEq

namespace Result

def bind : Result R X E α → (α → List R → Result R X E β) → Result R X E β
  | ⟨.ok a, l, e⟩, f => ⟨(f a l).outcome, (f a l).rest, e ++ (f a l).log⟩
  | ⟨.raise x, l, e⟩, _ => ⟨.raise x, l, e⟩
  | ⟨.blocked, l, e⟩, _ => ⟨.blocked, l, e⟩

def attempt : Result R X E α → Result R X E (Except X α)
  | ⟨.ok a, l, e⟩ => ⟨.ok (.ok a), l, e⟩
  | ⟨.raise x, l, e⟩ => ⟨.ok (.error x), l, e⟩
  | ⟨.blocked, l, e⟩ => ⟨.blocked, l, e⟩

/-- `r'` is what `r` becomes when `post` follows the input: a blocked run goes on
from where it is, any other is over. -/
def Extends (post : List R) : Result R X E α → Result R X E α → Prop
  | ⟨.ok a, l, e⟩, r' => r' = ⟨.ok a, l ++ post, e⟩
  | ⟨.raise x, l, e⟩, r' => r' = ⟨.raise x, l ++ post, e⟩
  | ⟨.blocked, _, e⟩, r' => e <+: r'.log

variable {r r' : Result R X E α} {f f' : α → List R → Result R X E β} {l post : List R} {e : List E}

@[simp] theorem ok_bind (a : α) : bind (⟨.ok a, l, e⟩ : Result R X E α) f =
    ⟨(f a l).outcome, (f a l).rest, e ++ (f a l).log⟩ := rfl

@[simp] theorem raise_bind (x : X) :
    bind (⟨.raise x, l, e⟩ : Result R X E α) f = ⟨.raise x, l, e⟩ := rfl

@[simp] theorem blocked_bind :
    bind (⟨.blocked, l, e⟩ : Result R X E α) f = ⟨.blocked, l, e⟩ := rfl

@[simp] theorem ok_attempt (a : α) :
    attempt (⟨.ok a, l, e⟩ : Result R X E α) = ⟨.ok (.ok a), l, e⟩ := rfl

@[simp] theorem raise_attempt (x : X) :
    attempt (⟨.raise x, l, e⟩ : Result R X E α) = ⟨.ok (.error x), l, e⟩ := rfl

@[simp] theorem blocked_attempt :
    attempt (⟨.blocked, l, e⟩ : Result R X E α) = ⟨.blocked, l, e⟩ := rfl

theorem log_prefix_bind (r : Result R X E α) (f : α → List R → Result R X E β) :
    r.log <+: (r.bind f).log := by
  obtain ⟨o, l, e⟩ := r
  cases o with
  | ok a => exact List.prefix_append e _
  | raise x => exact List.prefix_refl e
  | blocked => exact List.prefix_refl e

theorem rest_bind_suffix {r : Result R X E α} {f : α → List R → Result R X E β} {l : List R}
    (h : r.rest <:+ l) (hf : ∀ a l, (f a l).rest <:+ l) : (r.bind f).rest <:+ l := by
  obtain ⟨o, l', e⟩ := r
  cases o with
  | ok a => exact (hf a l').trans h
  | raise x | blocked => exact h

theorem bind_congr (h : ∀ a, r.outcome = .ok a → f a r.rest = f' a r.rest) :
    r.bind f = r.bind f' := by
  obtain ⟨o, l, e⟩ := r
  cases o with
  | ok a => rw [ok_bind, ok_bind, h a rfl]
  | raise x => rfl
  | blocked => rfl

theorem bind_assoc {γ : Type} (r : Result R X E α) (f : α → List R → Result R X E β)
    (g : β → List R → Result R X E γ) :
    (r.bind f).bind g = r.bind fun a l ↦ (f a l).bind g := by
  obtain ⟨o, l, e⟩ := r
  cases o with
  | raise x | blocked => rfl
  | ok a =>
    rw [ok_bind, ok_bind]
    obtain ⟨o, l', e'⟩ := f a l
    cases o with
    | raise x | blocked => rfl
    | ok b => simp

theorem Extends.log (h : Extends post r r') : r.log <+: r'.log := by
  obtain ⟨o, l, e⟩ := r
  cases o with
  | ok a | raise x => rw [show r' = _ from h]
  | blocked => exact h

theorem Extends.bind (h : Extends post r r')
    (hf : ∀ a l, Extends post (f a l) (f' a (l ++ post))) :
    Extends post (r.bind f) (r'.bind f') := by
  obtain ⟨o, l, e⟩ := r
  cases o with
  | blocked => exact List.IsPrefix.trans (show e <+: r'.log from h) (log_prefix_bind r' f')
  | raise x =>
    cases h
    rfl
  | ok a =>
    cases h
    have ha := hf a l
    rw [ok_bind, ok_bind]
    generalize f a l = s at ha ⊢
    obtain ⟨o, l', e'⟩ := s
    cases o with
    | blocked => exact (List.prefix_append_right_inj e).mpr ha
    | ok b | raise x =>
      rw [show f' a (l ++ post) = _ from ha]
      rfl

theorem Extends.attempt (h : Extends post r r') : Extends post r.attempt r'.attempt := by
  obtain ⟨o, l, e⟩ := r
  cases o with
  | ok a | raise x =>
    cases h
    rfl
  | blocked =>
    obtain ⟨o', l', e'⟩ := r'
    cases o' <;> exact h

end Result

/-- A program that reads an input and keeps a log. It leaves an end of its
input, and on a part of its input it does a part of what it does on the whole. -/
structure Script (R X E α : Type) where
  run : List R → Result R X E α
  suffix : ∀ l, (run l).rest <:+ l
  causal : ∀ pre post, (run pre).Extends post (run (pre ++ post))

namespace Script

def raise (x : X) : Script R X E α where
  run l := ⟨.raise x, l, []⟩
  suffix := List.suffix_refl
  causal _ _ := rfl

def emit (e : E) : Script R X E Unit where
  run l := ⟨.ok (), l, [e]⟩
  suffix := List.suffix_refl
  causal _ _ := rfl

def readNext : List R → Result R X E R
  | [] => ⟨.blocked, [], []⟩
  | r :: l => ⟨.ok r, l, []⟩

def read : Script R X E R where
  run := readNext
  suffix l := by
    cases l with
    | nil => exact List.suffix_refl []
    | cons r l => exact List.suffix_cons r l
  causal pre post := by
    cases pre with
    | nil => exact List.nil_prefix
    | cons r l => rfl

instance : Monad (Script R X E) where
  pure a := ⟨fun l ↦ ⟨.ok a, l, []⟩, List.suffix_refl, fun _ _ ↦ rfl⟩
  bind p f := ⟨fun l ↦ (p.run l).bind fun a ↦ (f a).run,
    fun l ↦ Result.rest_bind_suffix (p.suffix l) fun a ↦ (f a).suffix,
    fun pre post ↦ (p.causal pre post).bind fun a l ↦ (f a).causal l post⟩

def attempt (p : Script R X E α) : Script R X E (Except X α) where
  run l := (p.run l).attempt
  suffix l := by
    have h := p.suffix l
    generalize p.run l = r at h
    obtain ⟨o, l', e⟩ := r
    cases o <;> exact h
  causal pre post := (p.causal pre post).attempt

def tryCatch (p : Script R X E α) (handler : X → Script R X E α) : Script R X E α := do
  match ← p.attempt with
  | .ok a => pure a
  | .error x => handler x

def tryFinally (p : Script R X E α) (q : Script R X E Unit) : Script R X E α := do
  let r ← p.attempt
  q
  match r with
  | .ok a => pure a
  | .error x => raise x

def iterate (body : σ → Script R X E (σ ⊕ α)) : ℕ → σ → List R → Result R X E α
  | 0, _, _ => ⟨.blocked, [], []⟩
  | n + 1, s, l => ((body s).run l).bind fun
    | .inl s', l' => iterate body n s' l'
    | .inr a, l' => ⟨.ok a, l', []⟩

theorem iterate_causal (body : σ → Script R X E (σ ⊕ α)) {n m : ℕ} (hnm : n ≤ m) (s : σ)
    (pre post : List R) :
    (iterate body n s pre).Extends post (iterate body m s (pre ++ post)) := by
  induction n generalizing m s pre with
  | zero => exact List.nil_prefix
  | succ n ih =>
    obtain ⟨m, rfl⟩ : ∃ k, m = k + 1 := ⟨m - 1, by omega⟩
    refine ((body s).causal pre post).bind (fun a l ↦ ?_)
    cases a with
    | inl s' => exact ih (by omega) s' l
    | inr a => rfl

theorem iterate_suffix (body : σ → Script R X E (σ ⊕ α)) (n : ℕ) (s : σ) (l : List R) :
    (iterate body n s l).rest <:+ l := by
  induction n generalizing s l with
  | zero => exact List.nil_suffix
  | succ n ih =>
    refine Result.rest_bind_suffix ((body s).suffix l) (fun a l ↦ ?_)
    cases a with
    | inl s' => exact ih s' l
    | inr a => exact List.suffix_refl l

/-- `while True`: run the body until it leaves with a value. -/
def loop (body : σ → Script R X E (σ ⊕ α)) (s : σ) : Script R X E α where
  run l := iterate body (l.length + 1) s l
  suffix l := iterate_suffix body _ s l
  causal pre post := iterate_causal body (by simp) s pre post

variable {p : Script R X E α} {f : α → Script R X E β} {l : List R}

@[simp] theorem run_pure (a : α) : (pure a : Script R X E α).run l = ⟨.ok a, l, []⟩ := rfl

@[simp] theorem run_bind : (p >>= f).run l = (p.run l).bind fun a ↦ (f a).run := rfl

@[simp] theorem run_raise (x : X) : (raise x : Script R X E α).run l = ⟨.raise x, l, []⟩ := rfl

@[simp] theorem run_emit (e : E) : (emit e : Script R X E Unit).run l = ⟨.ok (), l, [e]⟩ := rfl

@[simp] theorem run_read_nil : (read : Script R X E R).run [] = ⟨.blocked, [], []⟩ := rfl

@[simp] theorem run_read_cons (r : R) :
    (read : Script R X E R).run (r :: l) = ⟨.ok r, l, []⟩ := rfl

theorem eq_of_run {p q : Script R X E α} (h : ∀ l, p.run l = q.run l) : p = q := by
  obtain ⟨run, h₁, h₂⟩ := p
  obtain ⟨run', h₁', h₂'⟩ := q
  have hr : run = run' := funext h
  subst hr
  rfl

theorem bind_assoc {γ : Type} (p : Script R X E α) (f : α → Script R X E β)
    (g : β → Script R X E γ) : p >>= f >>= g = p >>= fun a ↦ f a >>= g :=
  eq_of_run fun _ ↦ Result.bind_assoc _ _ _

theorem pure_bind (a : α) (f : α → Script R X E β) : pure a >>= f = f a :=
  eq_of_run fun _ ↦ rfl

@[simp] theorem run_attempt : p.attempt.run l = (p.run l).attempt := rfl

def Consumes (p : Script R X E α) : Prop :=
  ∀ l a, (p.run l).outcome = .ok a → (p.run l).rest.length < l.length

theorem consumes_read : Consumes (read : Script R X E R) := by
  intro l a h
  cases l with
  | nil => cases h
  | cons r l => exact Nat.lt_succ_self _

theorem Consumes.bind (hp : Consumes p) (f : α → Script R X E β) : Consumes (p >>= f) := by
  intro l b h
  rw [run_bind] at h ⊢
  have hl := hp l
  generalize p.run l = r at h hl ⊢
  obtain ⟨o, l', e⟩ := r
  cases o with
  | ok a =>
    have hs := ((f a).suffix l').length_le
    exact lt_of_le_of_lt hs (hl a rfl)
  | raise x | blocked => cases h

section Loop

variable {body : σ → Script R X E (σ ⊕ α)} (hb : ∀ s, Consumes (body s))
include hb

theorem iterate_eq {n m : ℕ} {s : σ} (hn : l.length < n) (hm : l.length < m) :
    iterate body n s l = iterate body m s l := by
  induction n generalizing m s l with
  | zero => omega
  | succ n ih =>
    obtain ⟨m, rfl⟩ : ∃ k, m = k + 1 := ⟨m - 1, by omega⟩
    refine Result.bind_congr (fun a ha ↦ ?_)
    have hl := hb s l a ha
    cases a with
    | inl s' => exact ih (by omega) (by omega)
    | inr a => rfl

theorem run_loop (s : σ) (l : List R) :
    (loop body s).run l = ((body s).run l).bind fun
      | .inl s', l' => (loop body s').run l'
      | .inr a, l' => ⟨.ok a, l', []⟩ := by
  refine Result.bind_congr (fun a ha ↦ ?_)
  have hl := hb s l a ha
  cases a with
  | inl s' => exact iterate_eq hb (by omega) (by omega)
  | inr a => rfl

theorem Consumes.loop (s : σ) : Consumes (loop body s) := by
  intro l a h
  rw [run_loop hb] at h ⊢
  have hl := hb s l
  generalize (body s).run l = r at h hl ⊢
  obtain ⟨o, l', e⟩ := r
  cases o with
  | ok b =>
    have hr := hl b rfl
    cases b with
    | inl s' => exact lt_of_le_of_lt ((Script.loop body s').suffix l').length_le hr
    | inr b => exact hr
  | raise x | blocked => cases h

end Loop

theorem run_append_of_ok {a : α} {used : List R} {e : List E} (h : p.run used = ⟨.ok a, l, e⟩)
    (post : List R) : p.run (used ++ post) = ⟨.ok a, l ++ post, e⟩ := by
  have hc := p.causal used post
  rw [h] at hc
  exact hc

section Reraise

variable {x : X}

theorem reraise_eq_ok {a : α} {l l' : List R} {e : List E} :
    (tryCatch p fun _ ↦ raise x).run l = ⟨.ok a, l', e⟩ ↔ p.run l = ⟨.ok a, l', e⟩ := by
  rw [tryCatch, run_bind, run_attempt]
  obtain ⟨o, l₁, e₁⟩ := p.run l
  cases o with
  | raise y | blocked => simp
  | ok a' => simp

theorem log_reraise (l : List R) : ((tryCatch p fun _ ↦ raise x).run l).log = (p.run l).log := by
  rw [tryCatch, run_bind, run_attempt]
  obtain ⟨o, l₁, e₁⟩ := p.run l
  cases o with
  | ok a | raise y => simp
  | blocked => rfl

end Reraise

theorem log_prefix (p : Script R X E α) (pre post : List R) :
    (p.run pre).log <+: (p.run (pre ++ post)).log := (p.causal pre post).log

theorem blocked_of_append {pre post : List R} (h : (p.run (pre ++ post)).outcome = .blocked) :
    (p.run pre).outcome = .blocked := by
  have hc := p.causal pre post
  generalize p.run pre = r at hc ⊢
  obtain ⟨o, l, e⟩ := r
  cases o with
  | blocked => rfl
  | ok a | raise x =>
    rw [show p.run (pre ++ post) = _ from hc] at h
    cases h

section Log

variable {P : E → Prop}

def LogAll (P : E → Prop) (p : Script R X E α) : Prop := ∀ l, ∀ e ∈ (p.run l).log, P e

theorem logAll_pure (a : α) : LogAll P (pure a : Script R X E α) := by
  intro l e he
  cases he

theorem logAll_raise (x : X) : LogAll P (raise x : Script R X E α) := by
  intro l e he
  cases he

theorem logAll_emit {e : E} (h : P e) : LogAll P (emit e : Script R X E Unit) := by
  intro l e' he
  rw [List.mem_singleton.mp he]
  exact h

theorem logAll_read : LogAll P (read : Script R X E R) := by
  intro l e he
  cases l <;> cases he

theorem LogAll.bind (hp : LogAll P p) (hf : ∀ a, LogAll P (f a)) : LogAll P (p >>= f) := by
  intro l e he
  have hl := hp l
  rw [run_bind] at he
  generalize p.run l = r at he hl
  obtain ⟨o, l', es⟩ := r
  cases o with
  | ok a =>
    rcases List.mem_append.mp he with he | he
    · exact hl e he
    · exact hf a l' e he
  | raise x | blocked => exact hl e he

theorem log_attempt (p : Script R X E α) (l : List R) : (p.attempt.run l).log = (p.run l).log := by
  rw [run_attempt]
  obtain ⟨o, l', es⟩ := p.run l
  cases o <;> rfl

theorem LogAll.attempt (hp : LogAll P p) : LogAll P p.attempt := by
  intro l e he
  rw [log_attempt] at he
  exact hp l e he

theorem logAll_loop {body : σ → Script R X E (σ ⊕ α)} (hb : ∀ s, LogAll P (body s)) (s : σ) :
    LogAll P (loop body s) := by
  have hi : ∀ n s l, ∀ e ∈ (iterate body n s l).log, P e := by
    intro n
    induction n with
    | zero =>
      intro s l e he
      cases he
    | succ n ih =>
      intro s l e he
      have hl := hb s l
      rw [iterate] at he
      generalize (body s).run l = r at he hl
      obtain ⟨o, l', es⟩ := r
      cases o with
      | ok a =>
        rcases List.mem_append.mp he with he | he
        · exact hl e he
        · cases a with
          | inl s' => exact ih s' l' e he
          | inr a => cases he
      | raise x | blocked => exact hl e he
  exact fun l ↦ hi _ s l

theorem log_bind (hf : ∀ a, LogAll P (f a)) (l : List R) :
    ∃ tail, ((p >>= f).run l).log = (p.run l).log ++ tail ∧ ∀ e ∈ tail, P e := by
  rw [run_bind]
  obtain ⟨o, l', es⟩ := p.run l
  cases o with
  | ok a => exact ⟨_, rfl, hf a l'⟩
  | raise x | blocked => exact ⟨[], (List.append_nil es).symm, by simp⟩

/-- `try p except … finally q` does what `p` does and then only handles and cleans up. -/
theorem log_tryFinally {handler : X → Script R X E α} {q : Script R X E Unit}
    (hh : ∀ x, LogAll P (handler x)) (hq : LogAll P q) (l : List R) :
    ∃ tail, ((tryFinally (tryCatch p handler) q).run l).log = (p.run l).log ++ tail ∧
      ∀ e ∈ tail, P e := by
  obtain ⟨t₁, h₁, hP₁⟩ := log_bind (p := p.attempt) (P := P)
    (f := fun | .ok a => pure a | .error x => handler x) (fun r ↦ by
      cases r with
      | ok a => exact logAll_pure a
      | error x => exact hh x) l
  obtain ⟨t₂, h₂, hP₂⟩ := log_bind (p := (tryCatch p handler).attempt) (P := P)
    (f := fun r ↦ q >>= fun _ ↦ match r with | .ok a => pure a | .error x => raise x) (fun r ↦ by
      cases r with
      | ok a => exact hq.bind fun _ ↦ logAll_pure a
      | error x => exact hq.bind fun _ ↦ logAll_raise x) l
  rw [log_attempt] at h₁ h₂
  refine ⟨t₁ ++ t₂, ?_, ?_⟩
  · rw [← List.append_assoc, ← h₁]
    exact h₂
  · intro e he
    rcases List.mem_append.mp he with he | he
    · exact hP₁ e he
    · exact hP₂ e he

end Log

end Script

end Esp32c6Fw
