import Esp32c6Fw.Lib.Mmio

namespace Esp32c6Fw.Mmio

variable {S A V α β : Type}

/-- Registers of a device that also moves by itself, in `env` steps. -/
structure Device (S A V : Type) where
  load : S → A → V
  store : S → A → V → S → Prop
  env : S → S → Prop

inductive Step (D : Device S A V) : Prog A V α → S → Moment S A V → Prog A V α → S → Prop
  | read (addr : A) (k : V → Prog A V α) (s : S) :
      Step D (.read addr k) s ⟨s, some (.read addr (D.load s addr)), s⟩ (k (D.load s addr)) s
  | write {addr : A} {v : V} {k : Prog A V α} {s s' : S} :
      D.store s addr v s' → Step D (.write addr v k) s ⟨s, some (.write addr v), s'⟩ k s'
  | ready {addr : A} {ready : V → Bool} {k : V → Prog A V α} {s : S} :
      ready (D.load s addr) = true →
      Step D (.poll addr ready k) s ⟨s, some (.read addr (D.load s addr)), s⟩
        (k (D.load s addr)) s
  | again {addr : A} {ready : V → Bool} {k : V → Prog A V α} {s : S} :
      ready (D.load s addr) = false →
      Step D (.poll addr ready k) s ⟨s, some (.read addr (D.load s addr)), s⟩
        (.poll addr ready k) s
  | env {p : Prog A V α} {s s' : S} : D.env s s' → Step D p s ⟨s, none, s'⟩ p s'

/-- A routine and its device, interleaved in any order. -/
inductive Run (D : Device S A V) :
    Prog A V α → S → List (Moment S A V) → Prog A V α → S → Prop
  | nil (p : Prog A V α) (s : S) : Run D p s [] p s
  | cons {p p' p'' : Prog A V α} {s s' s'' : S} {m : Moment S A V} {t : List (Moment S A V)} :
      Step D p s m p' s' → Run D p' s' t p'' s'' → Run D p s (m :: t) p'' s''

/-- Calls made one after the other. `as` are the results of those that have
returned and `qs` what is left, the first of them in progress. -/
inductive Session (D : Device S A V) : List (Prog A V α) → S → List (Moment S A V) →
    List α → List (Prog A V α) → S → Prop
  | nil (ps : List (Prog A V α)) (s : S) : Session D ps s [] [] ps s
  | step {p p' : Prog A V α} {ps qs : List (Prog A V α)} {s s' s'' : S} {m : Moment S A V}
      {t : List (Moment S A V)} {as : List α} :
      Step D p s m p' s' → Session D (p' :: ps) s' t as qs s'' →
      Session D (p :: ps) s (m :: t) as qs s''
  | returned {a : α} {ps qs : List (Prog A V α)} {s s' : S} {t : List (Moment S A V)}
      {as : List α} : Session D ps s t as qs s' → Session D (.ret a :: ps) s t (a :: as) qs s'
  | idle {s s' s'' : S} {t : List (Moment S A V)} {as : List α} {qs : List (Prog A V α)} :
      D.env s s' → Session D [] s' t as qs s'' → Session D [] s (⟨s, none, s'⟩ :: t) as qs s''

theorem step_bind {D : Device S A V} {p : Prog A V α} {f : α → Prog A V β} {r : Prog A V β}
    {s s' : S} {m : Moment S A V} (h : Step D (p >>= f) s m r s') :
    (∃ p', Step D p s m p' s' ∧ r = p' >>= f) ∨ ∃ a, p = .ret a := by
  cases p with
  | ret a => exact .inr ⟨a, rfl⟩
  | read addr k =>
    rw [Prog.read_bind] at h
    cases h with
    | read => exact .inl ⟨_, .read addr k s, rfl⟩
    | env he => exact .inl ⟨_, .env he, rfl⟩
  | write addr v k =>
    rw [Prog.write_bind] at h
    cases h with
    | write hst => exact .inl ⟨_, .write hst, rfl⟩
    | env he => exact .inl ⟨_, .env he, rfl⟩
  | poll addr ready k =>
    rw [Prog.poll_bind] at h
    cases h with
    | ready hr => exact .inl ⟨_, .ready hr, rfl⟩
    | again hr => exact .inl ⟨_, .again hr, rfl⟩
    | env he => exact .inl ⟨_, .env he, rfl⟩

theorem run_bind {D : Device S A V} {p : Prog A V α} {f : α → Prog A V β} {q : Prog A V β}
    {s s' : S} {t : List (Moment S A V)} (h : Run D (p >>= f) s t q s') :
    (∃ p', Run D p s t p' s' ∧ q = p' >>= f) ∨
    (∃ a s₁ t₁ t₂, t = t₁ ++ t₂ ∧ Run D p s t₁ (.ret a) s₁ ∧ Run D (f a) s₁ t₂ q s') := by
  generalize hr : p >>= f = r at h
  induction h generalizing p with
  | nil r s => exact .inl ⟨p, .nil p s, hr.symm⟩
  | @cons r r' r'' s s' s'' m t hs ht ih =>
    subst hr
    rcases step_bind hs with ⟨p', hp, rfl⟩ | ⟨a, rfl⟩
    · rcases ih rfl with ⟨q', hq, rfl⟩ | ⟨a, s₁, t₁, t₂, rfl, h₁, h₂⟩
      · exact .inl ⟨q', .cons hp hq, rfl⟩
      · exact .inr ⟨a, s₁, m :: t₁, t₂, rfl, .cons hp h₁, h₂⟩
    · exact .inr ⟨a, s, [], m :: t, rfl, .nil _ _, .cons hs ht⟩

theorem session_nil {D : Device S A V} {qs : List (Prog A V α)} {s s' : S}
    {t : List (Moment S A V)} {as : List α} (hs : Session D [] s t as qs s') : as = [] := by
  generalize hps : [] = ps at hs
  induction hs with
  | nil => rfl
  | step | returned => cases hps
  | idle _ _ ih => exact ih rfl

theorem session_of_run {D : Device S A V} {p q : Prog A V α} {ps qs : List (Prog A V α)} {a : α}
    {s s' s'' : S} {t t' : List (Moment S A V)} {as : List α} (hr : Run D p s t q s')
    (hq : q = .ret a) (hs : Session D ps s' t' as qs s'') :
    Session D (p :: ps) s (t ++ t') (a :: as) qs s'' := by
  induction hr with
  | nil p s =>
    cases hq
    exact .returned hs
  | cons hm _ ih => exact .step hm (ih hq hs)

theorem session_cons {D : Device S A V} {p : Prog A V α} {ps qs : List (Prog A V α)} {s s' : S}
    {t : List (Moment S A V)} {as : List α} (hs : Session D (p :: ps) s t as qs s') :
    as = [] ∨ ∃ a as' t₁ t₂ s₁, as = a :: as' ∧ t = t₁ ++ t₂ ∧ Run D p s t₁ (.ret a) s₁ ∧
      Session D ps s₁ t₂ as' qs s' := by
  generalize hps : p :: ps = ps₀ at hs
  induction hs generalizing p with
  | nil => exact .inl rfl
  | step hm ht ih =>
    cases hps
    rcases ih rfl with rfl | ⟨a, as', t₁, t₂, s₁, rfl, rfl, hr, hs⟩
    · exact .inl rfl
    · exact .inr ⟨a, as', _ :: t₁, t₂, s₁, rfl, rfl, .cons hm hr, hs⟩
  | returned ht ih =>
    cases hps
    exact .inr ⟨_, _, [], _, _, rfl, rfl, .nil _ _, ht⟩
  | idle => cases hps

section Moves

variable {D : Device S A V} {W : A → V → Prop}

def OnlyWrites (W : A → V → Prop) : Prog A V α → Prop
  | .ret _ => True
  | .read _ k => ∀ v, OnlyWrites W (k v)
  | .write addr v k => W addr v ∧ OnlyWrites W k
  | .poll _ _ k => ∀ v, OnlyWrites W (k v)

def OnlyReturns (R : α → Prop) : Prog A V α → Prop
  | .ret a => R a
  | .read _ k => ∀ v, OnlyReturns R (k v)
  | .write _ _ k => OnlyReturns R k
  | .poll _ _ k => ∀ v, OnlyReturns R (k v)

def Moves (D : Device S A V) (W : A → V → Prop) (m : Moment S A V) : Prop :=
  match m.access with
  | none => D.env m.before m.after
  | some (.read _ _) => m.after = m.before
  | some (.write addr v) => W addr v ∧ D.store m.before addr v m.after

theorem step_moves {p p' : Prog A V α} {s s' : S} {m : Moment S A V} (hp : OnlyWrites W p)
    (h : Step D p s m p' s') :
    Moves D W m ∧ OnlyWrites W p' ∧ m.before = s ∧ m.after = s' := by
  cases h with
  | read => exact ⟨rfl, hp _, rfl, rfl⟩
  | write hst => exact ⟨⟨hp.1, hst⟩, hp.2, rfl, rfl⟩
  | ready hr => exact ⟨rfl, hp _, rfl, rfl⟩
  | again hr => exact ⟨rfl, hp, rfl, rfl⟩
  | env he => exact ⟨he, hp, rfl, rfl⟩

theorem run_moves {p p' : Prog A V α} {s s' : S} {t : List (Moment S A V)} (hp : OnlyWrites W p)
    (h : Run D p s t p' s') : ∀ m ∈ t, Moves D W m := by
  induction h with
  | nil => simp
  | cons hm ht ih =>
    obtain ⟨h₁, h₂, -⟩ := step_moves hp hm
    simp only [List.forall_mem_cons]
    exact ⟨h₁, ih h₂⟩

theorem session_invariant {P : S → Prop} (hP : ∀ m, Moves D W m → P m.before → P m.after)
    {ps qs : List (Prog A V α)} {s s' : S} {t : List (Moment S A V)} {as : List α}
    (hs : Session D ps s t as qs s') (hps : ∀ p ∈ ps, OnlyWrites W p) (h₀ : P s) :
    ∀ m ∈ t, P m.after := by
  induction hs with
  | nil => simp
  | step hm ht ih =>
    simp only [List.forall_mem_cons] at hps
    obtain ⟨h₁, h₂, rfl, rfl⟩ := step_moves hps.1 hm
    have hm' := hP _ h₁ h₀
    simp only [List.forall_mem_cons]
    exact ⟨hm', ih (by simpa using ⟨h₂, hps.2⟩) hm'⟩
  | returned ht ih =>
    simp only [List.forall_mem_cons] at hps
    exact ih hps.2 h₀
  | @idle s s' s'' t as qs he ht ih =>
    have hm : P s' := hP ⟨s, none, s'⟩ he h₀
    simp only [List.forall_mem_cons]
    exact ⟨hm, ih hps hm⟩

end Moves

/-- From history `h` and state `s`, every run of `p` keeps `I`, and `Q` holds when it returns. -/
def Safe (D : Device S A V) (I : List (Moment S A V) → S → Prop)
    (Q : α → List (Moment S A V) → S → Prop) (p : Prog A V α) (h : List (Moment S A V)) (s : S) :
    Prop :=
  ∀ t p' s', Run D p s t p' s' → I (h ++ t) s' ∧ ∀ a, p' = .ret a → Q a (h ++ t) s'

structure Stable (D : Device S A V) (P : List (Moment S A V) → S → Prop) : Prop where
  env : ∀ h s s', P h s → D.env s s' → P (h ++ [⟨s, none, s'⟩]) s'
  read : ∀ h s addr, P h s → P (h ++ [⟨s, some (.read addr (D.load s addr)), s⟩]) s

namespace Safe

variable {D : Device S A V} {I P : List (Moment S A V) → S → Prop}
  {Q : α → List (Moment S A V) → S → Prop} {h : List (Moment S A V)} {s : S}

theorem bind {p : Prog A V α} {f : α → Prog A V β} {Q' : β → List (Moment S A V) → S → Prop}
    (hp : Safe D I Q p h s) (hf : ∀ a h s, Q a h s → Safe D I Q' (f a) h s) :
    Safe D I Q' (p >>= f) h s := by
  intro t r s' ht
  rcases run_bind ht with ⟨p', hr, rfl⟩ | ⟨a, s₁, t₁, t₂, rfl, h₁, h₂⟩
  · refine ⟨(hp t p' s' hr).1, fun b hb ↦ ?_⟩
    cases p' with
    | ret a =>
      have ha := hf a _ _ ((hp t _ s' hr).2 a rfl) [] _ _ (.nil _ _)
      rw [List.append_nil] at ha
      exact ha.2 b hb
    | read | write | poll => cases hb
  · rw [← List.append_assoc]
    exact hf a _ _ ((hp t₁ _ s₁ h₁).2 a rfl) t₂ r s' h₂

/-- Step by step: each either stays where it is and keeps `P`, or leads on to what is safe. -/
theorem of_steps {p : Prog A V α} (hI : ∀ h s, P h s → I h s)
    (hQ : ∀ a h s, p = .ret a → P h s → Q a h s)
    (hstep : ∀ h s m p' s', P h s → Step D p s m p' s' →
      (p' = p ∧ P (h ++ [m]) s') ∨ Safe D I Q p' (h ++ [m]) s')
    (hs : P h s) : Safe D I Q p h s := by
  intro t q s' ht
  induction ht generalizing h with
  | nil p s =>
    rw [List.append_nil]
    exact ⟨hI h s hs, fun a ha ↦ hQ a h s ha hs⟩
  | cons hst ht ih =>
    rw [List.append_cons]
    rcases hstep _ _ _ _ _ hs hst with ⟨rfl, hs'⟩ | hn
    · exact ih hQ hstep hs'
    · exact hn _ _ _ ht

theorem ret {a : α} (hP : Stable D P) (hI : ∀ h s, P h s → I h s) (hQ : ∀ h s, P h s → Q a h s)
    (hs : P h s) : Safe D I Q (.ret a) h s := by
  refine of_steps hI (fun b h s hb hs ↦ ?_) (fun h s m p' s' hs hst ↦ ?_) hs
  · cases hb
    exact hQ h s hs
  · cases hst with
    | env he => exact .inl ⟨rfl, hP.env _ _ _ hs he⟩

theorem read {addr : A} {k : V → Prog A V α} (hP : Stable D P) (hI : ∀ h s, P h s → I h s)
    (hk : ∀ h s, P h s → Safe D I Q (k (D.load s addr)) h s)
    (hs : P h s) : Safe D I Q (.read addr k) h s := by
  refine of_steps hI (fun b h s hb ↦ by cases hb) (fun h s m p' s' hs hst ↦ ?_) hs
  cases hst with
  | read => exact .inr (hk _ _ (hP.read _ _ addr hs))
  | env he => exact .inl ⟨rfl, hP.env _ _ _ hs he⟩

theorem write {addr : A} {v : V} {k : Prog A V α} (hP : Stable D P) (hI : ∀ h s, P h s → I h s)
    (hk : ∀ h s s', P h s → D.store s addr v s' →
      Safe D I Q k (h ++ [⟨s, some (.write addr v), s'⟩]) s')
    (hs : P h s) : Safe D I Q (.write addr v k) h s := by
  refine of_steps hI (fun b h s hb ↦ by cases hb) (fun h s m p' s' hs hst ↦ ?_) hs
  cases hst with
  | write hw => exact .inr (hk _ _ _ hs hw)
  | env he => exact .inl ⟨rfl, hP.env _ _ _ hs he⟩

theorem poll {addr : A} {ready : V → Bool} {k : V → Prog A V α} (hP : Stable D P)
    (hI : ∀ h s, P h s → I h s)
    (hk : ∀ h s, P h s → ready (D.load s addr) = true → Safe D I Q (k (D.load s addr)) h s)
    (hs : P h s) : Safe D I Q (.poll addr ready k) h s := by
  refine of_steps hI (fun b h s hb ↦ by cases hb) (fun h s m p' s' hs hst ↦ ?_) hs
  cases hst with
  | ready hy => exact .inr (hk _ _ (hP.read _ _ addr hs) hy)
  | again => exact .inl ⟨rfl, hP.read _ _ addr hs⟩
  | env he => exact .inl ⟨rfl, hP.env _ _ _ hs he⟩

theorem frame {W : A → V → Prop} {R : α → Prop} {p : Prog A V α} (hP : Stable D P)
    (hI : ∀ h s, P h s → I h s)
    (hW : ∀ h s addr v s', W addr v → P h s → D.store s addr v s' →
      P (h ++ [⟨s, some (.write addr v), s'⟩]) s')
    (hQ : ∀ a h s, R a → P h s → Q a h s) (hw : OnlyWrites W p) (hr : OnlyReturns R p)
    (hs : P h s) : Safe D I Q p h s := by
  induction p generalizing h s with
  | ret a => exact ret hP hI (fun h s ↦ hQ a h s hr) hs
  | read addr k ih => exact read hP hI (fun h s hs ↦ ih _ (hw _) (hr _) hs) hs
  | write addr v k ih =>
    exact write hP hI (fun h s s' hs hst ↦ ih hw.2 hr (hW h s addr v s' hw.1 hs hst)) hs
  | poll addr ready k ih => exact poll hP hI (fun h s hs _ ↦ ih _ (hw _) (hr _) hs) hs

theorem now {p : Prog A V α} (hp : Safe D I Q p h s) : I h s := by
  simpa only [List.append_nil] using (hp [] p s (.nil p s)).1

theorem value {a : α} (hp : Safe D I Q (.ret a) h s) : Q a h s := by
  simpa only [List.append_nil] using (hp [] _ s (.nil _ s)).2 a rfl

theorem step {p p' : Prog A V α} {m : Moment S A V} {s' : S} (hp : Safe D I Q p h s)
    (hs : Step D p s m p' s') : Safe D I Q p' (h ++ [m]) s' := by
  intro t q s'' ht
  have hn := hp (m :: t) q s'' (.cons hs ht)
  rwa [List.append_cons] at hn

end Safe

section Sessions

variable {C : Type} {D : Device S A V} {prog : C → Prog A V α} {result : C → α}
  {I J : List C → List (Moment S A V) → S → Prop} {cs : List C}

/-- A session under way: between two calls `J` holds, and inside a call the
call is safe. -/
def Underway (D : Device S A V) (prog : C → Prog A V α) (result : C → α)
    (I J : List C → List (Moment S A V) → S → Prop) (cs done : List C) (ps : List (Prog A V α))
    (h : List (Moment S A V)) (s : S) : Prop :=
  (ps = [] ∧ cs = done ∧ J done h s) ∨
  ∃ c rest p, ps = p :: rest.map prog ∧ cs = done ++ c :: rest ∧
    Safe D (I done) (fun a h s ↦ a = result c ∧ J (done ++ [c]) h s) p h s

theorem underway_of_between
    (call : ∀ done c rest h s, cs = done ++ c :: rest → J done h s →
      Safe D (I done) (fun a h s ↦ a = result c ∧ J (done ++ [c]) h s) (prog c) h s)
    {done rest : List C} {h : List (Moment S A V)} {s : S} (hcs : cs = done ++ rest)
    (hJ : J done h s) : Underway D prog result I J cs done (rest.map prog) h s := by
  cases rest with
  | nil => exact .inl ⟨rfl, by rw [hcs, List.append_nil], hJ⟩
  | cons c rest => exact .inr ⟨c, rest, prog c, rfl, hcs, call done c rest h s hcs hJ⟩

theorem session_underway (hst : Stable D (J cs))
    (call : ∀ done c rest h s, cs = done ++ c :: rest → J done h s →
      Safe D (I done) (fun a h s ↦ a = result c ∧ J (done ++ [c]) h s) (prog c) h s)
    {ps qs : List (Prog A V α)} {s s' : S} {t : List (Moment S A V)} {as : List α}
    (hs : Session D ps s t as qs s') {done : List C} {h : List (Moment S A V)}
    (hu : Underway D prog result I J cs done ps h s) :
    ∃ done', done'.map result = done.map result ++ as ∧
      Underway D prog result I J cs done' qs (h ++ t) s' := by
  induction hs generalizing done h with
  | nil ps s =>
    simp only [List.append_nil]
    exact ⟨done, rfl, hu⟩
  | step hm ht ih =>
    rcases hu with ⟨hn, -⟩ | ⟨c, rest, p, he, hcs, hp⟩
    · cases hn
    · cases he
      have h' := ih (.inr ⟨c, rest, _, rfl, hcs, hp.step hm⟩)
      rwa [List.append_assoc] at h'
  | returned ht ih =>
    rcases hu with ⟨hn, -⟩ | ⟨c, rest, p, he, hcs, hp⟩
    · cases hn
    · cases he
      obtain ⟨rfl, hJ⟩ := hp.value
      rw [List.append_cons] at hcs
      obtain ⟨done', h₁, h₂⟩ := ih (underway_of_between call hcs hJ)
      exact ⟨done', by rw [h₁]; simp, h₂⟩
  | idle he ht ih =>
    rcases hu with ⟨-, rfl, hJ⟩ | ⟨c, rest, p, hn, -⟩
    · have h' := ih (.inl ⟨rfl, rfl, hst.env _ _ _ hJ he⟩)
      rwa [List.append_assoc] at h'
    · cases hn

/-- A session of calls that each keep `I`, and lead from `J` to `J`, keeps `I`,
and every call that has returned has the expected result. -/
theorem session_safe (hst : Stable D (J cs)) (hI : ∀ h s, J cs h s → I cs h s)
    (call : ∀ done c rest h s, cs = done ++ c :: rest → J done h s →
      Safe D (I done) (fun a h s ↦ a = result c ∧ J (done ++ [c]) h s) (prog c) h s)
    {qs : List (Prog A V α)} {s s' : S} {t : List (Moment S A V)} {as : List α}
    (h₀ : J [] [] s) (hs : Session D (cs.map prog) s t as qs s') :
    ∃ done rest, cs = done ++ rest ∧ as = done.map result ∧ qs.length = rest.length ∧
      I done t s' := by
  obtain ⟨done, h₁, h₂⟩ :=
    session_underway hst call hs (underway_of_between call (List.nil_append cs).symm h₀)
  rcases h₂ with ⟨rfl, rfl, hJ⟩ | ⟨c, rest, p, rfl, hcs, hp⟩
  · exact ⟨cs, [], by simp, h₁.symm, rfl, hI _ _ hJ⟩
  · exact ⟨done, c :: rest, hcs, h₁.symm, by simp, hp.now⟩

/-- Whenever a call returns in such a session, and once all have, `J` holds. -/
theorem session_returned (hst : Stable D (J cs))
    (call : ∀ done c rest h s, cs = done ++ c :: rest → J done h s →
      Safe D (I done) (fun a h s ↦ a = result c ∧ J (done ++ [c]) h s) (prog c) h s)
    {qs : List (Prog A V α)} {s s' : S} {t : List (Moment S A V)} {as : List α}
    (h₀ : J [] [] s) (hs : Session D (cs.map prog) s t as qs s')
    (hqs : qs = [] ∨ ∃ a qs', qs = .ret a :: qs') : ∃ done, J done t s' := by
  obtain ⟨done, -, h⟩ :=
    session_underway hst call hs (underway_of_between call (List.nil_append cs).symm h₀)
  rcases h with ⟨-, -, hJ⟩ | ⟨c, rest, p, rfl, -, hp⟩
  · exact ⟨done, hJ⟩
  · rcases hqs with hqs | ⟨a, qs', hqs⟩
    · cases hqs
    · cases hqs
      exact ⟨done ++ [c], hp.value.2⟩

end Sessions

end Esp32c6Fw.Mmio
