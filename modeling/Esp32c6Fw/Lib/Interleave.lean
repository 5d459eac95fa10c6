import Esp32c6Fw.Lib.Mmio
import Mathlib.Logic.Function.Basic
import Mathlib.Data.List.Nodup

namespace Esp32c6Fw.Mmio

variable {S A V α ι : Type}

/-- Accesses to `F` and accesses to `G` do not see each other. -/
structure Bus.Apart (B : Bus S A V) (F G : A → Prop) : Prop where
  load : ∀ {a b}, F a → G b → ∀ s w, B.load (B.store s b w) a = B.load s a
  store : ∀ {a b}, F a → G b → ∀ s v w,
    B.store (B.store s b w) a v = B.store (B.store s a v) b w

inductive Acts (B : Bus S A V) : Prog A V α → S → Prog A V α → S → Prop
  | read (addr : A) (k : V → Prog A V α) (s : S) : Acts B (.read addr k) s (k (B.load s addr)) s
  | write (addr : A) (v : V) (k : Prog A V α) (s : S) :
      Acts B (.write addr v k) s k (B.store s addr v)
  | ready {addr : A} {ready : V → Bool} {k : V → Prog A V α} {s : S} :
      ready (B.load s addr) = true → Acts B (.poll addr ready k) s (k (B.load s addr)) s
  | again {addr : A} {ready : V → Bool} {k : V → Prog A V α} {s : S} :
      ready (B.load s addr) = false → Acts B (.poll addr ready k) s (.poll addr ready k) s

/-- Routines that share a bus, interleaved access by access in any order. -/
inductive Interleaves [DecidableEq ι] (B : Bus S A V) :
    (ι → Prog A V α) → S → (ι → Prog A V α) → S → Prop
  | nil (ps : ι → Prog A V α) (s : S) : Interleaves B ps s ps s
  | cons {ps qs : ι → Prog A V α} {p : Prog A V α} {s s' s'' : S} (i : ι) :
      Acts B (ps i) s p s' → Interleaves B (Function.update ps i p) s' qs s'' →
      Interleaves B ps s qs s''

/-- Run the routines one after the other in the given order, each to its end. -/
def inTurn (B : Bus S A V) (ps : ι → Prog A V α) : List ι → S → Option (List α × S)
  | [], s => some ([], s)
  | i :: is, s => (exec B (ps i) s).bind fun r ↦
    (inTurn B ps is r.state).map fun l ↦ (r.value :: l.1, l.2)

variable {B : Bus S A V} {F G : A → Prop} {p q : Prog A V α} {s s' : S}

theorem Acts.exec (ha : Acts B p s q s') {r : Finish S A V α} (hr : exec B q s' = some r) :
    ∃ t, exec B p s = some ⟨r.value, r.state, t⟩ := by
  cases ha with
  | read addr k =>
    simp only [Mmio.exec, hr, Option.map_some]
    exact ⟨_, rfl⟩
  | write addr v k =>
    simp only [Mmio.exec, hr, Option.map_some]
    exact ⟨_, rfl⟩
  | ready h =>
    simp only [Mmio.exec, h, hr, if_true, Option.map_some]
    exact ⟨_, rfl⟩
  | again => exact ⟨r.trace, hr⟩

namespace Straight

theorem acts (h : Straight F p) (ha : Acts B p s q s') : Straight F q := by
  cases ha with
  | read => exact h.2 _
  | write => exact h.2
  | ready | again => cases h

theorem exec_isSome (h : Straight F p) (s : S) : ∃ r, exec B p s = some r := by
  induction p generalizing s with
  | ret a => exact ⟨_, rfl⟩
  | read addr k ih =>
    obtain ⟨r, hr⟩ := ih _ (h.2 (B.load s addr)) s
    exact ⟨{ r with trace := ⟨s, some (.read addr (B.load s addr)), s⟩ :: r.trace },
      by simp only [exec, hr, Option.map_some]⟩
  | write addr v k ih =>
    obtain ⟨r, hr⟩ := ih h.2 (B.store s addr v)
    exact ⟨{ r with trace := ⟨s, some (.write addr v), B.store s addr v⟩ :: r.trace },
      by simp only [exec, hr, Option.map_some]⟩
  | poll => cases h

theorem exec_load (h : Straight F p) (hFG : B.Apart G F) {b : A} (hb : G b) {r : Finish S A V α}
    (hr : exec B p s = some r) : B.load r.state b = B.load s b := by
  induction p generalizing s r with
  | ret a =>
    cases hr
    rfl
  | read addr k ih =>
    simp only [exec, Option.map_eq_some_iff] at hr
    obtain ⟨r', hr', rfl⟩ := hr
    have hl := ih (B.load s addr) (h.2 _) hr'
    exact hl
  | write addr v k ih =>
    simp only [exec, Option.map_eq_some_iff] at hr
    obtain ⟨r', hr', rfl⟩ := hr
    exact (ih h.2 hr').trans (hFG.load hb h.1 s v)
  | poll => cases h

/-- A store outside its registers can as well come after the routine as before it. -/
theorem exec_store (h : Straight F p) (hFG : B.Apart F G) {b : A} (hb : G b) {w : V}
    {r : Finish S A V α} (hr : exec B p (B.store s b w) = some r) :
    ∃ r', exec B p s = some r' ∧ r'.value = r.value ∧ r.state = B.store r'.state b w := by
  induction p generalizing s r with
  | ret a =>
    cases hr
    exact ⟨_, rfl, rfl, rfl⟩
  | read addr k ih =>
    simp only [exec, Option.map_eq_some_iff, hFG.load h.1 hb] at hr
    obtain ⟨r, hr, rfl⟩ := hr
    obtain ⟨r', hr', hv, hst⟩ := ih _ (h.2 _) hr
    refine ⟨{ r' with trace := ⟨s, some (.read addr (B.load s addr)), s⟩ :: r'.trace }, ?_, hv, hst⟩
    simp only [exec, hr', Option.map_some]
  | write addr v k ih =>
    simp only [exec, Option.map_eq_some_iff, hFG.store h.1 hb] at hr
    obtain ⟨r, hr, rfl⟩ := hr
    obtain ⟨r', hr', hv, hst⟩ := ih h.2 hr
    refine ⟨{ r' with trace := ⟨s, some (.write addr v), B.store s addr v⟩ :: r'.trace },
      ?_, hv, hst⟩
    simp only [exec, hr', Option.map_some]
  | poll => cases h

end Straight

section Interleaves

variable [DecidableEq ι] {ps qs : ι → Prog A V α} {s'' : S} {R : ι → A → Prop} {as : ι → α}

theorem Interleaves.trans {rs : ι → Prog A V α} (h : Interleaves B ps s qs s')
    (h' : Interleaves B qs s' rs s'') : Interleaves B ps s rs s'' := by
  induction h with
  | nil => exact h'
  | cons i ha _ ih => exact .cons i ha (ih h')

theorem Interleaves.straight (h : Interleaves B ps s qs s') (hps : ∀ i, Straight (R i) (ps i)) :
    ∀ i, Straight (R i) (qs i) := by
  induction h with
  | nil => exact hps
  | @cons ps qs p s s' s'' i ha _ ih =>
    apply ih
    intro j
    by_cases hj : j = i
    · subst hj
      rw [Function.update_self]
      exact (hps j).acts ha
    · rw [Function.update_of_ne hj]
      exact hps j

theorem interleaves_exec {i : ι} {r : Finish S A V α} (hp : Straight F p)
    (hr : exec B p s = some r) :
    Interleaves B (Function.update ps i p) s (Function.update ps i (.ret r.value)) r.state := by
  induction p generalizing s r with
  | ret a =>
    cases hr
    exact .nil _ _
  | read addr k ih =>
    simp only [exec, Option.map_eq_some_iff] at hr
    obtain ⟨r, hr, rfl⟩ := hr
    have hstep : Acts B (Function.update ps i (.read addr k) i) s (k (B.load s addr)) s := by
      rw [Function.update_self]
      exact .read addr k s
    refine .cons i hstep ?_
    rw [Function.update_idem]
    have hrest := ih _ (hp.2 _) hr
    exact hrest
  | write addr v k ih =>
    simp only [exec, Option.map_eq_some_iff] at hr
    obtain ⟨r, hr, rfl⟩ := hr
    have hstep : Acts B (Function.update ps i (.write addr v k) i) s k (B.store s addr v) := by
      rw [Function.update_self]
      exact .write addr v k s
    refine .cons i hstep ?_
    rw [Function.update_idem]
    have hrest := ih hp.2 hr
    exact hrest
  | poll => cases hp

/-- No interleaving of finitely many routines gets stuck. -/
theorem interleaves_finish (order : List ι) (hps : ∀ i, Straight (R i) (ps i))
    (hdone : ∀ i, i ∉ order → ∃ a, ps i = .ret a) (s : S) :
    ∃ (as : ι → α) (s' : S), Interleaves B ps s (fun i ↦ .ret (as i)) s' := by
  induction order generalizing ps s with
  | nil =>
    choose as has using fun i ↦ hdone i List.not_mem_nil
    exact ⟨as, s, funext has ▸ .nil ps s⟩
  | cons i order ih =>
    obtain ⟨r, hr⟩ := (hps i).exec_isSome (B := B) s
    have hstep : Interleaves B (Function.update ps i (ps i)) s _ r.state :=
      interleaves_exec (hps i) hr
    rw [Function.update_eq_self] at hstep
    obtain ⟨as, s', hrest⟩ := ih (hstep.straight hps) (fun j hj ↦ by
      by_cases hi : j = i
      · exact ⟨r.value, by rw [hi, Function.update_self]⟩
      · rw [Function.update_of_ne hi]
        exact hdone j (by simp [hi, hj])) r.state
    exact ⟨as, s', hstep.trans hrest⟩

variable (hps : ∀ i, Straight (R i) (ps i)) (hR : ∀ i j, i ≠ j → B.Apart (R i) (R j))
include hps hR

/-- In a finished interleaving any one routine can as well run first, alone. -/
theorem Interleaves.front (h : Interleaves B ps s (fun i ↦ .ret (as i)) s') (i : ι) :
    ∃ r, exec B (ps i) s = some r ∧ r.value = as i ∧
      Interleaves B (Function.update ps i (.ret (as i))) r.state (fun i ↦ .ret (as i)) s' := by
  generalize hq : (fun i ↦ .ret (as i) : ι → Prog A V α) = qs at h
  induction h with
  | nil ps s =>
    subst hq
    refine ⟨_, rfl, rfl, ?_⟩
    rw [Function.update_eq_self_iff.mpr rfl]
    exact .nil _ _
  | @cons ps qs p s s' s'' j ha hrest ih =>
    have hps' : ∀ i, Straight (R i) (Function.update ps j p i) :=
      (Interleaves.cons j ha (.nil _ _)).straight hps
    obtain ⟨r, hr, hv, hrest'⟩ := ih hps' hq
    by_cases hij : i = j
    · subst hij
      rw [Function.update_self] at hr
      rw [Function.update_idem] at hrest'
      obtain ⟨t, ht⟩ := ha.exec hr
      exact ⟨_, ht, hv, hrest'⟩
    · rw [Function.update_of_ne hij] at hr
      rw [Function.update_comm (Ne.symm hij)] at hrest'
      have hj := hps j
      generalize hp : ps j = p' at ha hj
      have hpj : Function.update ps i (.ret (as i)) j = ps j :=
        Function.update_of_ne (Ne.symm hij) _ _
      cases ha with
      | read addr k =>
        have hl := (hps i).exec_load (hR j i (Ne.symm hij)) hj.1 hr
        have hstep : Acts B (Function.update ps i (.ret (as i)) j) r.state
            (k (B.load s addr)) r.state := by
          rw [hpj, hp, ← hl]
          exact .read addr k r.state
        exact ⟨r, hr, hv, .cons j hstep hrest'⟩
      | write addr v k =>
        obtain ⟨r', hr', hv', hst⟩ := (hps i).exec_store (hR i j hij) hj.1 hr
        have hstep : Acts B (Function.update ps i (.ret (as i)) j) r'.state p r.state := by
          rw [hpj, hp, hst]
          exact .write addr v _ r'.state
        exact ⟨r', hr', hv'.trans hv, .cons j hstep hrest'⟩
      | ready | again => cases hj

end Interleaves

theorem inTurn_congr {ps qs : ι → Prog A V α} {order : List ι} (h : ∀ i ∈ order, ps i = qs i)
    (s : S) : inTurn B ps order s = inTurn B qs order s := by
  induction order generalizing s with
  | nil => rfl
  | cons i order ih =>
    rw [List.forall_mem_cons] at h
    simp only [inTurn, h.1, ih h.2]

/-- Routines with registers of their own end, in every interleaving, with the
values and in the state that they end with when run in turn, in any order. -/
theorem Interleaves.inTurn_eq [DecidableEq ι] {ps : ι → Prog A V α} {R : ι → A → Prop}
    {as : ι → α} {order : List ι} (hps : ∀ i, Straight (R i) (ps i))
    (hR : ∀ i j, i ≠ j → B.Apart (R i) (R j)) (hdone : ∀ i, i ∉ order → ps i = .ret (as i))
    (hn : order.Nodup) (h : Interleaves B ps s (fun i ↦ .ret (as i)) s') :
    inTurn B ps order s = some (order.map as, s') := by
  induction order generalizing ps s with
  | nil =>
    have hret : ps = fun i ↦ .ret (as i) := funext fun i ↦ hdone i List.not_mem_nil
    subst hret
    generalize hq : (fun i ↦ Prog.ret (as i) : ι → Prog A V α) = qs at h
    cases h with
    | nil => rfl
    | cons i ha =>
      rw [← hq] at ha
      cases ha
  | cons i order ih =>
    obtain ⟨hi, hn⟩ := List.nodup_cons.mp hn
    obtain ⟨r, hr, hv, hrest⟩ := h.front hps hR i
    have hps' (j : ι) : Straight (R j) (Function.update ps i (.ret (as i)) j) := by
      by_cases hj : j = i
      · subst hj
        rw [Function.update_self]
        trivial
      · rw [Function.update_of_ne hj]
        exact hps j
    have htail := ih hps' (fun j hj ↦ by
      by_cases hji : j = i
      · rw [hji, Function.update_self]
      · rw [Function.update_of_ne hji]
        exact hdone j (by simp [hji, hj])) hn hrest
    have hcongr : inTurn B (Function.update ps i (.ret (as i))) order r.state =
        inTurn B ps order r.state := inTurn_congr (fun j hj ↦ by
      rw [Function.update_of_ne]
      rintro rfl
      exact hi hj) r.state
    simp only [inTurn, hr, Option.bind_some, ← hcongr, htail, hv, Option.map_some, List.map_cons]

end Esp32c6Fw.Mmio
