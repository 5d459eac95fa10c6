import Mathlib.Data.List.Basic

namespace Esp32c6Fw.Mmio

variable {S A V α β : Type}

/-- A routine as the bus sees it: the register accesses it makes, in order.
`poll` is a busy wait that rereads one register until its value is ready. -/
inductive Prog (A V α : Type) : Type
  | ret : α → Prog A V α
  | read : A → (V → Prog A V α) → Prog A V α
  | write : A → V → Prog A V α → Prog A V α
  | poll : A → (V → Bool) → (V → Prog A V α) → Prog A V α

namespace Prog

def bind : Prog A V α → (α → Prog A V β) → Prog A V β
  | .ret a, f => f a
  | .read addr k, f => .read addr (fun v ↦ (k v).bind f)
  | .write addr v k, f => .write addr v (k.bind f)
  | .poll addr ready k, f => .poll addr ready (fun v ↦ (k v).bind f)

instance : Monad (Prog A V) where
  pure := .ret
  bind := bind

@[simp] theorem pure_eq (a : α) : (pure a : Prog A V α) = .ret a := rfl

@[simp] theorem ret_bind (a : α) (f : α → Prog A V β) : (.ret a : Prog A V α) >>= f = f a := rfl

@[simp] theorem read_bind (addr : A) (k : V → Prog A V α) (f : α → Prog A V β) :
    .read addr k >>= f = .read addr (fun v ↦ k v >>= f) := rfl

@[simp] theorem write_bind (addr : A) (v : V) (k : Prog A V α) (f : α → Prog A V β) :
    .write addr v k >>= f = .write addr v (k >>= f) := rfl

@[simp] theorem poll_bind (addr : A) (ready : V → Bool) (k : V → Prog A V α)
    (f : α → Prog A V β) :
    .poll addr ready k >>= f = .poll addr ready (fun v ↦ k v >>= f) := rfl

end Prog

inductive Access (A V : Type) : Type
  | read (addr : A) (v : V)
  | write (addr : A) (v : V)

theorem filterMap_snoc (f : α → Option β) (l : List α) (a : α) :
    (l ++ [a]).filterMap f = l.filterMap f ++ (f a).toList := by
  rw [List.filterMap_append, List.filterMap_cons, List.filterMap_nil]
  cases f a <;> rfl

theorem forall_mem_snoc {P : α → Prop} {l : List α} {a : α} (h : ∀ b ∈ l, P b) (ha : P a) :
    ∀ b ∈ l ++ [a], P b := by
  intro b hb
  rcases List.mem_append.mp hb with hb | hb
  · exact h b hb
  · rwa [List.mem_singleton.mp hb]

/-- One step of a run, with the registers before and after it. A moment
without an access is a move of the hardware. -/
structure Moment (S A V : Type) where
  before : S
  access : Option (Access A V)
  after : S

/-- Registers that change only when they are written. -/
structure Bus (S A V : Type) where
  load : S → A → V
  store : S → A → V → S

structure Finish (S A V α : Type) where
  value : α
  state : S
  trace : List (Moment S A V)

/-- Run a routine alone on a bus. A poll whose value is not ready at once
never becomes ready there, so it has no result. -/
def exec (B : Bus S A V) : Prog A V α → S → Option (Finish S A V α)
  | .ret a, s => some ⟨a, s, []⟩
  | .read addr k, s =>
    let v := B.load s addr
    (exec B (k v) s).map (fun r ↦ { r with trace := ⟨s, some (.read addr v), s⟩ :: r.trace })
  | .write addr v k, s =>
    let s' := B.store s addr v
    (exec B k s').map (fun r ↦ { r with trace := ⟨s, some (.write addr v), s'⟩ :: r.trace })
  | .poll addr ready k, s =>
    let v := B.load s addr
    if ready v then
      (exec B (k v) s).map (fun r ↦ { r with trace := ⟨s, some (.read addr v), s⟩ :: r.trace })
    else none

theorem exec_bind (B : Bus S A V) (p : Prog A V α) (f : α → Prog A V β) (s : S) :
    exec B (p >>= f) s = (exec B p s).bind (fun r ↦
      (exec B (f r.value) r.state).map (fun r' ↦ { r' with trace := r.trace ++ r'.trace })) := by
  induction p generalizing s with
  | ret a => simp [exec]
  | read addr k ih =>
    simp only [Prog.read_bind, exec, ih, Option.map_bind, Option.bind_map]
    congr 1; funext r
    simp [Function.comp_def]
  | write addr v k ih =>
    simp only [Prog.write_bind, exec, ih, Option.map_bind, Option.bind_map]
    congr 1; funext r
    simp [Function.comp_def]
  | poll addr ready k ih =>
    simp only [Prog.poll_bind, exec]
    split
    · simp only [ih, Option.map_bind, Option.bind_map]
      congr 1; funext r
      simp [Function.comp_def]
    · rfl

/-- The routine with the accesses it makes. -/
def Prog.recorded : Prog A V α → Prog A V (α × List (Access A V))
  | .ret a => .ret (a, [])
  | .read addr k => .read addr fun v ↦ (k v).recorded >>= fun r ↦ .ret (r.1, .read addr v :: r.2)
  | .write addr v k => .write addr v (k.recorded >>= fun r ↦ .ret (r.1, .write addr v :: r.2))
  | .poll addr ready k =>
    .poll addr ready fun v ↦ (k v).recorded >>= fun r ↦ .ret (r.1, .read addr v :: r.2)

theorem exec_recorded (B : Bus S A V) (p : Prog A V α) (s : S) :
    exec B p.recorded s =
      (exec B p s).map fun r ↦ { r with value := (r.value, r.trace.filterMap (·.access)) } := by
  induction p generalizing s with
  | ret a => rfl
  | read addr k ih =>
    simp only [Prog.recorded, exec, exec_bind, ih]
    cases exec B (k (B.load s addr)) s <;> simp
  | write addr v k ih =>
    simp only [Prog.recorded, exec, exec_bind, ih]
    cases exec B k (B.store s addr v) <;> simp
  | poll addr ready k ih =>
    simp only [Prog.recorded, exec]
    split
    · simp only [exec, exec_bind, ih]
      cases exec B (k (B.load s addr)) s <;> simp
    · rfl

def EveryWrite (P : S → A → V → Prop) (t : List (Moment S A V)) : Prop :=
  ∀ m ∈ t, ∀ addr v, m.access = some (.write addr v) → P m.before addr v

theorem EveryWrite.append {P : S → A → V → Prop} {t t' : List (Moment S A V)}
    (h : EveryWrite P t) (h' : EveryWrite P t') : EveryWrite P (t ++ t') := by
  intro m hm
  rcases List.mem_append.mp hm with hm | hm
  · exact h m hm
  · exact h' m hm

/-- Run alone from `s`, `p` returns `a` in state `s'`, and all its writes satisfy `P`. -/
def Does (B : Bus S A V) (P : S → A → V → Prop) (p : Prog A V α) (s : S) (a : α) (s' : S) :
    Prop :=
  ∃ t, exec B p s = some ⟨a, s', t⟩ ∧ EveryWrite P t

namespace Does

variable {B : Bus S A V} {P : S → A → V → Prop}

theorem ret (a : α) (s : S) : Does B P (.ret a) s a s :=
  ⟨[], rfl, by simp [EveryWrite]⟩

theorem read {addr : A} {k : V → Prog A V α} {s s' : S} {a : α}
    (h : Does B P (k (B.load s addr)) s a s') : Does B P (.read addr k) s a s' := by
  obtain ⟨t, ht, hP⟩ := h
  refine ⟨_, by simp only [exec, ht, Option.map_some]; rfl, ?_⟩
  intro m hm addr' v
  rcases List.mem_cons.mp hm with rfl | hm
  · simp
  · exact hP m hm addr' v

theorem write {addr : A} {v : V} {k : Prog A V α} {s s' : S} {a : α} (hv : P s addr v)
    (h : Does B P k (B.store s addr v) a s') : Does B P (.write addr v k) s a s' := by
  obtain ⟨t, ht, hP⟩ := h
  refine ⟨_, by simp only [exec, ht, Option.map_some]; rfl, ?_⟩
  intro m hm addr' v' he
  rcases List.mem_cons.mp hm with rfl | hm
  · simp only [Option.some.injEq, Access.write.injEq] at he
    exact he.1 ▸ he.2 ▸ hv
  · exact hP m hm addr' v' he

theorem bind {p : Prog A V α} {f : α → Prog A V β} {s s' s'' : S} {a : α} {b : β}
    (h : Does B P p s a s') (h' : Does B P (f a) s' b s'') : Does B P (p >>= f) s b s'' := by
  obtain ⟨t, ht, hP⟩ := h
  obtain ⟨t', ht', hP'⟩ := h'
  refine ⟨t ++ t', ?_, hP.append hP'⟩
  rw [exec_bind, ht]
  simp [ht']

end Does

/-- Run alone from `s`, `p` returns, and `I` holds after every access and in the end. -/
def Keeps (B : Bus S A V) (I : S → Prop) (p : Prog A V α) (s : S) : Prop :=
  ∃ r, exec B p s = some r ∧ I r.state ∧ ∀ m ∈ r.trace, I m.after

namespace Keeps

variable {B : Bus S A V} {I : S → Prop} {s : S}

theorem ret (a : α) (hs : I s) : Keeps B I (.ret a) s := ⟨⟨a, s, []⟩, rfl, hs, by simp⟩

theorem read {addr : A} {k : V → Prog A V α} (hs : I s) (h : Keeps B I (k (B.load s addr)) s) :
    Keeps B I (.read addr k) s := by
  obtain ⟨r, hr, hI, ht⟩ := h
  refine ⟨{ r with trace := ⟨s, some (.read addr (B.load s addr)), s⟩ :: r.trace },
    by simp only [exec, hr, Option.map_some], hI, ?_⟩
  simp only [List.forall_mem_cons]
  exact ⟨hs, ht⟩

theorem write {addr : A} {v : V} {k : Prog A V α} (hs : I (B.store s addr v))
    (h : Keeps B I k (B.store s addr v)) : Keeps B I (.write addr v k) s := by
  obtain ⟨r, hr, hI, ht⟩ := h
  refine ⟨{ r with trace := ⟨s, some (.write addr v), B.store s addr v⟩ :: r.trace },
    by simp only [exec, hr, Option.map_some], hI, ?_⟩
  simp only [List.forall_mem_cons]
  exact ⟨hs, ht⟩

theorem bind {p : Prog A V α} {f : α → Prog A V β} (h : Keeps B I p s)
    (hf : ∀ a s', I s' → Keeps B I (f a) s') : Keeps B I (p >>= f) s := by
  obtain ⟨⟨a, s', t⟩, hr, hI, ht⟩ := h
  obtain ⟨⟨b, s'', t'⟩, hr', hI', ht'⟩ := hf a s' hI
  refine ⟨⟨b, s'', t ++ t'⟩, by rw [exec_bind, hr]; simp [hr'], hI', fun m hm ↦ ?_⟩
  rcases List.mem_append.mp hm with hm | hm
  · exact ht m hm
  · exact ht' m hm

end Keeps

/-- A routine without busy waits that accesses only registers in `F`, whatever it reads. -/
def Straight (F : A → Prop) : Prog A V α → Prop
  | .ret _ => True
  | .read addr k => F addr ∧ ∀ v, Straight F (k v)
  | .write addr _ k => F addr ∧ Straight F k
  | .poll .. => False

namespace Straight

variable {B : Bus S A V} {F G : A → Prop} {p : Prog A V α}

theorem bind {f : α → Prog A V β} (h : Straight F p) (hf : ∀ a, Straight F (f a)) :
    Straight F (p >>= f) := by
  induction p with
  | ret a => exact hf a
  | read addr k ih => exact ⟨h.1, fun v ↦ ih v (h.2 v)⟩
  | write addr v k ih => exact ⟨h.1, ih h.2⟩
  | poll => cases h

theorem recorded (h : Straight F p) : Straight F p.recorded := by
  induction p with
  | ret a => trivial
  | read addr k ih => exact ⟨h.1, fun v ↦ (ih v (h.2 v)).bind fun _ ↦ trivial⟩
  | write addr v k ih => exact ⟨h.1, (ih h.2).bind fun _ ↦ trivial⟩
  | poll => cases h

theorem mono (h : Straight F p) (hFG : ∀ addr, F addr → G addr) : Straight G p := by
  induction p with
  | ret a => trivial
  | read addr k ih => exact ⟨hFG _ h.1, fun v ↦ ih v (h.2 v)⟩
  | write addr v k ih => exact ⟨hFG _ h.1, ih h.2⟩
  | poll => cases h

theorem keeps {I : S → Prop} (h : Straight F p)
    (hI : ∀ addr v s, F addr → I s → I (B.store s addr v)) {s : S} (hs : I s) : Keeps B I p s := by
  induction p generalizing s with
  | ret a => exact Keeps.ret a hs
  | read addr k ih => exact Keeps.read hs (ih _ (h.2 _) hs)
  | write addr v k ih =>
    have hs' := hI addr v s h.1 hs
    exact Keeps.write hs' (ih h.2 hs')
  | poll => cases h

end Straight

end Esp32c6Fw.Mmio
