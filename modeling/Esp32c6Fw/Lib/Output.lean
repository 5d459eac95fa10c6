import Esp32c6Fw.Lib.Transfer
import Mathlib.Data.List.Basic

namespace Esp32c6Fw

variable {B α β S : Type}

/-- A program that puts out characters, one after the other. From `undefined` on
it has no meaning. -/
inductive Output (B α : Type) : Type
  | ret (a : α)
  | put (b : B) (rest : Output B α)
  | undefined

inductive Output.Ending (α : Type) : Type
  | returned (a : α)
  | failed
  | undefined

namespace Output

def bind : Output B α → (α → Output B β) → Output B β
  | .ret a, f => f a
  | .put b rest, f => .put b (rest.bind f)
  | .undefined, _ => .undefined

instance : Monad (Output B) where
  pure := .ret
  bind := bind

def putc (b : B) : Output B Unit := .put b (.ret ())

def putAll : List B → Output B Unit
  | [] => .ret ()
  | b :: bs => .put b (putAll bs)

def chars : Output B α → List B
  | .ret _ => []
  | .put b rest => b :: rest.chars
  | .undefined => []

def value : Output B α → Option α
  | .ret a => some a
  | .put _ rest => rest.value
  | .undefined => none

/-- Run on a device, which refuses a character with `true`. The number counts the
characters that have been offered to it. -/
def run {m : Type → Type} [Monad m] (put : B → m Bool) : Output B α → ℕ → m (Ending α × ℕ)
  | .ret a, n => pure (.returned a, n)
  | .put b rest, n => do
    let refused ← put b
    if refused then pure (.failed, n + 1) else rest.run put (n + 1)
  | .undefined, n => pure (.undefined, n)

@[simp] theorem pure_eq (a : α) : (pure a : Output B α) = .ret a := rfl

@[simp] theorem ret_bind (a : α) (f : α → Output B β) : (.ret a : Output B α) >>= f = f a := rfl

@[simp] theorem put_bind (b : B) (rest : Output B α) (f : α → Output B β) :
    .put b rest >>= f = .put b (rest >>= f) := rfl

@[simp] theorem undefined_bind (f : α → Output B β) :
    (.undefined : Output B α) >>= f = .undefined := rfl

def Yields (p : Output B α) (bs : List B) (a : α) : Prop := p.chars = bs ∧ p.value = some a

variable {p : Output B α} {f : α → Output B β} {bs cs : List B} {a : α} {b : β}

theorem yields_ret (a : α) : (.ret a : Output B α).Yields [] a := ⟨rfl, rfl⟩

theorem Yields.put {c : B} (h : p.Yields bs a) : (Output.put c p).Yields (c :: bs) a := by
  obtain ⟨h₁, h₂⟩ := h
  exact ⟨congrArg (c :: ·) h₁, h₂⟩

theorem Yields.bind (hp : p.Yields bs a) (hf : (f a).Yields cs b) :
    (p >>= f).Yields (bs ++ cs) b := by
  induction p generalizing bs with
  | ret a' =>
    obtain ⟨rfl, h⟩ := hp
    cases h
    exact hf
  | put c rest ih =>
    obtain ⟨rfl, h⟩ := hp
    exact (ih ⟨rfl, h⟩).put
  | undefined => cases hp.2

theorem yields_putAll (bs : List B) : (putAll bs).Yields bs () := by
  induction bs with
  | nil => exact yields_ret ()
  | cons b bs ih => exact ih.put

/-- Only the characters of a program that returns and its value matter to a device. -/
theorem Yields.run_eq {m : Type → Type} [Monad m] [LawfulMonad m] (put : B → m Bool)
    (h : p.Yields bs a) (n : ℕ) :
    p.run put n = (putAll bs >>= fun _ ↦ (.ret a : Output B α)).run put n := by
  induction p generalizing bs n with
  | ret a' =>
    obtain ⟨rfl, h⟩ := h
    cases h
    rfl
  | put c rest ih =>
    obtain ⟨rfl, h⟩ := h
    have hc (n : ℕ) := ih ⟨rfl, h⟩ n
    simp only [chars, putAll, put_bind, run, hc]
  | undefined => cases h.2

def ending (p : Output B α) : Ending α := p.value.elim .undefined .returned

/-- A device that refuses nothing is offered every character, whether or not there is a
meaning at the end. -/
theorem run_accepting {put : B → StateM S Bool} {step : S → B → S}
    (h : ∀ c s, (put c).run s = (false, step s c)) (p : Output B α) (n : ℕ) (s : S) :
    (p.run put n).run s = ((p.ending, n + p.chars.length), p.chars.foldl step s) := by
  induction p generalizing n s with
  | ret a => rfl
  | put c rest ih =>
    have hc : ((Output.put c rest).run put n).run s = (rest.run put (n + 1)).run (step s c) := by
      rw [Output.run, StateT.run_bind, h]
      rfl
    rw [hc, ih, chars, List.length_cons, List.foldl_cons]
    congr 2
    omega
  | undefined => rfl

theorem Yields.ending_eq (h : p.Yields bs a) : p.ending = .returned a := by
  rw [ending, h.2]
  rfl

section Device

open Transfer

variable {put : B → StateM S Bool} {s : S}

def asks (put : B → StateM S Bool) (bs : List B) (i : ℕ) : StateM S Bool :=
  match bs[i]? with
  | some b => put b
  | none => pure false

/-- Where the device first refuses a character, or the number of them. -/
def takes (put : B → StateM S Bool) (s : S) (bs : List B) : ℕ :=
  untilFailure id (asks put bs) s bs.length

theorem run_putAll_at {i : ℕ} (hi : i ≤ bs.length)
    (h : ∀ j < i, id (answer (asks put bs) s j) = false) :
    ((putAll (bs.drop i) >>= fun _ ↦ (.ret a : Output B α)).run put i).run
        (after (asks put bs) s i) =
      (if takes put s bs = bs.length then (.returned a, bs.length)
        else (.failed, takes put s bs + 1),
        after (asks put bs) s (min (takes put s bs + 1) bs.length)) := by
  refine induction_from_end (fun hk ↦ ?_) (fun i hi hf hk ↦ ?_) (fun i hi hf ih ↦ ?_) hi h
  · have hk' : takes put s bs = bs.length := hk
    rw [hk', if_pos rfl, List.drop_length, Nat.min_eq_right (Nat.le_succ _)]
    rfl
  · have hk' : takes put s bs = i := hk
    have hf' : answer (asks put bs) s i = true := hf
    have ha : asks put bs i = put bs[i] := by
      rw [asks, List.getElem?_eq_getElem hi]
    rw [List.drop_eq_getElem_cons hi, putAll, put_bind, Output.run, ← ha, run_ask_bind,
      if_pos hf', hk', if_neg (by omega), Nat.min_eq_left hi]
    rfl
  · have hf' : answer (asks put bs) s i = false := hf
    have ha : asks put bs i = put bs[i] := by
      rw [asks, List.getElem?_eq_getElem hi]
    rw [List.drop_eq_getElem_cons hi, putAll, put_bind, Output.run, ← ha, run_ask_bind,
      if_neg (ne_true_of_eq_false hf')]
    exact ih

/-- A run that returns has offered the device every character and been refused none;
one that fails has offered it the characters up to the first that it refuses. -/
theorem Yields.run_device (h : p.Yields bs a) (put : B → StateM S Bool) (s : S) :
    (p.run put 0).run s =
      (if takes put s bs = bs.length then (.returned a, bs.length)
        else (.failed, takes put s bs + 1),
        after (asks put bs) s (min (takes put s bs + 1) bs.length)) := by
  rw [h.run_eq]
  exact run_putAll_at (Nat.zero_le _) fun j hj ↦ absurd hj (Nat.not_lt_zero j)

theorem after_accepting {put : B → StateM S Bool} {step : S → B → S}
    (h : ∀ c s, (put c).run s = (false, step s c)) (bs : List B) (s : S) :
    after (asks put bs) s (min (takes put s bs + 1) bs.length) = bs.foldl step s := by
  have hrun := (yields_putAll bs).run_device put s
  rw [run_accepting h, (yields_putAll bs).1] at hrun
  exact (congrArg Prod.snd hrun).symm

end Device

end Output

end Esp32c6Fw
