import Mathlib.Data.Nat.Notation

namespace Esp32c6Fw.Transfer

variable {S B : Type}

/-- The device after the first `i` requests to it, the `j`-th of them `ask j`. -/
def after (ask : ℕ → StateM S B) (s : S) : ℕ → S
  | 0 => s
  | i + 1 => ((ask i).run (after ask s i)).2

def answer (ask : ℕ → StateM S B) (s : S) (i : ℕ) : B := ((ask i).run (after ask s i)).1

/-- How many of `n` requests go well before the first that fails. -/
def untilFailure (failed : B → Bool) (ask : ℕ → StateM S B) (s : S) (n : ℕ) : ℕ :=
  (List.range n).findIdx fun i ↦ failed (answer ask s i)

theorem run_ask_bind {A : Type} (ask : ℕ → StateM S B) (f : B → StateM S A) (s : S) (i : ℕ) :
    (ask i >>= f).run (after ask s i) = (f (answer ask s i)).run (after ask s (i + 1)) := rfl

section UntilFailure

variable {failed : B → Bool} {ask : ℕ → StateM S B} {s : S} {n i : ℕ}

theorem untilFailure_le : untilFailure failed ask s n ≤ n := by
  have h : untilFailure failed ask s n ≤ (List.range n).length := List.findIdx_le_length
  rwa [List.length_range] at h

theorem untilFailure_of_none (h : ∀ i < n, failed (answer ask s i) = false) :
    untilFailure failed ask s n = n := by
  have hl : untilFailure failed ask s n = (List.range n).length :=
    List.findIdx_eq_length_of_false fun i hi ↦ h i (List.mem_range.mp hi)
  rwa [List.length_range] at hl

theorem untilFailure_of_failed (hi : i < n) (h : ∀ j < i, failed (answer ask s j) = false)
    (hf : failed (answer ask s i) = true) : untilFailure failed ask s n = i := by
  have hl : i < (List.range n).length := by rwa [List.length_range]
  refine (List.findIdx_eq hl).mpr ⟨?_, fun j hj ↦ ?_⟩
  · rwa [List.getElem_range]
  · rw [List.getElem_range]
    exact h j hj

theorem failed_untilFailure (h : untilFailure failed ask s n < n) :
    failed (answer ask s (untilFailure failed ask s n)) = true := by
  have hl : (List.range n).findIdx (fun i ↦ failed (answer ask s i)) < (List.range n).length := by
    rwa [List.length_range]
  have hf := List.findIdx_getElem (w := hl)
  rwa [List.getElem_range] at hf

theorem untilFailure_eq_zero (hn : 0 < n) :
    untilFailure failed ask s n = 0 ↔ failed (answer ask s 0) = true := by
  constructor
  · intro h
    have hf := failed_untilFailure (h.symm ▸ hn : untilFailure failed ask s n < n)
    rwa [h] at hf
  · exact untilFailure_of_failed hn fun j hj ↦ absurd hj (Nat.not_lt_zero j)

/-- Back from where the requests end to any of them before which all went well. -/
@[elab_as_elim]
theorem induction_from_end {P : ℕ → Prop} (none : untilFailure failed ask s n = n → P n)
    (stop : ∀ i < n, failed (answer ask s i) = true → untilFailure failed ask s n = i → P i)
    (next : ∀ i < n, failed (answer ask s i) = false → P (i + 1) → P i)
    (hi : i ≤ n) (h : ∀ j < i, failed (answer ask s j) = false) : P i := by
  induction hd : n - i generalizing i with
  | zero =>
    obtain rfl : i = n := by omega
    exact none (untilFailure_of_none h)
  | succ d ih =>
    have hlt : i < n := by omega
    cases hf : failed (answer ask s i) with
    | true => exact stop i hlt hf (untilFailure_of_failed hlt h hf)
    | false =>
      refine next i hlt hf (ih hlt (fun j hj ↦ ?_) (by omega))
      rcases Nat.lt_or_eq_of_le (Nat.le_of_lt_succ hj) with hj | rfl
      · exact h j hj
      · exact hf

end UntilFailure

section Logging

variable {C : Type}

def logging (c : C) (ask : StateM S B) : StateM (S × List C) B := fun s ↦
  let r := ask.run s.1
  (r.1, r.2, s.2 ++ [c])

variable {ask : ℕ → StateM S B} {c : ℕ → C} {s : S}

theorem after_logging (i : ℕ) :
    after (fun i ↦ logging (c i) (ask i)) (s, []) i = (after ask s i, (List.range i).map c) := by
  induction i with
  | zero => rfl
  | succ i ih =>
    rw [after, ih, List.range_succ, List.map_append]
    rfl

theorem untilFailure_logging (failed : B → Bool) (n : ℕ) :
    untilFailure failed (fun i ↦ logging (c i) (ask i)) (s, []) n =
      untilFailure failed ask s n := by
  have ha (i : ℕ) : answer (fun i ↦ logging (c i) (ask i)) (s, []) i = answer ask s i := by
    rw [answer, after_logging]
    rfl
  simp only [untilFailure, ha]

end Logging

end Esp32c6Fw.Transfer
