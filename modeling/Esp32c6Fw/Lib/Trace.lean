import Esp32c6Fw.Lib.Script
import Mathlib.Computability.Language
import Mathlib.Order.CompletePartialOrder

namespace Esp32c6Fw.Script

variable {R X E α β σ : Type} {keep : E → Bool} {L M : Language E}
  {p : Script R X E α} {f : α → Script R X E β}

/-- Of the events to keep, every run logs the start of a word of the language,
and a run that returns logs the word. -/
def Speaks (keep : E → Bool) (L : Language E) (p : Script R X E α) : Prop :=
  ∀ l, ∃ w ∈ L, (p.run l).log.filter keep <+: w ∧
    ∀ a, (p.run l).outcome = .ok a → (p.run l).log.filter keep = w

theorem Speaks.mono (hp : Speaks keep L p) (h : L ≤ M) : Speaks keep M p := by
  intro l
  obtain ⟨w, hw, hpre, hok⟩ := hp l
  exact ⟨w, h hw, hpre, hok⟩

/-- What keeps silent speaks the empty word. -/
theorem speaks_silent (hp : LogAll (fun e ↦ keep e = false) p) : Speaks keep 1 p := by
  intro l
  have hs : (p.run l).log.filter keep = [] := by
    apply List.filter_eq_nil_iff.mpr
    intro e he
    simp [hp l e he]
  refine ⟨[], Language.nil_mem_one, ?_, fun _ _ ↦ hs⟩
  rw [hs]

theorem speaks_pure (a : α) : Speaks keep 1 (pure a : Script R X E α) :=
  speaks_silent (logAll_pure a)

theorem speaks_raise {w : List E} (hw : w ∈ L) (x : X) :
    Speaks keep L (raise x : Script R X E α) := by
  intro l
  exact ⟨w, hw, List.nil_prefix, fun a h ↦ by cases h⟩

/-- One after the other. The second must have something to say, for a run that stops
in the first. -/
theorem Speaks.bind (hp : Speaks keep L p) (hf : ∀ a, Speaks keep M (f a))
    (hM : ∃ w, w ∈ M) : Speaks keep (L * M) (p >>= f) := by
  intro l
  obtain ⟨u, hu, hpre, hok⟩ := hp l
  rw [run_bind]
  generalize p.run l = r at hpre hok
  obtain ⟨o, l', es⟩ := r
  cases o with
  | ok a =>
    obtain ⟨v, hv, hpre', hok'⟩ := hf a l'
    have hes : es.filter keep = u := hok a rfl
    refine ⟨u ++ v, Language.append_mem_mul hu hv, ?_, ?_⟩
    · rw [Result.ok_bind, List.filter_append, hes]
      exact (List.prefix_append_right_inj u).mpr hpre'
    · intro b hb
      rw [Result.ok_bind, List.filter_append, hes, hok' b hb]
  | raise x | blocked =>
    obtain ⟨v, hv⟩ := hM
    refine ⟨u ++ v, Language.append_mem_mul hu hv, ?_, fun b hb ↦ by cases hb⟩
    exact hpre.trans (List.prefix_append u v)

theorem Speaks.bind_silent (hp : Speaks keep L p)
    (hf : ∀ a, LogAll (fun e ↦ keep e = false) (f a)) : Speaks keep L (p >>= f) := by
  have h := hp.bind (fun a ↦ speaks_silent (hf a)) ⟨[], Language.nil_mem_one⟩
  rwa [mul_one] at h

theorem Speaks.silent_bind (hp : LogAll (fun e ↦ keep e = false) p)
    (hf : ∀ a, Speaks keep M (f a)) (hM : ∃ w, w ∈ M) : Speaks keep M (p >>= f) := by
  have h := (speaks_silent hp).bind hf hM
  rwa [one_mul] at h

theorem singleton_mul_singleton (u v : List E) :
    ({u} * {v} : Language E) = {u ++ v} := Set.image2_singleton

theorem Speaks.append {u v : List E} (hp : Speaks keep {u} p) (hf : ∀ a, Speaks keep {v} (f a)) :
    Speaks keep {u ++ v} (p >>= f) := by
  rw [← singleton_mul_singleton]
  exact hp.bind hf ⟨v, rfl⟩

theorem Speaks.reraise (hp : Speaks keep L p) (x : X) :
    Speaks keep L (tryCatch p fun _ ↦ raise x) := by
  intro l
  obtain ⟨w, hw, hpre, hok⟩ := hp l
  rw [log_reraise]
  refine ⟨w, hw, hpre, fun a ha ↦ ?_⟩
  generalize hr : (tryCatch p fun _ ↦ raise x).run l = r at ha
  obtain ⟨o, l', es⟩ := r
  cases ha
  rw [reraise_eq_ok] at hr
  exact hok a (by rw [hr])

def upTo (w : List E) (n : ℕ) : Language E := {v | ∃ k ≤ n, v = (List.replicate k w).flatten}

theorem nil_mem_upTo (w : List E) (n : ℕ) : [] ∈ upTo w n := ⟨0, n.zero_le, rfl⟩

theorem one_le_upTo (w : List E) (n : ℕ) : 1 ≤ upTo w n := by
  intro v hv
  cases hv
  exact nil_mem_upTo w n

theorem mul_upTo_le (w : List E) (n : ℕ) : {w} * upTo w n ≤ upTo w (n + 1) := by
  intro v hv
  obtain ⟨u, hu, v, ⟨k, hk, rfl⟩, rfl⟩ := Language.mem_mul.mp hv
  cases hu
  exact ⟨k + 1, Nat.succ_le_succ hk, by rw [List.replicate_succ, List.flatten_cons]⟩

end Esp32c6Fw.Script
