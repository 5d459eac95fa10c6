import Esp32c6Fw.Espctl.Methods

namespace Esp32c6Fw.Espctl

open Script Struct

inductive Handled : Outcome Error Bool → Prop
  | returned (b : Bool) : Handled (.ok b)
  | valueError (msg : String) : Handled (.raise (.valueError msg))
  | serialTimeout (msg : String) : Handled (.raise (.serialTimeout msg))

structure Harmless (m : Method) (f : Bytes) : Prop where
  closed : ¬ Dangling f
  status : m.readsStatus = true → ∀ p, accept m.cmd f = .ok p → 10 ≤ p.length

variable {rs l : List (Option UInt8)} {f p : Bytes} {m : Method} {r : Reply}

theorem closeFrame_append (h : closeFrame f rs = some (r, l)) (post : List (Option UInt8)) :
    closeFrame f (rs ++ post) = some (r, l ++ post) := by
  induction rs generalizing f with
  | nil => cases h
  | cons x rs ih =>
    cases x with
    | none =>
      cases h
      rfl
    | some b =>
      rw [closeFrame] at h
      rw [List.cons_append, closeFrame]
      split at h
      next hb =>
        cases h
        rw [if_pos hb]
      next hb =>
        rw [if_neg hb]
        exact ih h

theorem nextReply_append (h : nextReply rs = some (r, l)) (post : List (Option UInt8)) :
    nextReply (rs ++ post) = some (r, l ++ post) := by
  induction rs with
  | nil => cases h
  | cons x rs ih =>
    cases x with
    | none =>
      cases h
      rfl
    | some b =>
      rw [nextReply] at h
      rw [List.cons_append, nextReply]
      split at h
      next hb =>
        rw [if_pos hb]
        exact ih h
      next hb =>
        rw [if_neg hb]
        exact closeFrame_append h post

theorem closeFrame_silence (h : closeFrame f rs = none) :
    closeFrame f (rs ++ [none]) = some (.cut, []) := by
  induction rs generalizing f with
  | nil => rfl
  | cons x rs ih =>
    cases x with
    | none => cases h
    | some b =>
      rw [closeFrame] at h
      rw [List.cons_append, closeFrame]
      split at h
      · cases h
      next hb =>
        rw [if_neg hb]
        exact ih h

/-- A silence ends the wait for a frame that never comes. -/
theorem nextReply_silence (h : nextReply rs = none) :
    nextReply (rs ++ [none]) = some (.silent, []) ∨ nextReply (rs ++ [none]) = some (.cut, []) := by
  induction rs with
  | nil => exact .inl rfl
  | cons x rs ih =>
    cases x with
    | none => cases h
    | some b =>
      rw [nextReply] at h
      rw [List.cons_append, nextReply]
      split at h
      next hb =>
        rw [if_pos hb]
        exact ih h
      next hb =>
        rw [if_neg hb]
        exact .inr (closeFrame_silence h)

theorem length_of_accept {cmd : ℕ} (h : accept cmd f = .ok p) : 8 ≤ p.length := by
  have hc := accept_ok h
  unfold checkResponse at hc
  split at hc
  · cases hc
  · omega

theorem structUnpackWord_ok {bs : Bytes} (h : bs.length = 4) :
    ∃ value, structUnpackWord bs = .ok value := by
  have hu : unpack [4] bs = some [ofLe (bs.take 4)] := by
    rw [unpack, if_neg (by omega), List.drop_of_length_le (by omega)]
    rfl
  exact ⟨_, by rw [structUnpackWord, hu]⟩

theorem attachOutcome_handled_iff : Handled (attachOutcome (some p)) ↔ 10 ≤ p.length := by
  simp only [attachOutcome]
  by_cases h : 10 ≤ p.length
  · rw [List.getElem?_eq_getElem (by omega : 8 < p.length),
      List.getElem?_eq_getElem (by omega : 9 < p.length)]
    exact ⟨fun _ ↦ h, fun _ ↦ .returned _⟩
  · rw [List.getElem?_eq_none (by omega : p.length ≤ 9)]
    refine ⟨fun hh ↦ ?_, fun hh ↦ absurd hh h⟩
    cases h₈ : p[8]? <;> rw [h₈] at hh <;> cases hh

theorem outcome_handled_iff (h : 8 ≤ p.length) : Handled (m.outcome (some p)) ↔
    (m.readsStatus = true → 10 ≤ p.length) := by
  cases m with
  | flashBegin | flashData | flashEnd =>
    exact ⟨fun _ hs ↦ (by cases hs), fun _ ↦ .returned _⟩
  | readReg =>
    obtain ⟨value, hv⟩ := @structUnpackWord_ok ((p.drop 4).take 4) (by
      rw [List.length_take, List.length_drop]
      omega)
    simp only [Method.outcome, hv, attachOutcome_handled_iff, Method.readsStatus, true_implies]
  | writeReg | memBegin | memData | memEnd | spiAttach =>
    simp only [Method.outcome, attachOutcome_handled_iff, Method.readsStatus, true_implies]

theorem outcome_none (m : Method) : m.outcome none = .ok false := by
  cases m <;> rfl

theorem answer_handled_iff (m : Method) (r : Reply) :
    Handled ((r.answer m.cmd).bind m.outcome) ↔ ∀ f, r = .frame f → Harmless m f := by
  cases r with
  | silent =>
    simp only [Reply.answer, Outcome.bind, outcome_none]
    exact ⟨fun _ f hf ↦ (by cases hf), fun _ ↦ .returned false⟩
  | cut => exact ⟨fun _ f hf ↦ (by cases hf), fun _ ↦ .serialTimeout _⟩
  | frame f =>
    simp only [Reply.answer, Reply.frame.injEq, forall_eq']
    by_cases hd : Dangling f
    · rw [accept_dangling hd]
      exact ⟨fun h ↦ (by cases h), fun h ↦ absurd hd h.closed⟩
    · cases ha : accept m.cmd f with
      | error e =>
        obtain ⟨msg, rfl⟩ := accept_error hd ha
        refine ⟨fun _ ↦ ⟨hd, fun _ p hp ↦ ?_⟩, fun _ ↦ .valueError msg⟩
        rw [ha] at hp
        cases hp
      | ok p =>
        simp only [Outcome.bind, outcome_handled_iff (length_of_accept ha)]
        refine ⟨fun h ↦ ⟨hd, fun hs p' hp ↦ ?_⟩, fun h hs ↦ h.status hs p ha⟩
        rw [ha] at hp
        cases hp
        exact h hs

/-- Whatever the device sends and however long it is silent, a method whose arguments fit
ends as expected if and only if the next frame on the line is harmless. -/
theorem call_handled_iff (m : Method) (rs : List (Option UInt8)) :
    Handled (m.call.run (rs ++ [none])).outcome ↔
      m.Fits ∧ ∀ f l, nextReply rs = some (.frame f, l) → Harmless m f := by
  by_cases hm : m.Fits
  · rw [(Method.call_asks hm _).2]
    obtain ⟨-, hrun⟩ := recvResponse_run m.cmd (rs ++ [none])
    cases hn : nextReply rs with
    | none =>
      have hh : ∀ f l, (none : Option (Reply × List (Option UInt8))) = some (.frame f, l) →
          Harmless m f := fun f l h ↦ by cases h
      rcases nextReply_silence hn with h | h <;>
        · rw [(hrun _ _ h).1, answer_handled_iff]
          exact ⟨fun _ ↦ ⟨hm, hh⟩, fun _ f hf ↦ by cases hf⟩
    | some x =>
      obtain ⟨r, l⟩ := x
      rw [(hrun _ _ (nextReply_append hn [none])).1, answer_handled_iff]
      constructor
      · intro h
        refine ⟨hm, fun f l' hf ↦ ?_⟩
        cases hf
        exact h f rfl
      · rintro ⟨-, h⟩ f rfl
        exact h f l rfl
  · rw [(Method.call_unfit hm _).1]
    exact ⟨fun h ↦ (by cases h), fun h ↦ absurd h.1 hm⟩

/-- A frame of one escape byte, while `flash_end` waits for its response. -/
theorem call_crashes : ¬ Handled ((Method.flashEnd true).call.run
    ([some slipEsc, some slipEnd] ++ [none])).outcome := by
  have ho : ((Method.flashEnd true).call.run ([some slipEsc, some slipEnd] ++ [none])).outcome =
      .raise .indexError := by decide +kernel
  rw [ho]
  intro h
  cases h

end Esp32c6Fw.Espctl
