import Esp32c6Fw.Espctl.Hostile
import Esp32c6Fw.Espctl.Orderly
import Esp32c6Fw.Lib.Ending

namespace Esp32c6Fw.Espctl

open Script

abbrev Line := List (Option UInt8)

/-- What is left of the line when it first times out at the start of a text line. -/
def afterSilence : Bool → Line → Option Line
  | _, [] => none
  | true, none :: rs => some rs
  | false, none :: rs => afterSilence true rs
  | _, some b :: rs => afterSilence (b = 0x0A) rs

/-- Whole answers to `sync` up to a silence. -/
inductive Drained : Line → Line → Prop
  | silent {rs l : Line} : nextReply rs = some (.silent, l) → Drained rs l
  | answer {rs l l' : Line} {f p : Bytes} : nextReply rs = some (.frame f, l) →
      accept romCommandSync f = .ok p → Drained l l' → Drained rs l'

/-- Within this many attempts a `sync` is answered with status 0. Until then the
attempts are met by silence or refused, and then answers come up to a silence. -/
inductive Synced : ℕ → Line → Line → Prop
  | silent {n : ℕ} {rs l l' : Line} : nextReply rs = some (.silent, l) → Synced n l l' →
      Synced (n + 1) rs l'
  | refused {n : ℕ} {rs l l' : Line} {f p : Bytes} : nextReply rs = some (.frame f, l) →
      accept romCommandSync f = .ok p → 10 ≤ p.length → p[8]? ≠ some 0 → Synced n l l' →
      Synced (n + 1) rs l'
  | answered {n : ℕ} {rs l l' : Line} {f p : Bytes} : nextReply rs = some (.frame f, l) →
      accept romCommandSync f = .ok p → 10 ≤ p.length → p[8]? = some 0 → Drained l l' →
      Synced (n + 1) rs l'

variable {rs l l' : Line} {cmd : ℕ} {r : Reply} {f p : Bytes}

section Flush

theorem consumes_readlineByte (line : Bytes) : Consumes (readlineByte line) :=
  consumes_read.bind _

theorem run_readline (line : Bytes) (r : Option UInt8) (rs : Line) :
    (loop readlineByte line).run (r :: rs) =
      match r with
      | none => ⟨.ok line, rs, []⟩
      | some b => if b = 0x0A then ⟨.ok (line ++ [b]), rs, []⟩
          else (loop readlineByte (line ++ [b])).run rs := by
  rw [run_loop consumes_readlineByte]
  cases r with
  | none => rfl
  | some b => by_cases hb : b = 0x0A <;> simp [readlineByte, hb]

theorem consumes_flushLine : Consumes flushLine := by
  have hr : Consumes readline := Consumes.loop consumes_readlineByte []
  exact hr.bind _

def flushFrom (line : Bytes) : Host Unit := do
  let line ← loop readlineByte line
  if line = [] then return () else flush

theorem flush_eq : flush = flushFrom [] := by
  apply eq_of_run
  intro l
  have hl : flushLine.run l = (readline.run l).bind fun line ↦
      (if line = [] then return .inr () else return .inl () : Host (Unit ⊕ Unit)).run := rfl
  rw [flush, run_loop fun _ ↦ consumes_flushLine, hl, Result.bind_assoc, flushFrom, run_bind]
  apply Result.bind_congr
  intro line _
  by_cases hline : line = [] <;> simp [hline, flush]

theorem run_flushFrom (line : Bytes) (rs : Line) : (flushFrom line).run rs =
    match afterSilence (line = []) rs with
    | none => ⟨.blocked, [], []⟩
    | some l => ⟨.ok (), l, []⟩ := by
  induction rs generalizing line with
  | nil => cases line <;> rfl
  | cons r rs ih =>
    rw [flushFrom, run_bind, run_readline]
    cases r with
    | none =>
      by_cases hl : line = []
      · simp [hl, afterSilence]
      · simp [hl, afterSilence, flush_eq, ih]
    | some b =>
      by_cases hb : b = 0x0A
      · simp [hb, afterSilence, flush_eq, ih]
      · have hi := ih (line ++ [b])
        rw [flushFrom, run_bind] at hi
        simp [hb, afterSilence, hi]

theorem run_flush_eq (rs : Line) : flush.run rs =
    match afterSilence true rs with
    | none => ⟨.blocked, [], []⟩
    | some l => ⟨.ok (), l, []⟩ := by
  rw [flush_eq, run_flushFrom]
  rfl

theorem returns_flush {u : Unit} : Returns flush rs u l ↔ afterSilence true rs = some l := by
  rw [Returns, run_flush_eq]
  cases afterSilence true rs <;> simp

theorem raiseAll_flush {P : Error → Prop} : RaiseAll P flush := by
  intro l x h
  rw [run_flush_eq] at h
  split at h <;> cases h

theorem afterSilence_silence (b : Bool) (rs : Line) :
    afterSilence b (rs ++ [none, none]) ≠ none := by
  induction rs generalizing b with
  | nil => cases b <;> simp [afterSilence]
  | cons r rs ih =>
    cases r with
    | none =>
      cases b with
      | true => simp [afterSilence]
      | false => exact ih true
    | some c => exact ih _

theorem ends_flush : Ends none flush := by
  intro l
  refine ⟨2, ?_⟩
  rw [run_flush_eq]
  split
  next h => exact absurd h (afterSilence_silence true l)
  · exact fun h ↦ by cases h

end Flush

section Reply

theorem closeFrame_suffix (h : closeFrame f rs = some (r, l)) : l <:+ rs := by
  induction rs generalizing f with
  | nil => cases h
  | cons x rs ih =>
    cases x with
    | none =>
      cases h
      exact List.suffix_cons ..
    | some b =>
      rw [closeFrame] at h
      split at h
      · cases h
        exact List.suffix_cons ..
      · exact (ih h).trans (List.suffix_cons ..)

theorem noise_frame (h : nextReply rs = some (.frame f, l)) : noise none l < noise none rs := by
  induction rs with
  | nil => cases h
  | cons x rs ih =>
    cases x with
    | none => cases h
    | some b =>
      rw [nextReply] at h
      rw [noise_cons (by simp)]
      split at h
      · exact Nat.lt_succ_of_lt (ih h)
      · exact Nat.lt_succ_of_le (noise_le_of_suffix (closeFrame_suffix h))

theorem returns_recvResponse {resp : Option Bytes} : Returns (recvResponse cmd) rs resp l ↔
    ∃ r, nextReply rs = some (r, l) ∧ r.answer cmd = .ok resp := by
  obtain ⟨hnone, hsome⟩ := recvResponse_run cmd rs
  constructor
  · rintro ⟨ho, rfl⟩
    cases hn : nextReply rs with
    | none =>
      rw [hnone hn] at ho
      cases ho
    | some x =>
      obtain ⟨r, l⟩ := x
      obtain ⟨hr, hl⟩ := hsome r l hn
      rw [hl]
      exact ⟨r, rfl, hr.symm.trans ho⟩
  · rintro ⟨r, hn, hr⟩
    obtain ⟨ho, hl⟩ := hsome r l hn
    exact ⟨ho.trans hr, hl⟩

theorem answer_eq_none : r.answer cmd = .ok none ↔ r = .silent := by
  cases r with
  | silent => simp [Reply.answer]
  | cut => simp [Reply.answer]
  | frame f => cases h : accept cmd f <;> simp [Reply.answer, h]

theorem answer_eq_some :
    r.answer cmd = .ok (some p) ↔ ∃ f, r = .frame f ∧ accept cmd f = .ok p := by
  cases r with
  | silent => simp [Reply.answer]
  | cut => simp [Reply.answer]
  | frame f => cases h : accept cmd f <;> simp [Reply.answer, h]

theorem answer_ne_blocked : r.answer cmd ≠ .blocked := by
  cases r with
  | silent => simp [Reply.answer]
  | cut => simp [Reply.answer]
  | frame f => cases h : accept cmd f <;> simp [Reply.answer, h]

theorem ends_recvResponse (cmd : ℕ) : Ends none (recvResponse cmd) := by
  intro l
  refine ⟨1, ?_⟩
  obtain ⟨-, hsome⟩ := recvResponse_run cmd (l ++ [none])
  obtain ⟨r, l', hr⟩ : ∃ r l', nextReply (l ++ [none]) = some (r, l') := by
    cases hn : nextReply l with
    | none => exact (nextReply_silence hn).elim (fun h ↦ ⟨_, _, h⟩) fun h ↦ ⟨_, _, h⟩
    | some x => exact ⟨_, _, nextReply_append hn [none]⟩
  exact fun h ↦ answer_ne_blocked ((hsome r l' hr).1.symm.trans h)

end Reply

section Sync

theorem consumes_syncDrop : Consumes syncDrop := (consumes_recvResponse _).bind _

theorem returns_syncDrop {x : Unit ⊕ Unit} : Returns syncDrop rs x l ↔
    (nextReply rs = some (.silent, l) ∧ x = .inr ()) ∨
    ∃ f p, nextReply rs = some (.frame f, l) ∧ accept romCommandSync f = .ok p ∧ x = .inl () := by
  simp only [syncDrop, returns_bind, returns_recvResponse]
  constructor
  · rintro ⟨resp, l₁, ⟨r, hn, hr⟩, hx⟩
    cases resp with
    | none =>
      obtain ⟨rfl, rfl⟩ := returns_pure.mp hx
      rw [answer_eq_none] at hr
      subst hr
      exact .inl ⟨hn, rfl⟩
    | some p =>
      obtain ⟨rfl, rfl⟩ := returns_pure.mp hx
      obtain ⟨f, rfl, ha⟩ := answer_eq_some.mp hr
      exact .inr ⟨f, p, hn, ha, rfl⟩
  · rintro (⟨hn, rfl⟩ | ⟨f, p, hn, ha, rfl⟩)
    · exact ⟨none, l, ⟨_, hn, answer_eq_none.mpr rfl⟩, returns_pure.mpr ⟨rfl, rfl⟩⟩
    · exact ⟨some p, l, ⟨_, hn, answer_eq_some.mpr ⟨f, rfl, ha⟩⟩, returns_pure.mpr ⟨rfl, rfl⟩⟩

theorem returns_syncDrain {u : Unit} : Returns syncDrain rs u l ↔ Drained rs l := by
  have hloop (rs l : Line) : Returns syncDrain rs u l ↔ _ :=
    returns_loop (fun _ ↦ consumes_syncDrop)
  constructor
  · intro h
    induction hk : noise none rs using Nat.strong_induction_on generalizing rs with
    | _ k ih =>
      rcases (hloop rs l).mp h with hx | ⟨_, l₁, hx, hrest⟩
      · rcases returns_syncDrop.mp hx with ⟨hn, -⟩ | ⟨f, p, -, -, hx⟩
        · exact .silent hn
        · cases hx
      · rcases returns_syncDrop.mp hx with ⟨-, hx⟩ | ⟨f, p, hn, ha, -⟩
        · cases hx
        · exact .answer hn ha (ih _ (hk ▸ noise_frame hn) hrest rfl)
  · intro h
    induction h with
    | silent hn => exact (hloop _ _).mpr (.inl (returns_syncDrop.mpr (.inl ⟨hn, rfl⟩)))
    | answer hn ha _ ih =>
      exact (hloop _ _).mpr (.inr ⟨(), _, returns_syncDrop.mpr (.inr ⟨_, _, hn, ha, rfl⟩), ih⟩)

theorem ends_syncDrain : Ends none syncDrain := by
  refine ends_loop (fun _ ↦ consumes_syncDrop) (fun _ ↦ ?_) ?_ ()
  · apply (ends_recvResponse _).bind
    intro resp
    cases resp <;> exact ends_pure _
  · rintro _ l s' l' h
    rcases returns_syncDrop.mp h with ⟨-, hx⟩ | ⟨f, p, hn, -, -⟩
    · cases hx
    · exact noise_frame hn

theorem returns_ofExcept {α : Type} {x : Except Error α} {a : α} :
    Returns (ofExcept x) rs a l ↔ x = .ok a ∧ l = rs := by
  cases x with
  | ok b => simp [ofExcept, returns_pure, eq_comm]
  | error e => simp [ofExcept, not_returns_raise]

theorem index_eq_ok {bs : Bytes} {i : ℕ} {b : UInt8} : index bs i = .ok b ↔ bs[i]? = some b := by
  rw [index]
  cases bs[i]? <;> simp

theorem returns_sendCommand {c : Command} (h : c.Fits) {u : Unit} :
    Returns (sendCommand c) rs u l ↔ l = rs := by
  simp only [Returns, run_sendCommand h, true_and, eq_comm]

theorem syncCommand_fits : (⟨romCommandSync, syncData, 0⟩ : Command).Fits :=
  ⟨by decide, by decide, by decide⟩

def syncStatus : Option Bytes → Host Bool
  | none => return false
  | some resp => do
    let status ← ofExcept (index resp 8)
    let error ← ofExcept (index resp 9)
    if status ≠ 0 then
      print s!"SYNC ERROR CODE: {error.toNat}"
      return false
    else
      syncDrain
      return true

theorem syncTurn_eq : syncTurn = tryCatch (sendCommand ⟨romCommandSync, syncData, 0⟩ >>= fun _ ↦
    recvResponse romCommandSync >>= syncStatus)
    fun _ ↦ raise (.nameError "SerialTimeoutException") := by
  refine congrArg (tryCatch · _) (congrArg _ (funext fun _ ↦ congrArg _ (funext fun resp ↦ ?_)))
  cases resp <;> rfl

theorem returns_syncStatus {b : Bool} : Returns (syncStatus (some p)) rs b l ↔
    10 ≤ p.length ∧ (p[8]? ≠ some 0 ∧ b = false ∧ l = rs ∨
      p[8]? = some 0 ∧ b = true ∧ Drained rs l) := by
  simp only [syncStatus, returns_bind, returns_ofExcept, index_eq_ok]
  by_cases h : 10 ≤ p.length
  · have h₈ := List.getElem?_eq_getElem (show 8 < p.length by omega)
    have h₉ := List.getElem?_eq_getElem (show 9 < p.length by omega)
    by_cases hs : p[8] = 0
    · simp [h, h₈, h₉, hs, returns_bind, returns_pure, returns_syncDrain, and_comm]
    · simp [h, h₈, h₉, hs, returns_bind, returns_pure, print, returns_emit]
  · have h₉ : p[9]? = none := List.getElem?_eq_none (by omega)
    simp [h, h₉]

theorem returns_syncTurn {b : Bool} : Returns syncTurn rs b l ↔
    (nextReply rs = some (.silent, l) ∧ b = false) ∨
    ∃ f p l₁, nextReply rs = some (.frame f, l₁) ∧ accept romCommandSync f = .ok p ∧
      10 ≤ p.length ∧ (p[8]? ≠ some 0 ∧ b = false ∧ l = l₁ ∨
        p[8]? = some 0 ∧ b = true ∧ Drained l₁ l) := by
  rw [syncTurn_eq, returns_reraise, returns_bind]
  simp only [returns_sendCommand syncCommand_fits, exists_eq_left, exists_const]
  simp only [returns_bind, returns_recvResponse]
  constructor
  · rintro ⟨resp, l₁, ⟨r, hn, hr⟩, hx⟩
    cases resp with
    | none =>
      obtain ⟨rfl, rfl⟩ := returns_pure.mp hx
      rw [answer_eq_none] at hr
      subst hr
      exact .inl ⟨hn, rfl⟩
    | some p =>
      obtain ⟨f, rfl, ha⟩ := answer_eq_some.mp hr
      exact .inr ⟨f, p, l₁, hn, ha, returns_syncStatus.mp hx⟩
  · rintro (⟨hn, rfl⟩ | ⟨f, p, l₁, hn, ha, hx⟩)
    · exact ⟨none, l, ⟨_, hn, answer_eq_none.mpr rfl⟩, returns_pure.mpr ⟨rfl, rfl⟩⟩
    · exact ⟨some p, l₁, ⟨_, hn, answer_eq_some.mpr ⟨f, rfl, ha⟩⟩, returns_syncStatus.mpr hx⟩

/-- `sync` returns exactly when the line lets it come through. -/
theorem returns_syncTurns {n : ℕ} {b : Bool} :
    Returns (syncTurns n) rs b l ↔ b = true ∧ Synced n rs l := by
  induction n generalizing rs with
  | zero =>
    refine ⟨fun h ↦ absurd h not_returns_raise, fun ⟨_, h⟩ ↦ ?_⟩
    cases h
  | succ n ih =>
    simp only [syncTurns, returns_bind, returns_syncTurn]
    constructor
    · rintro ⟨c, l₁, ⟨hn, rfl⟩ | ⟨f, p, l₂, hn, ha, hl, ⟨h₈, rfl, rfl⟩ | ⟨h₈, rfl, hd⟩⟩, hx⟩
      · obtain ⟨hb, hs⟩ := ih.mp hx
        exact ⟨hb, .silent hn hs⟩
      · obtain ⟨hb, hs⟩ := ih.mp hx
        exact ⟨hb, .refused hn ha hl h₈ hs⟩
      · obtain ⟨hb, rfl⟩ := returns_pure.mp hx
        exact ⟨hb, .answered hn ha hl h₈ hd⟩
    · rintro ⟨rfl, h⟩
      cases h with
      | silent hn hs => exact ⟨false, _, .inl ⟨hn, rfl⟩, ih.mpr ⟨rfl, hs⟩⟩
      | refused hn ha hl h₈ hs =>
        exact ⟨false, _, .inr ⟨_, _, _, hn, ha, hl, .inl ⟨h₈, rfl, rfl⟩⟩, ih.mpr ⟨rfl, hs⟩⟩
      | answered hn ha hl h₈ hd =>
        exact ⟨true, _, .inr ⟨_, _, _, hn, ha, hl, .inr ⟨h₈, rfl, hd⟩⟩,
          returns_pure.mpr ⟨rfl, rfl⟩⟩

theorem ends_ofExcept {α : Type} (x : Except Error α) : Ends none (ofExcept x) := by
  cases x with
  | ok a => exact ends_pure a
  | error e => exact ends_raise e

theorem ends_sendCommand (c : Command) : Ends none (sendCommand c) :=
  (ends_ofExcept _).bind fun _ ↦ (ends_emit _).bind fun _ ↦ (ends_emit _).bind fun _ ↦
    (ends_emit _).bind fun _ ↦ ends_emit _

theorem ends_syncTurn : Ends none syncTurn := by
  rw [syncTurn_eq]
  refine Ends.tryCatch ?_ fun _ ↦ ends_raise _
  refine (ends_sendCommand _).bind fun _ ↦ (ends_recvResponse _).bind fun resp ↦ ?_
  cases resp with
  | none => exact ends_pure _
  | some resp =>
    refine (ends_ofExcept _).bind fun status ↦ (ends_ofExcept _).bind fun error ↦ ?_
    by_cases h : status ≠ 0
    · rw [if_pos h]
      exact (ends_emit _).bind fun _ ↦ ends_pure _
    · rw [if_neg h]
      exact ends_syncDrain.bind fun _ ↦ ends_pure _

theorem ends_syncTurns (n : ℕ) : Ends none (syncTurns n) := by
  induction n with
  | zero => exact ends_raise _
  | succ n ih =>
    apply ends_syncTurn.bind
    intro b
    cases b with
    | true => exact ends_pure _
    | false => exact ih

theorem raiseAll_syncTurns {P : Error → Prop} (hn : P (.nameError "SerialTimeoutException"))
    (hr : P (.runtimeError "Failed to sync with ESP32C6 ROM Loader")) (n : ℕ) :
    RaiseAll P (syncTurns n) := by
  induction n with
  | zero => exact raiseAll_raise hr
  | succ n ih =>
    apply RaiseAll.bind (raiseAll_reraise hn)
    intro b
    cases b with
    | true => exact raiseAll_pure _
    | false => exact ih

end Sync

section Connect

variable {setup : Setup} {usb : Bool}

theorem returns_enterDownloadMode {u : Unit} :
    Returns (enterDownloadMode usb) rs u l ↔ l = rs := by
  cases usb <;> exact ⟨fun h ↦ h.2.symm, fun h ↦ ⟨rfl, h.symm⟩⟩

theorem returns_connect (h : setup.portOpens) {u : Unit} : Returns (connect setup) rs u l' ↔
    ∃ l, afterSilence true rs = some l ∧ Synced 10 l l' := by
  simp only [connect, openProtocol, h, if_true, sync, returns_bind, returns_pure,
    returns_enterDownloadMode, returns_flush, print, returns_emit, returns_syncTurns]
  constructor
  · rintro ⟨_, _, ⟨-, rfl⟩, _, _, rfl, _, _, hl, _, _, ⟨_, _, rfl, -, hs⟩, -, rfl⟩
    exact ⟨_, hl, hs⟩
  · rintro ⟨l, hl, hs⟩
    exact ⟨_, _, ⟨rfl, rfl⟩, (), _, rfl, (), l, hl, true, l', ⟨(), _, rfl, rfl, hs⟩, trivial, rfl⟩

theorem raiseAll_connect (h : setup.portOpens) {P : Error → Prop}
    (hn : P (.nameError "SerialTimeoutException"))
    (hr : P (.runtimeError "Failed to sync with ESP32C6 ROM Loader")) :
    RaiseAll P (connect setup) := by
  have hd (usb : Bool) : RaiseAll P (enterDownloadMode usb) := by
    intro l x hx
    cases usb <;> cases hx
  rw [connect, openProtocol, if_pos h]
  exact (raiseAll_pure _).bind fun usb ↦ (hd usb).bind fun _ ↦ raiseAll_flush.bind fun _ ↦
    ((raiseAll_emit _).bind fun _ ↦ raiseAll_syncTurns hn hr 10).bind fun _ ↦ raiseAll_pure _

theorem ends_connect (setup : Setup) : Ends none (connect setup) := by
  have ho : Ends none (openProtocol setup "/dev/ttyACM0") := by
    unfold openProtocol
    split
    · exact ends_pure _
    · exact ends_raise _
  have hd (usb : Bool) : Ends none (enterDownloadMode usb) :=
    ends_of_outcome fun l ho ↦ by cases usb <;> cases ho
  exact ho.bind fun usb ↦ (hd usb).bind fun _ ↦ ends_flush.bind fun _ ↦
    ((ends_emit _).bind fun _ ↦ ends_syncTurns 10).bind fun _ ↦ ends_pure _

end Connect

end Esp32c6Fw.Espctl
