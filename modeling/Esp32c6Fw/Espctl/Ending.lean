import Esp32c6Fw.Espctl.Connect
import Esp32c6Fw.Espctl.Failure

namespace Esp32c6Fw.Espctl

open Script

def blockCalls (seq : ℕ) : ℕ → Bytes → List Method
  | 0, _ => []
  | left + 1, inputBin =>
    .flashData maxBlockSize seq (block inputBin) ::
      blockCalls (seq + 1) left (inputBin.drop maxBlockSize)

def calls (inputBin : Bytes) : List Method :=
  .spiAttach 0 ::
    .flashBegin inputBin.length (nrBlocks inputBin.length) maxBlockSize 0x0 0 ::
      (blockCalls 0 (nrBlocks inputBin.length) inputBin ++ [.flashEnd true])

def callAll : List Method → Host Unit
  | [] => return ()
  | m :: ms => do
    let _ ← m.call
    callAll ms

/-- For every call that is reached the arguments fit, and no frame that the line
answers to it makes it index past the end. -/
def Calm : List Method → Line → Prop
  | [], _ => True
  | m :: ms, rs => m.Fits ∧ ∀ r l, nextReply rs = some (r, l) →
      (∀ f, r = .frame f → Harmless m f) ∧ ∀ resp, r.answer m.cmd = .ok resp → Calm ms l

/-- What `esp_flash` prints about a failure, and nothing if it lets it escape. -/
def failureReport : Error → List String
  | .serialException e | .serialTimeout e => [s!"SERIAL EXCEPTION: {e}"]
  | .valueError e => [s!"PROTOCOL ERROR: {e}"]
  | _ => []

/-- `esp_flash` returns. It has reported a failure of the transfer if and only if there
was one, and then reset the device and flushed the line if and only if the port is open. -/
structure EndsCleanly (setup : Setup) (inputBin : Bytes) (rs : Line) : Prop where
  returns : ((espFlash setup).run rs).outcome = .ok ()
  reports : ∃ lines : List String,
    (lines = [] ↔ ((transfer setup inputBin).run rs).outcome = .ok ()) ∧
    ((espFlash setup).run rs).log = ((transfer setup inputBin).run rs).log ++
      (lines.map .print ++ if setup.portOpens then
        ((reset >>= fun _ ↦ flush).run ((transfer setup inputBin).run rs).rest).log else [])

def ComesThrough (setup : Setup) (inputBin : Bytes) (rs : Line) : Prop :=
  setup.portOpens ∧ ∃ l l', afterSilence true rs = some l ∧ Synced 10 l l' ∧
    Calm (calls inputBin) l'

def Caught {α : Type} (o : Outcome Error α) : Prop := ∀ x, o = .raise x → failureReport x ≠ []

variable {setup : Setup} {inputBin : Bytes} {rs l : Line} {m : Method} {ms : List Method}
  {r : Reply}

section Calls

theorem callAll_append (ms ms' : List Method) :
    callAll (ms ++ ms') = callAll ms >>= fun _ ↦ callAll ms' := by
  induction ms with
  | nil => rfl
  | cons m ms ih =>
    rw [List.cons_append, callAll, ih, callAll, bind_assoc]

theorem flashBlocks_eq (seq left : ℕ) (inputBin : Bytes) :
    flashBlocks maxBlockSize seq left inputBin = callAll (blockCalls seq left inputBin) := by
  induction left generalizing seq inputBin with
  | zero => rfl
  | succ left ih =>
    rw [flashBlocks, ih]
    rfl

theorem attachAndFlash_eq (inputBin : Bytes) :
    attachAndFlash inputBin = callAll (calls inputBin) := by
  rw [attachAndFlash, flashImage, flashBlocks_eq, calls, callAll, callAll, callAll_append]
  rfl

theorem outcome_cases (m : Method) (resp : Option Bytes) :
    (∃ b, m.outcome resp = .ok b) ∨ m.outcome resp = .raise .indexError ∨
      m.outcome resp = .raise .structError := by
  have ha : (∃ b, attachOutcome resp = .ok b) ∨ attachOutcome resp = .raise .indexError ∨
      attachOutcome resp = .raise .structError := by
    unfold attachOutcome
    split
    · exact .inl ⟨_, rfl⟩
    · split
      · exact .inl ⟨_, rfl⟩
      · exact .inr (.inl rfl)
  cases m with
  | flashBegin | flashData | flashEnd => exact .inl ⟨_, rfl⟩
  | readReg =>
    cases resp with
    | none => exact .inl ⟨_, rfl⟩
    | some resp =>
      have he : structUnpackWord ((resp.drop 4).take 4) = .error .structError ∨
          ∃ value, structUnpackWord ((resp.drop 4).take 4) = .ok value := by
        unfold structUnpackWord
        split
        · exact .inr ⟨_, rfl⟩
        · exact .inl rfl
      rw [Method.outcome]
      rcases he with he | ⟨value, he⟩
      · rw [he]
        exact .inr (.inr rfl)
      · rw [he]
        exact ha
  | writeReg | memBegin | memData | memEnd | spiAttach => exact ha

theorem answer_raise {cmd : ℕ} {x : Error} (h : r.answer cmd = .raise x) :
    Handled (.raise x) ↔ failureReport x ≠ [] := by
  have hx : x = .indexError ∨ (∃ msg, x = .valueError msg) ∨ ∃ msg, x = .serialTimeout msg := by
    cases r with
    | silent => cases h
    | cut =>
      cases h
      exact .inr (.inr ⟨_, rfl⟩)
    | frame f =>
      by_cases hd : Dangling f
      · rw [Reply.answer, accept_dangling hd] at h
        cases h
        exact .inl rfl
      · cases ha : accept cmd f with
        | ok p =>
          rw [Reply.answer, ha] at h
          cases h
        | error e =>
          rw [Reply.answer, ha] at h
          cases h
          exact .inr (.inl (accept_error hd ha))
  rcases hx with rfl | ⟨msg, rfl⟩ | ⟨msg, rfl⟩
  · exact ⟨fun h ↦ (by cases h), fun h ↦ absurd rfl h⟩
  · exact ⟨fun _ ↦ by simp [failureReport], fun _ ↦ .valueError msg⟩
  · exact ⟨fun _ ↦ by simp [failureReport], fun _ ↦ .serialTimeout msg⟩

theorem caught_raise {α : Type} {x : Error} :
    Caught (.raise x : Outcome Error α) ↔ failureReport x ≠ [] :=
  ⟨fun h ↦ h x rfl, fun h y hy ↦ by
    cases hy
    exact h⟩

theorem calm_cons (hm : m.Fits) (hn : nextReply rs = some (r, l)) : Calm (m :: ms) rs ↔
    Handled ((r.answer m.cmd).bind m.outcome) ∧ ∀ resp, r.answer m.cmd = .ok resp → Calm ms l := by
  rw [answer_handled_iff]
  constructor
  · rintro ⟨-, h⟩
    exact h r l hn
  · intro h
    refine ⟨hm, fun r' l' hn' ↦ ?_⟩
    rw [hn] at hn'
    cases hn'
    exact h

/-- The call that is reached next: what it raises is caught exactly when it is handled,
and if it returns the rest decides. -/
theorem caught_cons (hb : ((callAll (m :: ms)).run rs).outcome ≠ .blocked)
    (ih : ∀ l, ((callAll ms).run l).outcome ≠ .blocked →
      (Caught ((callAll ms).run l).outcome ↔ Calm ms l)) :
    Caught ((callAll (m :: ms)).run rs).outcome ↔ Calm (m :: ms) rs := by
  have hrun : (callAll (m :: ms)).run rs = (m.call.run rs).bind fun _ ↦ (callAll ms).run := rfl
  rw [hrun] at hb ⊢
  by_cases hm : m.Fits
  · obtain ⟨hasks, ho⟩ := m.call_asks hm rs
    have hrest := hasks.rest
    obtain ⟨hnone, hsome⟩ := recvResponse_run m.cmd rs
    generalize m.call.run rs = x at ho hrest hb ⊢
    obtain ⟨o, l, e⟩ := x
    simp only at ho hrest
    cases hn : nextReply rs with
    | none =>
      rw [hnone hn] at ho
      subst ho
      exact absurd rfl hb
    | some y =>
      obtain ⟨r, l'⟩ := y
      obtain ⟨hr, hl⟩ := hsome r l' hn
      rw [hr] at ho
      rw [hl] at hrest
      subst hrest
      rw [calm_cons hm hn]
      cases ha : r.answer m.cmd with
      | blocked => exact absurd ha answer_ne_blocked
      | raise x =>
        rw [ha] at ho
        simp only [Outcome.bind] at ho ⊢
        subst ho
        rw [Result.raise_bind, caught_raise, ← answer_raise ha]
        exact ⟨fun h ↦ ⟨h, fun resp hresp ↦ by cases hresp⟩, And.left⟩
      | ok resp =>
        rw [ha] at ho
        simp only [Outcome.bind] at ho ⊢
        rcases outcome_cases m resp with ⟨b, hm'⟩ | hm' | hm'
        · rw [hm'] at ho ⊢
          subst ho
          rw [Result.ok_bind] at hb ⊢
          rw [ih l hb]
          exact ⟨fun h ↦ ⟨.returned b, fun _ _ ↦ h⟩, fun h ↦ h.2 resp rfl⟩
        all_goals
          rw [hm'] at ho ⊢
          subst ho
          rw [Result.raise_bind, caught_raise]
          exact ⟨fun h ↦ absurd rfl h, fun h ↦ by cases h.1⟩
  · have ho := (Method.call_unfit hm rs).1
    generalize m.call.run rs = x at ho ⊢
    obtain ⟨o, l, e⟩ := x
    subst ho
    rw [Result.raise_bind, caught_raise]
    exact ⟨fun h ↦ absurd rfl h, fun h ↦ absurd h.1 hm⟩

theorem callAll_caught_iff (ms : List Method) (rs : Line)
    (hb : ((callAll ms).run rs).outcome ≠ .blocked) :
    Caught ((callAll ms).run rs).outcome ↔ Calm ms rs := by
  induction ms generalizing rs with
  | nil => exact ⟨fun _ ↦ trivial, fun _ x hx ↦ by cases hx⟩
  | cons m ms ih => exact caught_cons hb ih

end Calls

section CleanUp

theorem raiseAll_reset {P : Error → Prop} : RaiseAll P reset :=
  (raiseAll_emit _).bind fun _ ↦ (raiseAll_emit _).bind fun _ ↦ (raiseAll_emit _).bind fun _ ↦
    raiseAll_flush.bind fun _ ↦ (raiseAll_emit _).bind fun _ ↦ (raiseAll_emit _).bind fun _ ↦
    raiseAll_emit _

theorem ends_reset : Ends none reset :=
  (ends_emit _).bind fun _ ↦ (ends_emit _).bind fun _ ↦ (ends_emit _).bind fun _ ↦
    ends_flush.bind fun _ ↦ (ends_emit _).bind fun _ ↦ (ends_emit _).bind fun _ ↦ ends_emit _

theorem ends_cleanUp (setup : Setup) : Ends none (cleanUp setup) := by
  unfold cleanUp
  split
  · exact ends_reset.bind fun _ ↦ ends_flush
  · exact ends_raise _

def reportLines : Outcome Error Unit → List String
  | .raise x => failureReport x
  | .ok _ | .blocked => []

theorem run_report {x : Error} (h : failureReport x ≠ []) (l : Line) :
    (report x).run l = ⟨.ok (), l, (failureReport x).map .print⟩ := by
  cases x with
  | serialException | serialTimeout | valueError => rfl
  | _ => exact absurd rfl h

theorem report_eq_raise {x : Error} (h : failureReport x = []) : report x = raise x := by
  cases x with
  | serialException | serialTimeout | valueError => cases h
  | _ => rfl

variable (hfile : setup.contents = some inputBin)
include hfile

theorem espFlash_eq : espFlash setup =
    tryFinally (tryCatch (transfer setup inputBin) report) (cleanUp setup) := by
  rw [espFlash, hfile]

theorem espFlash_blocked (h : ((transfer setup inputBin).run rs).outcome = .blocked) :
    ((espFlash setup).run rs).outcome = .blocked := by
  cases ht : (transfer setup inputBin).run rs with
  | mk o l e =>
    rw [ht] at h
    cases h
    rw [espFlash_eq hfile, run_tryFinally_blocked (run_tryCatch_blocked ht)]

/-- A transfer that returns, or raises what `esp_flash` catches, is followed by the report
and the clean-up. -/
theorem run_espFlash_caught (hb : ((transfer setup inputBin).run rs).outcome ≠ .blocked)
    (hc : Caught ((transfer setup inputBin).run rs).outcome) : ((espFlash setup).run rs).outcome =
      ((cleanUp setup).run ((transfer setup inputBin).run rs).rest).outcome ∧
    ((espFlash setup).run rs).log = ((transfer setup inputBin).run rs).log ++
      ((reportLines ((transfer setup inputBin).run rs).outcome).map .print ++
        ((cleanUp setup).run ((transfer setup inputBin).run rs).rest).log) := by
  generalize ht : (transfer setup inputBin).run rs = t at hb hc ⊢
  obtain ⟨o, l, e⟩ := t
  have hrun : (Script.tryCatch (transfer setup inputBin) report).run rs =
      ⟨.ok (), l, e ++ (reportLines o).map .print⟩ := by
    cases o with
    | blocked => exact absurd rfl hb
    | ok _ => rw [run_tryCatch_ok ht, reportLines, List.map_nil, List.append_nil]
    | raise x => rw [run_tryCatch_raise ht, run_report (hc x rfl), reportLines]
  have hunit (o : Outcome Error Unit) : o.bind (fun _ ↦ .ok ()) = o := by
    cases o <;> rfl
  rw [espFlash_eq hfile, run_tryFinally_ok hrun]
  exact ⟨hunit _, List.append_assoc ..⟩

/-- What `esp_flash` does not catch escapes, or the clean-up raises in its place. -/
theorem not_returns_espFlash {x : Error}
    (ht : ((transfer setup inputBin).run rs).outcome = .raise x) (hx : failureReport x = []) :
    ((espFlash setup).run rs).outcome ≠ .ok () := by
  cases hr : (transfer setup inputBin).run rs with
  | mk o l e =>
    rw [hr] at ht
    cases ht
    have hrun : (Script.tryCatch (transfer setup inputBin) report).run rs = _ :=
      run_tryCatch_raise hr
    rw [report_eq_raise hx, run_raise] at hrun
    rw [espFlash_eq hfile, run_tryFinally_raise hrun]
    simp [Outcome.bind_eq_ok]

theorem ends_espFlash : Ends none (espFlash setup) := by
  have hcall (m : Method) : Ends none m.call := by
    intro rs
    by_cases hm : m.Fits
    · obtain ⟨n, hn⟩ := ends_recvResponse m.cmd rs
      refine ⟨n, fun ho ↦ ?_⟩
      rw [(m.call_asks hm _).2] at ho
      generalize ((recvResponse m.cmd).run (rs ++ List.replicate n none)).outcome = o at hn ho
      cases o with
      | blocked => exact hn rfl
      | raise x => cases ho
      | ok resp =>
        rcases outcome_cases m resp with ⟨b, h⟩ | h | h <;>
          · rw [Outcome.bind, h] at ho
            cases ho
    · refine ⟨0, fun ho ↦ ?_⟩
      rw [(Method.call_unfit hm _).1] at ho
      cases ho
  have hall (ms : List Method) : Ends none (callAll ms) := by
    induction ms with
    | nil => exact ends_pure _
    | cons m ms ih => exact (hcall m).bind fun _ ↦ ih
  have hreport (x : Error) : Ends none (report x) := by
    cases x with
    | serialException | serialTimeout | valueError => exact ends_emit _
    | _ => exact ends_raise _
  have ht : Ends none (transfer setup inputBin) := by
    apply (ends_connect setup).bind
    intro _
    have ha := hall (calls inputBin)
    rw [← attachAndFlash_eq] at ha
    exact ha
  rw [espFlash_eq hfile]
  exact (ht.tryCatch hreport).tryFinally (ends_cleanUp setup)

end CleanUp

theorem transfer_caught_iff (hp : setup.portOpens)
    (hb : ((transfer setup inputBin).run rs).outcome ≠ .blocked) :
    Caught ((transfer setup inputBin).run rs).outcome ↔ ComesThrough setup inputBin rs := by
  have hrun : (transfer setup inputBin).run rs =
      ((connect setup).run rs).bind fun _ ↦ (callAll (calls inputBin)).run := by
    rw [← attachAndFlash_eq]
    rfl
  have hraise := @raiseAll_connect setup hp (failureReport · = []) rfl rfl rs
  have hret (l' : Line) := @returns_connect rs l' setup hp ()
  simp only [Returns] at hret
  have hthrough : ComesThrough setup inputBin rs ↔
      ∃ l', (((connect setup).run rs).outcome = .ok () ∧ ((connect setup).run rs).rest = l') ∧
        Calm (calls inputBin) l' := by
    simp only [ComesThrough, hp, true_and, hret]
    constructor
    · rintro ⟨l, l', h₁, h₂, h₃⟩
      exact ⟨l', ⟨l, h₁, h₂⟩, h₃⟩
    · rintro ⟨l', ⟨l, h₁, h₂⟩, h₃⟩
      exact ⟨l, l', h₁, h₂, h₃⟩
  rw [hthrough]
  rw [hrun] at hb ⊢
  generalize (connect setup).run rs = r at hb hraise ⊢
  obtain ⟨o, l, e⟩ := r
  cases o with
  | blocked => exact absurd rfl hb
  | raise x =>
    rw [Result.raise_bind, caught_raise]
    refine ⟨fun h ↦ absurd (hraise x rfl) h, ?_⟩
    rintro ⟨l', ⟨ho, -⟩, -⟩
    cases ho
  | ok _ =>
    rw [Result.ok_bind] at hb ⊢
    simp only [callAll_caught_iff _ _ hb, true_and, exists_eq_left']

theorem endsCleanly_iff_caught (hfile : setup.contents = some inputBin) (hp : setup.portOpens)
    (hb : ((espFlash setup).run rs).outcome ≠ .blocked) : EndsCleanly setup inputBin rs ↔
      Caught ((transfer setup inputBin).run rs).outcome := by
  have hclean : cleanUp setup = reset >>= fun _ ↦ flush := if_pos hp
  have hraise : RaiseAll (fun _ ↦ False) (cleanUp setup) := by
    rw [hclean]
    exact raiseAll_reset.bind fun _ ↦ raiseAll_flush
  constructor
  · intro h x hx hn
    exact not_returns_espFlash hfile hx hn h.returns
  · intro hc
    have htb : ((transfer setup inputBin).run rs).outcome ≠ .blocked :=
      fun h ↦ hb (espFlash_blocked hfile h)
    obtain ⟨ho, hl⟩ := run_espFlash_caught hfile htb hc
    refine ⟨?_, reportLines ((transfer setup inputBin).run rs).outcome, ?_, ?_⟩
    · rw [ho] at hb ⊢
      have hr := hraise ((transfer setup inputBin).run rs).rest
      cases hcl : ((cleanUp setup).run ((transfer setup inputBin).run rs).rest).outcome with
      | ok _ => rfl
      | raise x => exact (hr x hcl).elim
      | blocked => exact absurd hcl hb
    · cases hout : ((transfer setup inputBin).run rs).outcome with
      | ok _ => simp [reportLines]
      | raise x => simp [reportLines, hc x hout]
      | blocked => exact absurd hout htb
    · rw [hl, if_pos hp, hclean]

/-- Whatever the device sends, `esp_flash` comes to an end once it is silent, and it ends
cleanly if and only if the port opens and the transfer comes through. -/
theorem ends_cleanly_iff (hfile : setup.contents = some inputBin) (rs : Line) :
    (∃ n, ((espFlash setup).run (rs ++ List.replicate n none)).outcome ≠ .blocked) ∧
    (((espFlash setup).run rs).outcome ≠ .blocked →
      (EndsCleanly setup inputBin rs ↔ ComesThrough setup inputBin rs)) := by
  refine ⟨ends_espFlash hfile rs, fun hb ↦ ?_⟩
  have htb : ((transfer setup inputBin).run rs).outcome ≠ .blocked :=
    fun h ↦ hb (espFlash_blocked hfile h)
  by_cases hp : setup.portOpens
  · rw [endsCleanly_iff_caught hfile hp hb, transfer_caught_iff hp htb]
  · refine ⟨fun h ↦ ?_, fun h ↦ absurd h.1 hp⟩
    have hopen : (transfer setup inputBin).run rs =
        ⟨.raise (.serialException "could not open port /dev/ttyACM0"), rs, []⟩ := by
      rw [transfer, connect, openProtocol, if_neg hp]
      rfl
    have hc : Caught ((transfer setup inputBin).run rs).outcome := by
      rw [hopen]
      exact caught_raise.mpr (List.cons_ne_nil _ _)
    have hr := (run_espFlash_caught hfile htb hc).1
    rw [h.returns, cleanUp, if_neg hp] at hr
    cases hr

def cutReads : Line := brokenReads ++ [none, none]

theorem ends_cleanly_iff_cut :
    (∃ n, ((espFlash twoBytes).run (cutReads ++ List.replicate n none)).outcome ≠ .blocked) ∧
    (EndsCleanly twoBytes [0xC0, 0x41] cutReads ↔
      ComesThrough twoBytes [0xC0, 0x41] cutReads) := by
  have hb : ((espFlash twoBytes).run cutReads).outcome ≠ .blocked := by decide +kernel
  obtain ⟨hends, hiff⟩ := @ends_cleanly_iff twoBytes [0xC0, 0x41] rfl cutReads
  exact ⟨hends, hiff hb⟩

def unplugged : Setup := ⟨"image.bin", some [], [], false⟩

/-- When the port does not open, the clean-up raises an error of its own. -/
theorem cleanUp_escapes : ¬ ∀ (setup : Setup) (inputBin : Bytes) (rs : Line),
    setup.contents = some inputBin → ((espFlash setup).run rs).outcome ≠ .blocked →
    EndsCleanly setup inputBin rs := by
  intro h
  have ho : ((espFlash unplugged).run []).outcome = .raise (.unboundLocalError "protocol") := by
    decide +kernel
  have hr := (h unplugged [] [] rfl (by rw [ho]; exact fun hb ↦ by cases hb)).returns
  rw [ho] at hr
  cases hr

end Esp32c6Fw.Espctl
