import Esp32c6Fw.Espctl.Framing

namespace Esp32c6Fw.Espctl

open Script Struct Framing

def Event.isTalk : Event → Bool
  | .request _ | .response _ _ => true
  | _ => false

def talk (log : List Event) : List Event := log.filter Event.isTalk

@[simp] theorem talk_append (l l' : List Event) : talk (l ++ l') = talk l ++ talk l' :=
  List.filter_append ..

/-- Neither a request or response nor a byte on the line. -/
def Event.Quiet : Event → Prop
  | .request _ | .response _ _ | .write _ => False
  | _ => True

theorem talk_quiet {l : List Event} (h : ∀ e ∈ l, e.Quiet) : talk l = [] := by
  rw [talk, List.filter_eq_nil_iff]
  intro e he
  have hq := h e he
  cases e <;> simp_all [Event.Quiet, Event.isTalk]

theorem written_quiet {l : List Event} (h : ∀ e ∈ l, e.Quiet) : written l = [] := by
  rw [written, List.flatMap_eq_nil_iff]
  intro e he
  have hq := h e he
  cases e <;> simp_all [Event.Quiet]

theorem quiet_print (line : String) : LogAll Event.Quiet (print line) := logAll_emit trivial

theorem quiet_readline : LogAll Event.Quiet readline := by
  refine logAll_loop (fun line ↦ logAll_read.bind fun r ↦ ?_) []
  cases r with
  | none => exact logAll_pure _
  | some b => by_cases hb : b = 0x0A <;> simp only [hb, if_true, if_false] <;> exact logAll_pure _

theorem quiet_flush : LogAll Event.Quiet flush := by
  refine logAll_loop (fun _ ↦ quiet_readline.bind fun line ↦ ?_) ()
  by_cases hl : line = [] <;> simp only [hl, if_true, if_false] <;> exact logAll_pure _

theorem quiet_reset : LogAll Event.Quiet reset :=
  (quiet_print _).bind fun _ ↦ (logAll_emit trivial).bind fun _ ↦ (logAll_emit trivial).bind fun _ ↦
    quiet_flush.bind fun _ ↦ (logAll_emit trivial).bind fun _ ↦ (logAll_emit trivial).bind fun _ ↦
    logAll_emit trivial

theorem quiet_cleanUp (setup : Setup) : LogAll Event.Quiet (cleanUp setup) := by
  unfold cleanUp
  split
  · exact quiet_reset.bind fun _ ↦ quiet_flush
  · exact logAll_raise _

theorem quiet_report (x : Error) : LogAll Event.Quiet (report x) := by
  cases x with
  | serialException | serialTimeout | valueError => exact quiet_print _
  | _ => exact logAll_raise _

theorem quiet_openProtocol (setup : Setup) (port : String) :
    LogAll Event.Quiet (openProtocol setup port) := by
  unfold openProtocol
  split
  · exact logAll_pure _
  · exact logAll_raise _

theorem quiet_emit_bind {α : Type} {e : Event} {p : Host α} (h : e.Quiet)
    (hp : LogAll Event.Quiet p) : LogAll Event.Quiet (emit e >>= fun _ ↦ p) :=
  (logAll_emit h).bind fun _ ↦ hp

theorem quiet_enterDownloadMode (usb : Bool) : LogAll Event.Quiet (enterDownloadMode usb) := by
  apply (quiet_print _).bind
  intro _
  have hd (level : Bool) : (Event.dtr level).Quiet := trivial
  have hr (level : Bool) : (Event.rts level).Quiet := trivial
  have hs (ms : ℕ) : (Event.sleep ms).Quiet := trivial
  split
  · iterate 11 refine quiet_emit_bind (by first | exact hd _ | exact hr _ | exact hs _) ?_
    exact logAll_emit (hr false)
  · iterate 8 refine quiet_emit_bind (by first | exact hd _ | exact hr _ | exact hs _) ?_
    exact logAll_emit (hd false)

def Event.OfSync : Event → Prop
  | .request c => c.cmd = romCommandSync
  | .response cmd _ => cmd = romCommandSync
  | _ => True

theorem Event.Quiet.ofSync {e : Event} (h : e.Quiet) : e.OfSync := by
  cases e with
  | request | response => exact h.elim
  | _ => trivial

theorem LogAll.ofSync {α : Type} {p : Host α} (h : LogAll Event.Quiet p) :
    LogAll Event.OfSync p := fun l e he ↦ (h l e he).ofSync

variable {c : Command} {rs : List (Option UInt8)}

theorem received_log {cmd : ℕ} {r : Result (Option UInt8) Error Event (Option Bytes)}
    (h : Received cmd r) : ∀ e ∈ r.log, ∃ p, e = .response cmd p := by
  cases h with
  | timeout | packet => simp
  | raised | blocked => simp

theorem ofSync_recvResponse : LogAll Event.OfSync (recvResponse romCommandSync) := by
  intro l e he
  obtain ⟨p, rfl⟩ := received_log (received romCommandSync l) e he
  exact rfl

theorem logAll_ofExcept {α : Type} {P : Event → Prop} (x : Except Error α) :
    LogAll P (ofExcept x) := by
  cases x with
  | ok a => exact logAll_pure a
  | error e => exact logAll_raise e

theorem ofSync_sendCommand (h : c.cmd = romCommandSync) :
    LogAll Event.OfSync (sendCommand c) := by
  have hr : LogAll Event.OfSync (emit (.request c) : Host Unit) := logAll_emit h
  have hw (bs : Bytes) : LogAll Event.OfSync (emit (.write bs) : Host Unit) := logAll_emit trivial
  exact (logAll_ofExcept _).bind fun _ ↦ hr.bind fun _ ↦ (hw _).bind fun _ ↦
    (hw _).bind fun _ ↦ hw _

theorem ofSync_syncDrain : LogAll Event.OfSync syncDrain := by
  refine logAll_loop (fun _ ↦ ofSync_recvResponse.bind fun r ↦ ?_) ()
  cases r <;> exact logAll_pure _

theorem ofSync_syncTurn : LogAll Event.OfSync syncTurn := by
  refine LogAll.bind (LogAll.attempt ?_) (fun r ↦ ?_)
  · refine (ofSync_sendCommand rfl).bind fun _ ↦ ofSync_recvResponse.bind fun r ↦ ?_
    cases r with
    | none => exact logAll_pure _
    | some resp =>
      refine (logAll_ofExcept _).bind fun status ↦ (logAll_ofExcept _).bind fun error ↦ ?_
      by_cases hs : status ≠ 0
      · rw [if_pos hs]
        exact (LogAll.ofSync (quiet_print _)).bind fun _ ↦ logAll_pure _
      · rw [if_neg hs]
        exact ofSync_syncDrain.bind fun _ ↦ logAll_pure _
  · cases r with
    | ok b => exact logAll_pure b
    | error x => exact logAll_raise _

theorem ofSync_syncTurns (n : ℕ) : LogAll Event.OfSync (syncTurns n) := by
  induction n with
  | zero => exact logAll_raise _
  | succ n ih =>
    apply ofSync_syncTurn.bind
    intro b
    cases b with
    | true => exact logAll_pure _
    | false => exact ih

theorem ofSync_sync : LogAll Event.OfSync sync :=
  (LogAll.ofSync (quiet_print _)).bind fun _ ↦ ofSync_syncTurns 10

theorem ofSync_connect (setup : Setup) : LogAll Event.OfSync (connect setup) :=
  (LogAll.ofSync (quiet_openProtocol setup _)).bind fun usb ↦
    (LogAll.ofSync (quiet_enterDownloadMode usb)).bind fun _ ↦
    (LogAll.ofSync quiet_flush).bind fun _ ↦ ofSync_sync.bind fun _ ↦ logAll_pure _

/-- `x` comes from sending `c`, framed, and then receiving `r`. -/
structure Asks {α : Type} (c : Command)
    (r : Result (Option UInt8) Error Event (Option Bytes))
    (x : Result (Option UInt8) Error Event α) : Prop where
  rest : x.rest = r.rest
  asked : talk x.log = .request c :: r.log
  sent : written x.log = enclose slipEnd [slipEncode c.packet]
  order : ∃ pre post, x.log = pre ++ (r.log ++ post) ∧ talk pre = [.request c] ∧
    ∀ e ∈ post, e.Quiet

theorem talk_received {cmd : ℕ} {r : Result (Option UInt8) Error Event (Option Bytes)}
    (h : Received cmd r) : talk r.log = r.log := by
  cases h <;> rfl

theorem written_received {cmd : ℕ} {r : Result (Option UInt8) Error Event (Option Bytes)}
    (h : Received cmd r) : written r.log = [] := by
  cases h <;> rfl

theorem run_exchange (name : String) (h : c.Fits) {wait : Host Unit} {w : List Event}
    (hwait : wait.run rs = ⟨.ok (), rs, w⟩) :
    ∃ q, (∀ e ∈ q, e.Quiet) ∧ (exchange name c wait).run rs =
      ⟨((recvResponse c.cmd).run rs).outcome, ((recvResponse c.cmd).run rs).rest,
        [.request c, .write [slipEnd], .write (slipEncode c.packet), .write [slipEnd]] ++
          (w ++ (((recvResponse c.cmd).run rs).log ++ q))⟩ := by
  simp only [exchange, run_bind, run_sendCommand h, hwait, Result.ok_bind]
  generalize (recvResponse c.cmd).run rs = r
  obtain ⟨o, l, e⟩ := r
  cases o with
  | ok resp =>
    by_cases hn : resp = none
    · refine ⟨[.print s!"{name} TIMEOUT"], by simp [Event.Quiet], ?_⟩
      simp [hn]
    · refine ⟨[], by simp, ?_⟩
      simp [hn]
  | raise x | blocked => exact ⟨[], by simp, by simp⟩

theorem exchange_asks (name : String) (h : c.Fits) {wait : Host Unit} {w : List Event}
    (hwait : wait.run rs = ⟨.ok (), rs, w⟩) (hw : ∀ e ∈ w, e.Quiet) :
    Asks c ((recvResponse c.cmd).run rs) ((exchange name c wait).run rs) ∧
    ((exchange name c wait).run rs).outcome = ((recvResponse c.cmd).run rs).outcome := by
  obtain ⟨q, hq, hx⟩ := run_exchange name h hwait
  have hr := received c.cmd rs
  rw [hx]
  refine ⟨⟨rfl, ?_, ?_, ?_⟩, rfl⟩
  · simp only [talk_append, talk_quiet hw, talk_quiet hq, talk_received hr, List.append_nil,
      List.nil_append]
    rfl
  · simp only [written_append, written_quiet hw, written_quiet hq, written_received hr,
      List.append_nil]
    simp [written, enclose]
  · refine ⟨_ ++ w, q, (List.append_assoc ..).symm, ?_, hq⟩
    rw [talk_append, talk_quiet hw]
    rfl

theorem method_asks {α : Type} (line name : String) (h : c.Fits) {wait : Host Unit}
    {w : List Event} (hwait : wait.run rs = ⟨.ok (), rs, w⟩) (hw : ∀ e ∈ w, e.Quiet)
    {f : Option Bytes → Host α} {o : Option Bytes → Outcome Error α}
    (hf : ∀ resp l, ∃ q, (f resp).run l = ⟨o resp, l, q⟩ ∧ ∀ e ∈ q, e.Quiet) :
    Asks c ((recvResponse c.cmd).run rs)
      ((print line >>= fun _ ↦ exchange name c wait >>= f).run rs) ∧
    ((print line >>= fun _ ↦ exchange name c wait >>= f).run rs).outcome =
      ((recvResponse c.cmd).run rs).outcome.bind o := by
  obtain ⟨⟨h₁, h₂, h₃, pre, post, h₄, h₅, h₆⟩, ho⟩ := exchange_asks name h hwait hw
  generalize (recvResponse c.cmd).run rs = r at h₁ h₂ h₄ ho ⊢
  simp only [run_bind, run_print, Result.ok_bind]
  generalize (exchange name c wait).run rs = x at h₁ h₂ h₃ h₄ ho ⊢
  obtain ⟨o', l, e⟩ := x
  have hq : ∀ e ∈ [Event.print line], e.Quiet := by simp [Event.Quiet]
  have hpre : talk ([Event.print line] ++ pre) = [.request c] := by
    rw [talk_append, talk_quiet hq, h₅]
    rfl
  simp only at h₁ h₂ h₃ h₄ ho
  rw [← ho]
  cases o' with
  | ok resp =>
    obtain ⟨q, hfq, hq'⟩ := hf resp l
    rw [Result.ok_bind, hfq]
    refine ⟨⟨h₁, ?_, ?_, _, post ++ q, ?_, hpre, ?_⟩, rfl⟩
    · rw [talk_append, talk_append, talk_quiet hq, talk_quiet hq', h₂]
      simp
    · rw [written_append, written_append, written_quiet hq, written_quiet hq', h₃]
      simp
    · rw [h₄]
      simp
    · intro e he
      rcases List.mem_append.mp he with he | he
      · exact h₆ e he
      · exact hq' e he
  | raise x | blocked =>
    refine ⟨⟨h₁, ?_, ?_, _, post, ?_, hpre, h₆⟩, rfl⟩
    · rw [talk_append, talk_quiet hq]
      exact h₂
    · rw [written_append, written_quiet hq]
      exact h₃
    · rw [List.append_assoc, ← h₄]
      rfl

def attachCommand : Command := ⟨romCommandSpiAttach, bytes [(4, 0), (4, 0)], 0⟩

def beginFields (totalSize : ℕ) : List (ℕ × ℕ) :=
  [(4, totalSize), (4, nrBlocks totalSize), (4, maxBlockSize), (4, 0x0), (4, 0)]

def beginCommand (totalSize : ℕ) : Command :=
  ⟨romCommandFlashBegin, bytes (beginFields totalSize), 0⟩

def dataFields (seq : ℕ) : List (ℕ × ℕ) := [(4, maxBlockSize), (4, seq), (4, 0), (4, 0)]

def dataCommand (seq : ℕ) (payload : Bytes) : Command :=
  ⟨romCommandFlashData, bytes (dataFields seq) ++ payload, calculateChecksum payload⟩

def endCommand : Command := ⟨romCommandFlashEnd, bytes [(4, 0x01)], 0⟩

theorem calculateChecksum_le (data : Bytes) : calculateChecksum data ≤ 0xFF := Nat.and_le_right

theorem attachCommand_fits : attachCommand.Fits := ⟨by decide, by decide, by decide⟩

theorem beginCommand_fits (totalSize : ℕ) : (beginCommand totalSize).Fits where
  cmd := show romCommandFlashBegin < 256 by decide
  data := by
    rw [beginCommand, length_bytes]
    exact show [4, 4, 4, 4, 4].sum ≤ 65535 by decide
  checksum := show 0 < 2 ^ 32 by decide

theorem dataCommand_fits (seq : ℕ) {payload : Bytes} (hp : payload.length = maxBlockSize) :
    (dataCommand seq payload).Fits where
  cmd := show romCommandFlashData < 256 by decide
  data := by
    rw [dataCommand, List.length_append, length_bytes, hp]
    exact show [4, 4, 4, 4].sum + maxBlockSize ≤ 65535 by decide
  checksum := by
    have hc := calculateChecksum_le payload
    exact lt_of_le_of_lt hc (by decide)

theorem endCommand_fits : endCommand.Fits := ⟨by decide, by decide, by decide⟩

def attachOutcome : Option Bytes → Outcome Error Bool
  | none => .ok false
  | some resp =>
    match resp[8]?, resp[9]? with
    | some status, some _ => .ok (status = 0)
    | _, _ => .raise .indexError

/-- The step that the methods share: the status decides, and an error is printed with its code. -/
theorem status_run {name : String} {success : Host Unit} {s : List Event}
    (hs : ∀ l, success.run l = ⟨.ok (), l, s⟩) (hq : ∀ e ∈ s, e.Quiet) (resp : Bytes)
    (l : List (Option UInt8)) : ∃ q,
      (do let status ← ofExcept (index resp 8)
          let error ← ofExcept (index resp 9)
          if status ≠ 0 then
            print s!"{name} ERROR CODE: {error.toNat}"
            return false
          success
          return true : Host Bool).run l = ⟨attachOutcome (some resp), l, q⟩ ∧
        ∀ e ∈ q, e.Quiet := by
  simp only [attachOutcome, index]
  cases h₈ : resp[8]? with
  | none => exact ⟨[], rfl, by simp⟩
  | some status =>
    cases h₉ : resp[9]? with
    | none => exact ⟨[], rfl, by simp⟩
    | some error =>
      by_cases h : status = 0
      · exact ⟨s, by simp [h, hs], hq⟩
      · exact ⟨[.print s!"{name} ERROR CODE: {error.toNat}"], by simp [h], by simp [Event.Quiet]⟩

theorem attachOutcome_run (resp : Option Bytes) (l : List (Option UInt8)) :
    ∃ q, (spiAttachStatus resp).run l = ⟨attachOutcome resp, l, q⟩ ∧ ∀ e ∈ q, e.Quiet := by
  have hpure (l : List (Option UInt8)) : (pure () : Host Unit).run l = ⟨.ok (), l, []⟩ := rfl
  cases resp with
  | none => exact ⟨[], rfl, by simp⟩
  | some resp => exact @status_run "SPI_ATTACH" (pure ()) [] hpure (by simp) resp l

theorem structPack_bytes {fields : List (ℕ × ℕ)} (h : ∀ f ∈ fields, f.2 < 256 ^ f.1) :
    structPack fields = .ok (bytes fields) := by
  rw [structPack, pack_eq_some h]

theorem ofExcept_ok_bind {α β : Type} (a : α) (f : α → Host β) :
    (ofExcept (.ok a) >>= f) = f a := pure_bind a f

theorem spiAttach_eq : spiAttach 0 = print "[ESPCTL] SPI_ATTACH" >>= fun _ ↦
    exchange "SPI_ATTACH" attachCommand (return ()) >>= spiAttachStatus := by
  rw [spiAttach, structPack_bytes (by decide)]
  simp only [ofExcept_ok_bind]
  rfl

theorem spiAttach_asks (rs : List (Option UInt8)) :
    Asks attachCommand ((recvResponse romCommandSpiAttach).run rs) ((spiAttach 0).run rs) ∧
    ((spiAttach 0).run rs).outcome =
      ((recvResponse romCommandSpiAttach).run rs).outcome.bind attachOutcome := by
  rw [spiAttach_eq]
  exact method_asks _ _ attachCommand_fits (run_pure _) (by simp) attachOutcome_run

theorem nrBlocks_le (totalSize : ℕ) : nrBlocks totalSize ≤ totalSize := by
  unfold nrBlocks maxBlockSize
  omega

theorem beginFields_fit {totalSize : ℕ} (h : totalSize < 2 ^ 32) :
    ∀ f ∈ beginFields totalSize, f.2 < 256 ^ f.1 := by
  have hn := nrBlocks_le totalSize
  simp only [beginFields, List.forall_mem_cons, List.not_mem_nil, false_implies, implies_true,
    and_true, maxBlockSize]
  omega

theorem dataFields_fit {seq : ℕ} (h : seq < 2 ^ 32) : ∀ f ∈ dataFields seq, f.2 < 256 ^ f.1 := by
  simp only [dataFields, List.forall_mem_cons, List.not_mem_nil, false_implies, implies_true,
    and_true, maxBlockSize]
  omega

theorem flashBegin_eq {totalSize : ℕ} (h : totalSize < 2 ^ 32) :
    flashBegin totalSize (nrBlocks totalSize) maxBlockSize 0x0 0 =
      print "[ESPCTL] FLASH_BEGIN" >>= fun _ ↦
        exchange "FLASH_BEGIN" (beginCommand totalSize)
          (emit (.sleep (10 * nrBlocks totalSize))) >>= fun resp ↦ return resp.isSome := by
  have hp := structPack_bytes (beginFields_fit h)
  rw [beginFields] at hp
  rw [flashBegin, hp]
  simp only [ofExcept_ok_bind]
  rfl

theorem flashBegin_asks {totalSize : ℕ} (h : totalSize < 2 ^ 32) (rs : List (Option UInt8)) :
    Asks (beginCommand totalSize) ((recvResponse romCommandFlashBegin).run rs)
      ((flashBegin totalSize (nrBlocks totalSize) maxBlockSize 0x0 0).run rs) ∧
    ((flashBegin totalSize (nrBlocks totalSize) maxBlockSize 0x0 0).run rs).outcome =
      ((recvResponse romCommandFlashBegin).run rs).outcome.bind fun resp ↦ .ok resp.isSome := by
  rw [flashBegin_eq h]
  exact method_asks _ _ (beginCommand_fits totalSize) (run_emit _) (by simp [Event.Quiet])
    (fun resp l ↦ ⟨[], rfl, by simp⟩)

theorem flashData_eq {seq : ℕ} (payload : Bytes) (h : seq < 2 ^ 32) :
    flashData maxBlockSize seq payload = print "[ESPCTL] FLASH_DATA" >>= fun _ ↦
      exchange "FLASH_DATA" (dataCommand seq payload) (return ()) >>= fun resp ↦
        return resp.isSome := by
  have hp := structPack_bytes (dataFields_fit h)
  rw [dataFields] at hp
  rw [flashData, hp]
  simp only [ofExcept_ok_bind]
  rfl

theorem flashData_asks {seq : ℕ} {payload : Bytes} (hseq : seq < 2 ^ 32)
    (hp : payload.length = maxBlockSize) (rs : List (Option UInt8)) :
    Asks (dataCommand seq payload) ((recvResponse romCommandFlashData).run rs)
      ((flashData maxBlockSize seq payload).run rs) ∧
    ((flashData maxBlockSize seq payload).run rs).outcome =
      ((recvResponse romCommandFlashData).run rs).outcome.bind fun resp ↦ .ok resp.isSome := by
  rw [flashData_eq payload hseq]
  exact method_asks _ _ (dataCommand_fits seq hp) (run_pure _) (by simp)
    (fun resp l ↦ ⟨[], rfl, by simp⟩)

theorem flashEnd_eq : flashEnd true = print "[ESPCTL] FLASH_END" >>= fun _ ↦
    exchange "FLASH_END" endCommand (return ()) >>= fun resp ↦ return resp.isSome := by
  rw [flashEnd]
  simp only [if_true]
  rw [structPack_bytes (by decide)]
  simp only [ofExcept_ok_bind]
  rfl

theorem flashEnd_asks (rs : List (Option UInt8)) :
    Asks endCommand ((recvResponse romCommandFlashEnd).run rs) ((flashEnd true).run rs) ∧
    ((flashEnd true).run rs).outcome =
      ((recvResponse romCommandFlashEnd).run rs).outcome.bind fun resp ↦ .ok resp.isSome := by
  rw [flashEnd_eq]
  exact method_asks _ _ endCommand_fits (run_pure _) (by simp) (fun resp l ↦ ⟨[], rfl, by simp⟩)

section Sequence

variable {α β : Type} {r : Result (Option UInt8) Error Event (Option Bytes)}
  {x : Result (Option UInt8) Error Event α} {k : Host β}

theorem Asks.next (hx : Asks c r x) {a : α} (ho : x.outcome = .ok a) :
    (x.bind fun _ ↦ k.run).outcome = (k.run r.rest).outcome ∧
    (x.bind fun _ ↦ k.run).rest = (k.run r.rest).rest ∧
    talk (x.bind fun _ ↦ k.run).log = .request c :: (r.log ++ talk (k.run r.rest).log) ∧
    written (x.bind fun _ ↦ k.run).log =
      enclose slipEnd [slipEncode c.packet] ++ written (k.run r.rest).log := by
  obtain ⟨h₁, h₂, h₃, -⟩ := hx
  obtain ⟨o, l, e⟩ := x
  simp only at h₁ h₂ h₃ ho
  rw [ho, ← h₁, Result.ok_bind, talk_append, written_append, h₂, h₃]
  exact ⟨rfl, rfl, rfl, rfl⟩

theorem Asks.stop (hx : Asks c r x) (ho : ∀ a, x.outcome ≠ .ok a) :
    talk (x.bind fun _ ↦ k.run).log = .request c :: r.log ∧
    written (x.bind fun _ ↦ k.run).log = enclose slipEnd [slipEncode c.packet] := by
  obtain ⟨h₁, h₂, h₃, -⟩ := hx
  obtain ⟨o, l, e⟩ := x
  cases o with
  | ok a => exact absurd rfl (ho a)
  | raise y | blocked => exact ⟨h₂, h₃⟩

theorem Asks.head (hx : Asks c r x) : ∃ t, talk (x.bind fun _ ↦ k.run).log = .request c :: t := by
  by_cases ho : ∃ a, x.outcome = .ok a
  · obtain ⟨a, ho⟩ := ho
    obtain ⟨-, -, ht, -⟩ := hx.next (k := k) ho
    exact ⟨_, ht⟩
  · obtain ⟨ht, -⟩ := hx.stop (k := k) (fun a h ↦ ho ⟨a, h⟩)
    exact ⟨_, ht⟩

end Sequence

def block (inputBin : Bytes) : Bytes :=
  inputBin.take maxBlockSize ++
    List.replicate (maxBlockSize - (inputBin.take maxBlockSize).length) 0xFF

theorem length_block (inputBin : Bytes) : (block inputBin).length = maxBlockSize := by
  have h := List.length_take_le maxBlockSize inputBin
  rw [block, List.length_append, List.length_replicate]
  omega

def flashTail (seq left : ℕ) (inputBin : Bytes) : Host Unit :=
  flashBlocks maxBlockSize seq left inputBin >>= fun _ ↦ flashEnd true >>= fun _ ↦ return ()

theorem flashTail_zero (seq : ℕ) (inputBin : Bytes) : flashTail seq 0 inputBin =
    flashEnd true >>= fun _ ↦ return () := pure_bind _ _

theorem flashTail_succ (seq left : ℕ) (inputBin : Bytes) :
    flashTail seq (left + 1) inputBin = flashData maxBlockSize seq (block inputBin) >>= fun _ ↦
      flashTail (seq + 1) left (inputBin.drop maxBlockSize) := by
  rw [flashTail, flashBlocks, bind_assoc]
  rfl

theorem flashImage_eq (inputBin : Bytes) : flashImage inputBin =
    flashBegin inputBin.length (nrBlocks inputBin.length) maxBlockSize 0x0 0 >>= fun _ ↦
      flashTail 0 (nrBlocks inputBin.length) inputBin := rfl

theorem run_flashImage_huge {inputBin : Bytes} (h : 2 ^ 32 ≤ inputBin.length)
    (rs : List (Option UInt8)) : (flashImage inputBin).run rs =
      ⟨.raise .structError, rs, [.print "[ESPCTL] FLASH_BEGIN"]⟩ := by
  have hp : structPack [(4, inputBin.length), (4, nrBlocks inputBin.length), (4, maxBlockSize),
      (4, 0x0), (4, 0)] = .error .structError := by
    rw [structPack, pack_eq_none (List.mem_cons_self ..) h]
  rw [flashImage_eq, flashBegin, hp]
  rfl

theorem espFlash_log {setup : Setup} {inputBin : Bytes} (h : setup.contents = some inputBin)
    (rs : List (Option UInt8)) : ∃ tail, (∀ e ∈ tail, e.Quiet) ∧
      ((espFlash setup).run rs).log = ((transfer setup inputBin).run rs).log ++ tail := by
  obtain ⟨tail, ht, hq⟩ := log_tryFinally (p := transfer setup inputBin) quiet_report
    (quiet_cleanUp setup) rs
  rw [espFlash, h]
  exact ⟨tail, hq, ht⟩

def ack (cmd : UInt8) : Bytes := [1, cmd, 2, 0, 0, 0, 0, 0, 0, 0]

def ackReads (cmd : UInt8) : List (Option UInt8) :=
  (enclose slipEnd [slipEncode (ack cmd)]).map some

/-- The device breaks off in its answer to FLASH_BEGIN. -/
def brokenReads : List (Option UInt8) :=
  none :: ackReads 0x08 ++ none :: ackReads 0x0D ++ [some slipEnd, some 0x01, none]

def twoBytes : Setup := ⟨"image.bin", some [0xC0, 0x41], [], true⟩

end Esp32c6Fw.Espctl
