import Esp32c6Fw.Espctl.Connect
import Esp32c6Fw.Espctl.Matching
import Esp32c6Fw.Espctl.Transfer
import Esp32c6Fw.Lib.Trace

namespace Esp32c6Fw.Espctl

open Script Struct Framing

def Event.isSent : Event → Bool
  | .request _ | .write _ => true
  | _ => false

def sending (c : Command) : List Event :=
  [.request c, .write [slipEnd], .write (slipEncode c.packet), .write [slipEnd]]

def syncCommand : Command := ⟨romCommandSync, syncData, 0⟩

/-- The commands after `sync`. The size of a larger image does not fit FLASH_BEGIN. -/
def flashCommands (inputBin : Bytes) : List Command :=
  attachCommand :: if inputBin.length < 2 ^ 32 then
    beginCommand inputBin.length :: tailCommands 0 (nrBlocks inputBin.length) inputBin
  else []

/-- What a device that keeps the payload of every FLASH_DATA request holds. -/
def stored (requests : List (Option Request)) : Bytes :=
  requests.flatMap fun
    | some r => if r.cmd = romCommandFlashData then r.payload else []
    | none => []

section Speech

variable {α : Type} {c : Command} {cs : List Command} {p : Host α}

theorem LogAll.silent (hp : LogAll Event.Quiet p) : LogAll (fun e ↦ e.isSent = false) p := by
  intro l e he
  have hq := hp l e he
  cases e with
  | request | write => exact hq.elim
  | _ => rfl

theorem silent_print (line : String) : LogAll (fun e ↦ e.isSent = false) (print line) :=
  LogAll.silent (quiet_print line)

theorem silent_recvResponse (cmd : ℕ) :
    LogAll (fun e ↦ e.isSent = false) (recvResponse cmd) := by
  intro l e he
  obtain ⟨resp, rfl⟩ := received_log (received cmd l) e he
  rfl

theorem silent_syncDrain : LogAll (fun e ↦ e.isSent = false) syncDrain := by
  refine logAll_loop (fun _ ↦ (silent_recvResponse _).bind fun resp ↦ ?_) ()
  cases resp <;> exact logAll_pure _

theorem speaks_sendCommand (h : c.Fits) :
    Speaks Event.isSent {sending c} (sendCommand c) := by
  intro l
  have hs : ((sendCommand c).run l).log.filter Event.isSent = sending c := by
    rw [run_sendCommand h]
    rfl
  refine ⟨_, rfl, ?_, fun _ _ ↦ hs⟩
  rw [hs]

theorem speaks_exchange (name : String) (h : c.Fits) {wait : Host Unit}
    (hw : LogAll (fun e ↦ e.isSent = false) wait) :
    Speaks Event.isSent {sending c} (exchange name c wait) := by
  apply (speaks_sendCommand h).bind_silent
  intro _
  apply hw.bind
  intro _
  apply (silent_recvResponse _).bind
  intro resp
  by_cases hn : resp = none
  · simp only [hn, if_true]
    exact (silent_print _).bind fun _ ↦ logAll_pure _
  · simp only [hn, if_false]
    exact logAll_pure _

/-- A method says its command, whatever it makes of the response. -/
theorem speaks_method (line name : String) (h : c.Fits) {wait : Host Unit}
    (hw : LogAll (fun e ↦ e.isSent = false) wait) {f : Option Bytes → Host α}
    (hf : ∀ resp, LogAll (fun e ↦ e.isSent = false) (f resp)) :
    Speaks Event.isSent {sending c} (print line >>= fun _ ↦ exchange name c wait >>= f) := by
  apply Speaks.silent_bind (silent_print line)
  · intro _
    exact (speaks_exchange name h hw).bind_silent hf
  · exact ⟨_, rfl⟩

theorem silent_attachStatus (resp : Option Bytes) :
    LogAll (fun e ↦ e.isSent = false) (spiAttachStatus resp) := by
  cases resp with
  | none => exact logAll_pure _
  | some resp =>
    refine (logAll_ofExcept _).bind fun status ↦ (logAll_ofExcept _).bind fun error ↦ ?_
    by_cases hs : status ≠ 0
    · rw [if_pos hs]
      exact (silent_print _).bind fun _ ↦ logAll_pure _
    · rw [if_neg hs]
      exact logAll_pure _

theorem speaks_syncTurn : Speaks Event.isSent {sending syncCommand} syncTurn := by
  rw [syncTurn_eq]
  apply Speaks.reraise
  apply (speaks_sendCommand syncCommand_fits).bind_silent
  intro _
  apply (silent_recvResponse _).bind
  intro resp
  cases resp with
  | none => exact logAll_pure _
  | some resp =>
    refine (logAll_ofExcept _).bind fun status ↦ (logAll_ofExcept _).bind fun error ↦ ?_
    by_cases hs : status ≠ 0
    · rw [if_pos hs]
      exact (silent_print _).bind fun _ ↦ logAll_pure _
    · rw [if_neg hs]
      exact silent_syncDrain.bind fun _ ↦ logAll_pure _

theorem speaks_syncTurns (n : ℕ) :
    Speaks Event.isSent (upTo (sending syncCommand) n) (syncTurns n) := by
  induction n with
  | zero => exact speaks_raise (nil_mem_upTo _ 0) _
  | succ n ih =>
    refine Speaks.mono ?_ (mul_upTo_le _ n)
    apply speaks_syncTurn.bind
    · intro b
      cases b with
      | true => exact (speaks_pure _).mono (one_le_upTo _ n)
      | false => exact ih
    · exact ⟨[], nil_mem_upTo _ n⟩

theorem speaks_connect (setup : Setup) :
    Speaks Event.isSent (upTo (sending syncCommand) 10) (connect setup) := by
  have hw : ∃ w, w ∈ upTo (sending syncCommand) 10 := ⟨[], nil_mem_upTo _ 10⟩
  apply Speaks.silent_bind (LogAll.silent (quiet_openProtocol setup _)) _ hw
  intro usb
  apply Speaks.silent_bind (LogAll.silent (quiet_enterDownloadMode usb)) _ hw
  intro _
  apply Speaks.silent_bind (LogAll.silent quiet_flush) _ hw
  intro _
  apply Speaks.bind_silent
  · exact Speaks.silent_bind (silent_print _) (fun _ ↦ speaks_syncTurns 10) hw
  · exact fun _ ↦ logAll_pure _

theorem speaks_flashTail {seq left : ℕ} (h : seq + left ≤ 2 ^ 32) (inputBin : Bytes) :
    Speaks Event.isSent {(tailCommands seq left inputBin).flatMap sending}
      (flashTail seq left inputBin) := by
  induction left generalizing seq inputBin with
  | zero =>
    rw [flashTail_zero, flashEnd_eq]
    exact (speaks_method _ _ endCommand_fits (logAll_pure _) fun _ ↦ logAll_pure _).bind_silent
      fun _ ↦ logAll_pure _
  | succ left ih =>
    rw [flashTail_succ, flashData_eq _ (by omega), tailCommands_succ, List.flatMap_cons]
    apply Speaks.append
    · exact speaks_method _ _ (dataCommand_fits seq (length_block inputBin)) (logAll_pure _)
        fun _ ↦ logAll_pure _
    · exact fun _ ↦ ih (by omega) _

theorem speaks_attachAndFlash (inputBin : Bytes) :
    Speaks Event.isSent {(flashCommands inputBin).flatMap sending}
      (spiAttach 0 >>= fun _ ↦ flashImage inputBin) := by
  have ha : Speaks Event.isSent {sending attachCommand} (spiAttach 0) := by
    rw [spiAttach_eq]
    exact speaks_method _ _ attachCommand_fits (logAll_pure _) silent_attachStatus
  rw [flashCommands, List.flatMap_cons]
  apply ha.append
  intro _
  by_cases h : inputBin.length < 2 ^ 32
  · have hn := nrBlocks_le inputBin.length
    rw [if_pos h, List.flatMap_cons, flashImage_eq, flashBegin_eq h]
    apply Speaks.append
    · exact speaks_method _ _ (beginCommand_fits _) (logAll_emit rfl) fun _ ↦ logAll_pure _
    · exact fun _ ↦ speaks_flashTail (by omega) inputBin
  · rw [if_neg h, List.flatMap_nil]
    apply speaks_silent
    intro l e he
    rw [run_flashImage_huge (by omega)] at he
    rw [List.mem_singleton.mp he]
    rfl

/-- All that `esp_flash` sends is the start of some SYNC requests and then the
commands of the image. -/
theorem espFlash_sent {setup : Setup} {inputBin : Bytes}
    (hfile : setup.contents = some inputBin) (rs : List (Option UInt8)) :
    ∃ n ≤ 10, ((espFlash setup).run rs).log.filter Event.isSent <+:
      (List.replicate n syncCommand ++ flashCommands inputBin).flatMap sending := by
  obtain ⟨tail, hq, hlog⟩ := espFlash_log hfile rs
  have htail : tail.filter Event.isSent = [] := by
    apply List.filter_eq_nil_iff.mpr
    intro e he
    have hqe := hq e he
    cases e with
    | request | write => exact hqe.elim
    | _ => exact Bool.false_ne_true
  have hs : Speaks Event.isSent _ (transfer setup inputBin) :=
    (speaks_connect setup).bind (fun _ ↦ speaks_attachAndFlash inputBin) ⟨_, rfl⟩
  obtain ⟨w, hw, hpre, -⟩ := hs rs
  obtain ⟨u, ⟨n, hn, rfl⟩, v, rfl, rfl⟩ := Language.mem_mul.mp hw
  refine ⟨n, hn, ?_⟩
  rw [hlog, List.filter_append, htail, List.append_nil, List.flatMap_append, List.flatMap_def,
    List.map_replicate]
  exact hpre

end Speech

section Wire

variable {log log' : List Event} {cs : List Command}

theorem requests_sent (log : List Event) : requests (log.filter Event.isSent) = requests log := by
  rw [requests, List.filterMap_filter, requests]
  apply List.filterMap_congr
  intro e _
  cases e <;> rfl

theorem written_sent (log : List Event) : written (log.filter Event.isSent) = written log := by
  induction log with
  | nil => rfl
  | cons e log ih =>
    rw [← List.singleton_append, List.filter_append, written_append, written_append, ih]
    cases e <;> rfl

theorem requests_sending (cs : List Command) : requests (cs.flatMap sending) = cs := by
  induction cs with
  | nil => rfl
  | cons c cs ih =>
    rw [List.flatMap_cons, requests_append, ih]
    rfl

theorem written_sending (cs : List Command) :
    written (cs.flatMap sending) = enclose slipEnd (encoded cs) := by
  induction cs with
  | nil => rfl
  | cons c cs ih =>
    rw [List.flatMap_cons, written_append, ih]
    simp [sending, written, enclose, encoded]

theorem written_mono (h : log <+: log') : written log <+: written log' := by
  obtain ⟨t, rfl⟩ := h
  rw [written_append]
  exact List.prefix_append _ _

theorem stored_append (rs rs' : List (Option Request)) :
    stored (rs ++ rs') = stored rs ++ stored rs' := List.flatMap_append

theorem stored_cons (r : Option Request) (rs : List (Option Request)) :
    stored (r :: rs) = stored [r] ++ stored rs := stored_append [r] rs

theorem stored_other {r : Request} (h : r.cmd ≠ romCommandFlashData) : stored [some r] = [] := by
  simp [stored, h]

theorem stored_mapIdx {f : ℕ → Bytes → Option Request} (hf : ∀ i p, stored [f i p] = p)
    (payloads : List Bytes) : stored (payloads.mapIdx f) = payloads.flatten := by
  induction payloads generalizing f with
  | nil => rfl
  | cons payload payloads ih =>
    rw [List.mapIdx_cons, stored_cons, hf, ih fun i p ↦ hf (i + 1) p, List.flatten_cons]

theorem stored_transfers {image : Bytes} {rs : List (Option Request)} (h : Transfers image rs) :
    ∃ k < maxBlockSize, stored rs = image ++ List.replicate k 0xFF := by
  obtain ⟨payloads, k, hk, rfl, -, -, hflat⟩ := h
  refine ⟨k, hk, ?_⟩
  rw [List.cons_append, stored_cons, stored_append, stored_other, stored_other, List.append_nil,
    List.nil_append, stored_mapIdx, hflat]
  · intro seq payload
    simp [stored]
  · exact show romCommandFlashEnd ≠ romCommandFlashData by decide
  · exact show romCommandFlashBegin ≠ romCommandFlashData by decide

def storedAfter (cs : List Command) : Bytes := stored ((encoded cs).map unpackRequest)

theorem storedAfter_append (cs cs' : List Command) :
    storedAfter (cs ++ cs') = storedAfter cs ++ storedAfter cs' := by
  rw [storedAfter, encoded, List.map_append, List.map_append, stored_append]
  rfl

theorem storedAfter_sync (n : ℕ) : storedAfter (List.replicate n syncCommand) = [] := by
  have hu : unpackRequest (slipEncode syncCommand.packet) = some _ :=
    @unpackRequest_encoded _ syncCommand_fits [] syncData rfl rfl (by simp)
  have hone : storedAfter [syncCommand] = [] := by
    rw [storedAfter, encoded, List.map_singleton, List.map_singleton, hu]
    exact stored_other (show romCommandSync ≠ romCommandFlashData by decide)
  induction n with
  | zero => rfl
  | succ n ih => rw [List.replicate_succ, ← List.singleton_append, storedAfter_append, ih, hone,
      List.append_nil]

theorem storedAfter_attach : storedAfter [attachCommand] = [] := by
  have hu : unpackRequest (slipEncode attachCommand.packet) = some _ :=
    @unpackRequest_encoded _ attachCommand_fits [] attachCommand.data rfl rfl (by simp)
  rw [storedAfter, encoded, List.map_singleton, List.map_singleton, hu]
  exact stored_other (show romCommandSpiAttach ≠ romCommandFlashData by decide)

theorem storedAfter_end : storedAfter [endCommand] = [] := by
  rw [storedAfter, encoded, List.map_singleton, List.map_singleton, unpackRequest_end]
  exact stored_other (show romCommandFlashEnd ≠ romCommandFlashData by decide)

def blockCommands (n : ℕ) (inputBin : Bytes) : List Command :=
  List.replicate n syncCommand ++ attachCommand :: beginCommand inputBin.length ::
    (blocks (nrBlocks inputBin.length) inputBin).mapIdx fun i payload ↦ dataCommand (0 + i) payload

theorem flashCommands_of_lt {inputBin : Bytes} (h : inputBin.length < 2 ^ 32) (n : ℕ) :
    List.replicate n syncCommand ++ flashCommands inputBin =
      blockCommands n inputBin ++ [endCommand] := by
  rw [flashCommands, if_pos h, tailCommands, blockCommands, List.append_assoc]
  rfl

theorem end_notMem_blockCommands (n : ℕ) (inputBin : Bytes) :
    endCommand ∉ blockCommands n inputBin := by
  intro hm
  have hcmd {c : Command} (h : c.cmd ≠ romCommandFlashEnd) : endCommand ≠ c := by
    rintro rfl
    exact h rfl
  simp only [blockCommands, List.mem_append, List.mem_replicate, List.mem_cons,
    List.mem_mapIdx] at hm
  rcases hm with ⟨-, he⟩ | he | he | ⟨i, hi, he⟩
  · exact hcmd (show romCommandSync ≠ romCommandFlashEnd by decide) he
  · exact hcmd (show romCommandSpiAttach ≠ romCommandFlashEnd by decide) he
  · exact hcmd (show romCommandFlashBegin ≠ romCommandFlashEnd by decide) he
  · exact hcmd (show romCommandFlashData ≠ romCommandFlashEnd by decide) he.symm

theorem storedAfter_blockCommands {inputBin : Bytes} (h : inputBin.length < 2 ^ 32) (n : ℕ) :
    ∃ k < maxBlockSize,
      storedAfter (blockCommands n inputBin) = inputBin ++ List.replicate k 0xFF := by
  obtain ⟨k, hk, hs⟩ := stored_transfers (transfers_commands h)
  rw [← storedAfter] at hs
  have hcs : blockCommands n inputBin ++ [endCommand] =
      List.replicate n syncCommand ++ ([attachCommand] ++
        (beginCommand inputBin.length :: tailCommands 0 (nrBlocks inputBin.length) inputBin)) := by
    rw [← flashCommands_of_lt h, flashCommands, if_pos h, List.singleton_append]
  refine ⟨k, hk, ?_⟩
  calc storedAfter (blockCommands n inputBin)
      = storedAfter (blockCommands n inputBin ++ [endCommand]) := by
        rw [storedAfter_append, storedAfter_end, List.append_nil]
    _ = inputBin ++ List.replicate k 0xFF := by
        rw [hcs, storedAfter_append, storedAfter_append, storedAfter_sync, storedAfter_attach, hs,
          List.nil_append, List.nil_append]

/-- What comes before the first `x` is whole where `x` has come. -/
theorem prefix_of_mem {α : Type} {x : α} {l pre post : List α} (h : l <+: pre ++ post)
    (hx : x ∈ l) (hpre : x ∉ pre) : pre <+: l := by
  rcases List.prefix_or_prefix_of_prefix h (List.prefix_append pre post) with hl | hl
  · exact absurd (hl.subset hx) hpre
  · exact hl

variable {setup : Setup} {inputBin : Bytes}

def storedIn (log : List Event) : Bytes :=
  stored ((frames slipEnd (written log)).map unpackRequest)

theorem storedIn_mono (h : log <+: log') : storedIn log <+: storedIn log' :=
  ((frames_mono (written_mono h)).map unpackRequest).flatMap _

theorem storedIn_sent (log : List Event) : storedIn (log.filter Event.isSent) = storedIn log := by
  rw [storedIn, written_sent, storedIn]

theorem storedIn_sending (cs : List Command) : storedIn (cs.flatMap sending) = storedAfter cs := by
  rw [storedIn, written_sending, frames_enclose (slipEnd_notMem_encoded cs) (encoded_ne_nil cs),
    storedAfter]

theorem request_mem_sending {c : Command} (hc : .request c ∈ cs.flatMap sending) : c ∈ cs := by
  obtain ⟨c', hc', hm⟩ := List.mem_flatMap.mp hc
  have he : c = c' := by
    simpa [sending] using hm
  rwa [he]

theorem request_mem_sent {c : Command} (hc : c ∈ requests log) :
    .request c ∈ log.filter Event.isSent := by
  rw [← requests_sent] at hc
  obtain ⟨e, he, hec⟩ := List.mem_filterMap.mp hc
  cases e with
  | request c' =>
    cases hec
    exact he
  | _ => cases hec

theorem stored_image (hfile : setup.contents = some inputBin) (rs : List (Option UInt8)) :
    ∃ k < maxBlockSize,
      storedIn ((espFlash setup).run rs).log <+: inputBin ++ List.replicate k 0xFF ∧
      (endCommand ∈ requests ((espFlash setup).run rs).log →
        storedIn ((espFlash setup).run rs).log = inputBin ++ List.replicate k 0xFF) := by
  obtain ⟨n, -, hsent⟩ := espFlash_sent hfile rs
  generalize ((espFlash setup).run rs).log = log at hsent ⊢
  have hall := storedIn_mono hsent
  rw [storedIn_sent, storedIn_sending] at hall
  by_cases h : inputBin.length < 2 ^ 32
  · obtain ⟨k, hk, hs⟩ := storedAfter_blockCommands h n
    rw [flashCommands_of_lt h] at hsent hall
    rw [storedAfter_append, storedAfter_end, List.append_nil, hs] at hall
    refine ⟨k, hk, hall, fun hend ↦ ?_⟩
    rw [List.flatMap_append] at hsent
    have hpre := storedIn_mono (prefix_of_mem hsent (request_mem_sent hend)
      fun hm ↦ end_notMem_blockCommands n inputBin (request_mem_sending hm))
    rw [storedIn_sent, storedIn_sending, hs] at hpre
    exact hall.eq_of_length_le hpre.length_le
  · have hcs : flashCommands inputBin = [attachCommand] := by
      rw [flashCommands, if_neg h]
    rw [hcs] at hsent hall
    rw [storedAfter_append, storedAfter_sync, storedAfter_attach] at hall
    refine ⟨0, by decide, hall.trans List.nil_prefix, fun hend ↦ ?_⟩
    have hm := request_mem_sending (hsent.subset (request_mem_sent hend))
    rcases List.mem_append.mp hm with hm | hm
    · have hc := congrArg Command.cmd (List.eq_of_mem_replicate hm)
      exact absurd hc (show romCommandFlashEnd ≠ romCommandSync by decide)
    · have hc := congrArg Command.cmd (List.mem_singleton.mp hm)
      exact absurd hc (show romCommandFlashEnd ≠ romCommandSpiAttach by decide)

/-- Whatever the device does, and wherever `esp_flash` stops, it has sent the start of one
sequence of commands, in order and none twice. What it has written is the start of their
frames. A device that keeps the payloads holds the start of the image, and all of it
once FLASH_END has been sent. -/
theorem flash_sequence (hfile : setup.contents = some inputBin) (rs : List (Option UInt8)) :
    ∃ n ≤ 10, ∃ cs, cs = List.replicate n syncCommand ++ flashCommands inputBin ∧
      requests ((espFlash setup).run rs).log <+: cs ∧
      written ((espFlash setup).run rs).log <+: enclose slipEnd (encoded cs) ∧
      ∃ k < maxBlockSize,
        storedIn ((espFlash setup).run rs).log <+: inputBin ++ List.replicate k 0xFF ∧
        (endCommand ∈ requests ((espFlash setup).run rs).log →
          storedIn ((espFlash setup).run rs).log = inputBin ++ List.replicate k 0xFF) := by
  obtain ⟨n, hn, hsent⟩ := espFlash_sent hfile rs
  refine ⟨n, hn, _, rfl, ?_, ?_, stored_image hfile rs⟩
  · have hr : requests _ <+: requests _ := hsent.filterMap _
    rwa [requests_sent, requests_sending] at hr
  · have hw := written_mono hsent
    rwa [written_sent, written_sending] at hw

theorem flash_sequence_broken :
    ∃ n ≤ 10, ∃ cs, cs = List.replicate n syncCommand ++ flashCommands [0xC0, 0x41] ∧
      requests ((espFlash twoBytes).run brokenReads).log <+: cs ∧
      written ((espFlash twoBytes).run brokenReads).log <+: enclose slipEnd (encoded cs) ∧
      ∃ k < maxBlockSize, storedIn ((espFlash twoBytes).run brokenReads).log <+:
          [0xC0, 0x41] ++ List.replicate k 0xFF ∧
        (endCommand ∈ requests ((espFlash twoBytes).run brokenReads).log →
          storedIn ((espFlash twoBytes).run brokenReads).log =
            [0xC0, 0x41] ++ List.replicate k 0xFF) := flash_sequence rfl brokenReads

end Wire

end Esp32c6Fw.Espctl
