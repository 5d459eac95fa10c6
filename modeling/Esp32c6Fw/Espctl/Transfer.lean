import Esp32c6Fw.Espctl.Talk

namespace Esp32c6Fw.Espctl

open Script Struct Framing

/-- A packet read back: the header, the length of what follows it, the fields
of the command's own format, and the rest. -/
structure Request where
  dir : ℕ
  cmd : ℕ
  size : ℕ
  checksum : ℕ
  length : ℕ
  fields : List ℕ
  payload : Bytes
  deriving DecidableEq

def requestFormat (cmd : ℕ) : List ℕ :=
  if cmd = romCommandFlashBegin then [4, 4, 4, 4, 4]
  else if cmd = romCommandFlashData then [4, 4, 4, 4]
  else if cmd = romCommandFlashEnd then [4]
  else []

def unpackPacket (packet : Bytes) : Option Request :=
  match unpack [1, 1, 2, 4] (packet.take 8) with
  | some [dir, cmd, size, checksum] =>
    let body := packet.drop 8
    let format := requestFormat cmd
    (unpack format (body.take format.sum)).map fun fields ↦
      ⟨dir, cmd, size, checksum, body.length, fields, body.drop format.sum⟩
  | _ => none

def unpackRequest (frame : Bytes) : Option Request :=
  match slipDecode frame with
  | .ok packet => unpackPacket packet
  | .error _ => none

variable {c : Command}

theorem unpackRequest_encoded (hc : c.Fits) {fields : List (ℕ × ℕ)} {payload : Bytes}
    (hd : c.data = bytes fields ++ payload) (hfmt : requestFormat c.cmd = fields.map (·.1))
    (hf : ∀ f ∈ fields, f.2 < 256 ^ f.1) : unpackRequest (slipEncode c.packet) =
      some ⟨romDirectionRequest, c.cmd, c.data.length, c.checksum, c.data.length,
        fields.map (·.2), payload⟩ := by
  have hh : (bytes (romHdrFormatCommand romDirectionRequest c.cmd c.data.length
      c.checksum)).length = 8 := length_bytes _
  have hhdr : unpack [1, 1, 2, 4] (c.packet.take 8) =
      some [romDirectionRequest, c.cmd, c.data.length, c.checksum] := by
    rw [Command.packet, List.take_left' hh]
    exact unpack_bytes hc.fields
  have hbody : c.packet.drop 8 = c.data := by
    rw [Command.packet, List.drop_left' hh]
  have hl : (bytes fields).length = (requestFormat c.cmd).sum := by
    rw [length_bytes, hfmt]
  have hu : unpack (requestFormat c.cmd) (c.data.take (requestFormat c.cmd).sum) =
      some (fields.map (·.2)) := by
    rw [hd, List.take_left' hl, hfmt]
    exact unpack_bytes hf
  have hr : c.data.drop (requestFormat c.cmd).sum = payload := by
    rw [hd, List.drop_left' hl]
  simp only [unpackRequest, slipDecode_slipEncode, unpackPacket, hhdr, hbody, hu, hr,
    Option.map_some]

def xorAll (payload : Bytes) : UInt8 := payload.foldl (· ^^^ ·) 0xEF

theorem calculateChecksum_eq (payload : Bytes) :
    calculateChecksum payload = (xorAll payload).toNat := by
  have hfold (n : UInt8) : payload.foldl (fun checksum byte ↦ checksum ^^^ byte.toNat) n.toNat =
      (payload.foldl (· ^^^ ·) n).toNat := by
    induction payload generalizing n with
    | nil => rfl
    | cons b payload ih =>
      rw [List.foldl_cons, List.foldl_cons, ← ih, UInt8.toNat_xor]
  have hlt := (xorAll payload).toNat_lt
  have hf := hfold 0xEF
  rw [calculateChecksum, show (0xEF : ℕ) = (0xEF : UInt8).toNat from rfl, hf]
  exact Nat.and_two_pow_sub_one_of_lt_two_pow (n := 8) hlt

/-- The requests of a whole transfer: FLASH_BEGIN, the numbered blocks, FLASH_END.
The blocks hold the image and then less than a block of 0xFF. -/
def Transfers (image : Bytes) (requests : List (Option Request)) : Prop :=
  ∃ payloads : List Bytes, ∃ k < maxBlockSize,
    requests =
      some ⟨romDirectionRequest, romCommandFlashBegin, 20, 0, 20,
        [image.length, (image.length + 1023) / 1024, 1024, 0, 0], []⟩ ::
      (payloads.mapIdx fun seq payload ↦
        some ⟨romDirectionRequest, romCommandFlashData, 16 + payload.length,
          (xorAll payload).toNat, 16 + payload.length, [1024, seq, 0, 0], payload⟩) ++
      [some ⟨romDirectionRequest, romCommandFlashEnd, 4, 0, 4, [1], []⟩] ∧
    payloads.length = (image.length + 1023) / 1024 ∧
    (∀ payload ∈ payloads, payload.length = 1024) ∧
    payloads.flatten = image ++ List.replicate k 0xFF

def Acknowledged : List Event → Prop
  | [] => True
  | .request c :: t =>
    (c.cmd ≠ romCommandSync → ∃ p, t.head? = some (.response c.cmd (some p)) ∧
      10 ≤ p.length ∧ p[8]? = some 0) ∧ Acknowledged t
  | _ :: t => Acknowledged t

def Event.isAttachResponse : Event → Bool
  | .response cmd _ => cmd = romCommandSpiAttach
  | _ => false

def afterAttach (log : List Event) : List Event :=
  (log.dropWhile fun e ↦ !e.isAttachResponse).tail

def blocks : ℕ → Bytes → List Bytes
  | 0, _ => []
  | left + 1, inputBin => block inputBin :: blocks left (inputBin.drop maxBlockSize)

theorem length_blocks (left : ℕ) (inputBin : Bytes) : (blocks left inputBin).length = left := by
  induction left generalizing inputBin with
  | zero => rfl
  | succ left ih => rw [blocks, List.length_cons, ih]

theorem length_of_mem_blocks {left : ℕ} {inputBin payload : Bytes}
    (h : payload ∈ blocks left inputBin) : payload.length = maxBlockSize := by
  induction left generalizing inputBin with
  | zero => cases h
  | succ left ih =>
    rcases List.mem_cons.mp h with rfl | h
    · exact length_block inputBin
    · exact ih h

theorem flatten_blocks {left : ℕ} {inputBin : Bytes} (h : left = nrBlocks inputBin.length) :
    ∃ k < maxBlockSize, (blocks left inputBin).flatten = inputBin ++ List.replicate k 0xFF := by
  induction left generalizing inputBin with
  | zero =>
    have hz : inputBin = [] := by
      unfold nrBlocks maxBlockSize at h
      exact List.eq_nil_of_length_eq_zero (by omega)
    subst hz
    exact ⟨0, by decide, rfl⟩
  | succ left ih =>
    by_cases hs : inputBin.length ≤ maxBlockSize
    · have hl : left = 0 := by
        unfold nrBlocks maxBlockSize at h
        unfold maxBlockSize at hs
        omega
      have hp : 0 < inputBin.length := by
        unfold nrBlocks maxBlockSize at h
        omega
      subst hl
      refine ⟨maxBlockSize - inputBin.length, by omega, ?_⟩
      rw [blocks, blocks, block, List.take_of_length_le hs, List.flatten_cons, List.flatten_nil,
        List.append_nil]
    · have hd : left = nrBlocks (inputBin.drop maxBlockSize).length := by
        rw [List.length_drop]
        unfold nrBlocks maxBlockSize at h ⊢
        unfold maxBlockSize at hs
        omega
      obtain ⟨k, hk, hf⟩ := ih hd
      have ht : (inputBin.take maxBlockSize).length = maxBlockSize := by
        rw [List.length_take]
        omega
      refine ⟨k, hk, ?_⟩
      rw [blocks, List.flatten_cons, hf, block, ht, Nat.sub_self, List.replicate_zero,
        List.append_nil, ← List.append_assoc, List.take_append_drop]

def tailCommands (seq left : ℕ) (inputBin : Bytes) : List Command :=
  ((blocks left inputBin).mapIdx fun i payload ↦ dataCommand (seq + i) payload) ++ [endCommand]

theorem tailCommands_succ (seq left : ℕ) (inputBin : Bytes) :
    tailCommands seq (left + 1) inputBin = dataCommand seq (block inputBin) ::
      tailCommands (seq + 1) left (inputBin.drop maxBlockSize) := by
  have hf : (fun i payload ↦ dataCommand (seq + (i + 1)) payload) =
      fun i payload ↦ dataCommand (seq + 1 + i) payload := by
    funext i payload
    rw [Nat.add_assoc, Nat.add_comm 1 i]
  rw [tailCommands, blocks, List.mapIdx_cons, hf, tailCommands, List.cons_append, Nat.add_zero]

variable {rs : List (Option UInt8)} {t : List Event}
  {r : Result (Option UInt8) Error Event (Option Bytes)}

theorem acknowledged_received (hr : Received c.cmd r) :
    Acknowledged (r.log ++ t) ↔ Acknowledged t := by
  cases hr <;> rfl

theorem Acknowledged.of_append {pre : List Event} (h : Acknowledged (pre ++ t)) :
    Acknowledged t := by
  induction pre with
  | nil => exact h
  | cons e pre ih =>
    cases e with
    | request c => exact ih h.2
    | _ => exact ih h

theorem attachOutcome_ack {p : Bytes} (hl : 10 ≤ p.length) (hs : p[8]? = some 0) :
    ∃ b, attachOutcome (some p) = .ok b := by
  have h₉ : p[9]? = some p[9] := List.getElem?_eq_getElem (by omega)
  rw [attachOutcome, hs, h₉]
  exact ⟨_, rfl⟩

theorem acknowledged_method {x : Result (Option UInt8) Error Event Bool} {β : Type} {k : Host β}
    {o : Option Bytes → Outcome Error Bool} (hr : Received c.cmd r) (hx : Asks c r x)
    (hox : x.outcome = r.outcome.bind o) (hc : c.cmd ≠ romCommandSync)
    (ho : ∀ p : Bytes, 10 ≤ p.length → p[8]? = some 0 → ∃ b, o (some p) = .ok b)
    (h : Acknowledged (talk (x.bind fun _ ↦ k.run).log)) :
    (∃ b, x.outcome = .ok b) ∧ Acknowledged (talk (k.run r.rest).log) ∧
    (∃ p, r.log = [.response c.cmd (some p)]) ∧
    written (x.bind fun _ ↦ k.run).log =
      enclose slipEnd [slipEncode c.packet] ++ written (k.run r.rest).log := by
  by_cases hb : ∃ b, x.outcome = .ok b
  · obtain ⟨b, hb⟩ := hb
    obtain ⟨-, -, ht, hw⟩ := hx.next (k := k) hb
    rw [ht, Acknowledged, acknowledged_received hr] at h
    obtain ⟨p, hp, -⟩ := h.1 hc
    refine ⟨⟨b, hb⟩, h.2, ⟨p, ?_⟩, hw⟩
    obtain ⟨resp, hro, -⟩ := Outcome.bind_eq_ok.mp (hox.symm.trans hb)
    cases hr with
    | timeout => cases hp
    | packet =>
      cases hp
      rfl
    | raised | blocked => cases hro
  · rw [(hx.stop fun b h ↦ hb ⟨b, h⟩).1, Acknowledged] at h
    obtain ⟨p, hp, hl, hs⟩ := h.1 hc
    cases hr with
    | packet =>
      cases hp
      obtain ⟨b, hb'⟩ := ho p hl hs
      exact absurd ⟨b, hox.trans hb'⟩ hb
    | timeout | raised | blocked => cases hp

theorem written_flashTail {seq left : ℕ} (h : seq + left ≤ 2 ^ 32) (inputBin : Bytes)
    (hack : Acknowledged (talk ((flashTail seq left inputBin).run rs).log)) :
    written ((flashTail seq left inputBin).run rs).log =
      enclose slipEnd (encoded (tailCommands seq left inputBin)) := by
  induction left generalizing seq inputBin rs with
  | zero =>
    obtain ⟨hx, hox⟩ := flashEnd_asks rs
    rw [flashTail_zero, run_bind] at hack ⊢
    obtain ⟨-, -, -, hw⟩ := acknowledged_method (received endCommand.cmd rs) hx hox (by decide)
      (fun p _ _ ↦ ⟨_, rfl⟩) hack
    rw [hw]
    simp [tailCommands, blocks, encoded, written]
  | succ left ih =>
    obtain ⟨hx, hox⟩ := flashData_asks (show seq < 2 ^ 32 by omega) (length_block inputBin) rs
    rw [flashTail_succ, run_bind] at hack ⊢
    obtain ⟨-, hack, -, hw⟩ := acknowledged_method (c := dataCommand seq (block inputBin))
      (received romCommandFlashData rs) hx hox
      (show romCommandFlashData ≠ romCommandSync by decide) (fun p _ _ ↦ ⟨_, rfl⟩) hack
    rw [hw, ih (by omega) _ hack, tailCommands_succ]
    simp [encoded, enclose]

theorem written_flashImage {inputBin : Bytes} (h : inputBin.length < 2 ^ 32)
    (hack : Acknowledged (talk ((flashImage inputBin).run rs).log)) :
    written ((flashImage inputBin).run rs).log = enclose slipEnd (encoded
      (beginCommand inputBin.length :: tailCommands 0 (nrBlocks inputBin.length) inputBin)) := by
  have hn : 0 + nrBlocks inputBin.length ≤ 2 ^ 32 := by
    have := nrBlocks_le inputBin.length
    omega
  obtain ⟨hx, hox⟩ := flashBegin_asks h rs
  rw [flashImage_eq, run_bind] at hack ⊢
  obtain ⟨-, hack, -, hw⟩ := acknowledged_method (c := beginCommand inputBin.length)
    (received romCommandFlashBegin rs) hx hox
    (show romCommandFlashBegin ≠ romCommandSync by decide) (fun p _ _ ↦ ⟨_, rfl⟩) hack
  rw [hw, written_flashTail hn _ hack]
  simp [encoded, enclose]

theorem unpackRequest_begin {totalSize : ℕ} (h : totalSize < 2 ^ 32) :
    unpackRequest (slipEncode (beginCommand totalSize).packet) =
      some ⟨romDirectionRequest, romCommandFlashBegin, 20, 0, 20,
        [totalSize, nrBlocks totalSize, maxBlockSize, 0, 0], []⟩ := by
  have hl : (beginCommand totalSize).data.length = 20 := length_bytes _
  rw [unpackRequest_encoded (beginCommand_fits totalSize) (List.append_nil _).symm rfl
    (beginFields_fit h), hl]
  rfl

theorem unpackRequest_data {seq : ℕ} {payload : Bytes} (h : seq < 2 ^ 32)
    (hp : payload.length = maxBlockSize) :
    unpackRequest (slipEncode (dataCommand seq payload).packet) =
      some ⟨romDirectionRequest, romCommandFlashData, 16 + payload.length,
        (xorAll payload).toNat, 16 + payload.length, [maxBlockSize, seq, 0, 0], payload⟩ := by
  have hl : (dataCommand seq payload).data.length = 16 + payload.length := by
    rw [dataCommand, List.length_append, length_bytes]
    rfl
  rw [unpackRequest_encoded (dataCommand_fits seq hp) rfl rfl (dataFields_fit h), hl,
    ← calculateChecksum_eq]
  rfl

theorem unpackRequest_end : unpackRequest (slipEncode endCommand.packet) =
    some ⟨romDirectionRequest, romCommandFlashEnd, 4, 0, 4, [1], []⟩ := by
  decide

theorem transfers_commands {inputBin : Bytes} (h : inputBin.length < 2 ^ 32) :
    Transfers inputBin ((encoded (beginCommand inputBin.length ::
      tailCommands 0 (nrBlocks inputBin.length) inputBin)).map unpackRequest) := by
  obtain ⟨k, hk, hf⟩ := @flatten_blocks _ inputBin rfl
  refine ⟨blocks (nrBlocks inputBin.length) inputBin, k, hk, ?_, length_blocks _ _,
    fun payload hp ↦ length_of_mem_blocks hp, hf⟩
  have hn := nrBlocks_le inputBin.length
  have hd : ((blocks (nrBlocks inputBin.length) inputBin).mapIdx fun i payload ↦
        dataCommand (0 + i) payload).map (fun c ↦ unpackRequest (slipEncode c.packet)) =
      (blocks (nrBlocks inputBin.length) inputBin).mapIdx fun seq payload ↦
        some ⟨romDirectionRequest, romCommandFlashData, 16 + payload.length,
          (xorAll payload).toNat, 16 + payload.length, [maxBlockSize, seq, 0, 0], payload⟩ := by
    refine List.ext_getElem (by simp) (fun i h₁ h₂ ↦ ?_)
    rw [List.length_mapIdx] at h₂
    have hm := List.getElem_mem h₂
    rw [length_blocks] at h₂
    rw [List.getElem_map, List.getElem_mapIdx, List.getElem_mapIdx, Nat.zero_add,
      unpackRequest_data (by omega) (length_of_mem_blocks hm)]
  rw [encoded, List.map_map, List.map_cons, tailCommands, List.map_append, Function.comp_def, hd]
  simp only [List.map_cons, List.map_nil, unpackRequest_begin h, unpackRequest_end]
  rfl

theorem afterAttach_append {pre : List Event} (h : ∀ e ∈ pre, e.isAttachResponse = false) :
    afterAttach (pre ++ t) = afterAttach t := by
  rw [afterAttach, List.dropWhile_append_of_pos (fun e he ↦ by simp [h e he]), afterAttach]

theorem afterAttach_spiAttach {x : Result (Option UInt8) Error Event Bool} {p : Bytes}
    (hx : Asks attachCommand r x) (hr : r.log = [.response attachCommand.cmd (some p)]) :
    ∃ post, (∀ e ∈ post, e.Quiet) ∧ afterAttach (x.log ++ t) = post ++ t := by
  obtain ⟨pre, post, hl, hpre, hpost⟩ := hx.order
  have hn : ∀ e ∈ pre, e.isAttachResponse = false := by
    intro e he
    cases e with
    | response cmd p' =>
      have hm : Event.response cmd p' ∈ talk pre := List.mem_filter.mpr ⟨he, rfl⟩
      rw [hpre] at hm
      cases List.mem_singleton.mp hm
    | _ => rfl
  refine ⟨post, hpost, ?_⟩
  rw [hl, hr, List.append_assoc, afterAttach_append hn]
  rfl

/-- A transfer that the device acknowledges reaches it: what `esp_flash` writes
after the SPI_ATTACH exchange reads back as the image. -/
theorem transfer_end_to_end {setup : Setup} {inputBin : Bytes}
    (hfile : setup.contents = some inputBin) (hlen : inputBin.length < 2 ^ 32)
    {rs : List (Option UInt8)}
    (hattach : ∃ c, .request c ∈ talk ((espFlash setup).run rs).log ∧ c.cmd = romCommandSpiAttach)
    (hack : Acknowledged (talk ((espFlash setup).run rs).log)) :
    Transfers inputBin ((frames slipEnd
      (written (afterAttach ((espFlash setup).run rs).log))).map unpackRequest) := by
  obtain ⟨tail, hq, hlog⟩ := espFlash_log hfile rs
  have hsync := ofSync_connect setup rs
  have htr : (transfer setup inputBin).run rs = ((connect setup).run rs).bind fun _ l ↦
      ((spiAttach 0).run l).bind fun _ ↦ (flashImage inputBin).run := rfl
  rw [hlog, htr] at hattach hack ⊢
  generalize (connect setup).run rs = r at hsync hattach hack ⊢
  obtain ⟨o, l, e⟩ := r
  cases o with
  | raise x | blocked =>
    obtain ⟨c, hm, hc⟩ := hattach
    rw [talk_append, talk_quiet hq, List.append_nil] at hm
    have hs : c.cmd = romCommandSync := hsync _ (List.mem_of_mem_filter hm)
    rw [hs] at hc
    exact absurd hc (by decide)
  | ok _ =>
    rw [Result.ok_bind] at hack ⊢
    obtain ⟨hx, hox⟩ := spiAttach_asks l
    have hr : Received attachCommand.cmd _ := received romCommandSpiAttach l
    rw [talk_append, talk_quiet hq, List.append_nil, talk_append] at hack
    obtain ⟨⟨b, hb⟩, hack, ⟨p, hp⟩, -⟩ := acknowledged_method hr hx hox (by decide)
      (fun p ↦ attachOutcome_ack) hack.of_append
    have hlog : (((spiAttach 0).run l).bind fun _ ↦ (flashImage inputBin).run).log =
        ((spiAttach 0).run l).log ++ ((flashImage inputBin).run
          ((recvResponse romCommandSpiAttach).run l).rest).log := by
      rw [← hx.rest]
      generalize (spiAttach 0).run l = x at hb
      obtain ⟨o, l, e⟩ := x
      cases hb
      rfl
    have he : ∀ e' ∈ e, e'.isAttachResponse = false := by
      intro e' he'
      have hs := hsync e' he'
      cases e' with
      | response cmd p =>
        rw [show cmd = romCommandSync from hs]
        rfl
      | _ => rfl
    obtain ⟨post, hpost, ha⟩ := afterAttach_spiAttach hx hp (t := ((flashImage inputBin).run
      ((recvResponse romCommandSpiAttach).run l).rest).log ++ tail)
    rw [hlog, List.append_assoc, List.append_assoc, afterAttach_append he, ha, written_append,
      written_append, written_quiet hpost, written_quiet hq, written_flashImage hlen hack,
      List.nil_append, List.append_nil, frames_enclose (slipEnd_notMem_encoded _)
      (encoded_ne_nil _)]
    exact transfers_commands hlen

def ackedReads : List (Option UInt8) :=
  none :: ackReads 0x08 ++ none :: ackReads 0x0D ++ ackReads 0x02 ++ ackReads 0x03 ++ ackReads 0x04

theorem talk_acked : talk ((espFlash twoBytes).run ackedReads).log =
    [.request ⟨romCommandSync, syncData, 0⟩, .response romCommandSync (some (ack 0x08)),
      .response romCommandSync none,
      .request attachCommand, .response romCommandSpiAttach (some (ack 0x0D)),
      .request (beginCommand 2), .response romCommandFlashBegin (some (ack 0x02)),
      .request (dataCommand 0 (block [0xC0, 0x41])),
      .response romCommandFlashData (some (ack 0x03)),
      .request endCommand, .response romCommandFlashEnd (some (ack 0x04))] := by
  decide +kernel

theorem acknowledged_pair {p : Bytes} (hl : 10 ≤ p.length) (hs : p[8]? = some 0)
    (h : Acknowledged t) : Acknowledged (.request c :: .response c.cmd (some p) :: t) :=
  ⟨fun _ ↦ ⟨p, rfl, hl, hs⟩, h⟩

theorem transfer_two_bytes : Transfers [0xC0, 0x41] ((frames slipEnd
    (written (afterAttach ((espFlash twoBytes).run ackedReads).log))).map unpackRequest) := by
  refine @transfer_end_to_end twoBytes [0xC0, 0x41] rfl (by decide) ackedReads ?_ ?_
  · rw [talk_acked]
    exact ⟨attachCommand, by simp, rfl⟩
  · have hend : Acknowledged [.request endCommand,
        .response romCommandFlashEnd (some (ack 0x04))] :=
      acknowledged_pair (c := endCommand) (by decide) rfl trivial
    have hdata := acknowledged_pair (c := dataCommand 0 (block [0xC0, 0x41])) (p := ack 0x03)
      (by decide) rfl hend
    have hbegin := acknowledged_pair (c := beginCommand 2) (p := ack 0x02) (by decide) rfl hdata
    have hatt := acknowledged_pair (c := attachCommand) (p := ack 0x0D) (by decide) rfl hbegin
    rw [talk_acked]
    exact ⟨fun h ↦ absurd rfl h, hatt⟩

end Esp32c6Fw.Espctl
