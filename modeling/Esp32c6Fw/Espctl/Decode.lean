import Esp32c6Fw.Espctl.Methods

namespace Esp32c6Fw.Espctl

open Script Struct Framing

inductive Kind
  | sync
  | writeReg
  | readReg
  | flashBegin
  | flashData
  | flashEnd
  | memBegin
  | memData
  | memEnd
  | spiSetParams
  | spiAttach
  deriving DecidableEq

/-- What the class can send, with its arguments. -/
inductive Message
  | sync
  | spiSetParams (totalSize : ℕ)
  | call (m : Method)
  deriving DecidableEq

namespace Kind

def code : Kind → ℕ
  | sync => romCommandSync
  | writeReg => romCommandWriteReg
  | readReg => romCommandReadReg
  | flashBegin => romCommandFlashBegin
  | flashData => romCommandFlashData
  | flashEnd => romCommandFlashEnd
  | memBegin => romCommandMemBegin
  | memData => romCommandMemData
  | memEnd => romCommandMemEnd
  | spiSetParams => romCommandSpiSetParams
  | spiAttach => romCommandSpiAttach

/-- The struct format of the body, in front of any payload. -/
def format : Kind → List ℕ
  | sync => []
  | readReg | flashEnd => [4]
  | memEnd | spiAttach => [4, 4]
  | writeReg | flashData | memBegin | memData => [4, 4, 4, 4]
  | flashBegin => [4, 4, 4, 4, 4]
  | spiSetParams => [4, 4, 4, 4, 4, 4]

def build : Kind → List ℕ → Bytes → Option Message
  | sync, [], data => if data = syncData then some .sync else none
  | writeReg, [address, value, mask, 1], [] => some (.call (.writeReg address value mask))
  | readReg, [address], [] => some (.call (.readReg address))
  | flashBegin, [eraseSize, nrBlocks, blockSize, offset, encrypt], [] =>
    some (.call (.flashBegin eraseSize nrBlocks blockSize offset encrypt))
  | flashData, [blockSize, seq, 0, 0], payload => some (.call (.flashData blockSize seq payload))
  | flashEnd, [0x01], [] => some (.call (.flashEnd true))
  | flashEnd, [0x00], [] => some (.call (.flashEnd false))
  | memBegin, [totalSize, nrBlocks, blockSize, offset], [] =>
    some (.call (.memBegin totalSize nrBlocks blockSize offset))
  | memData, [blockSize, seq, 0, 0], payload => some (.call (.memData blockSize seq payload))
  | memEnd, [executeFlag, entryPoint], [] => some (.call (.memEnd executeFlag entryPoint))
  | spiSetParams, [0, totalSize, 0x10000, 0x1000, 256, 0xFFFF], [] =>
    some (.spiSetParams totalSize)
  | spiAttach, [spiIf, 0], [] => some (.call (.spiAttach spiIf))
  | _, _, _ => none

end Kind

/-- Decode a packet: `kindOf` takes its command byte to the request it is, and the
format of that request unpacks its body. -/
def decode (kindOf : ℕ → Option Kind) (packet : Bytes) : Option Message :=
  match unpackFrom [1, 1, 2, 4] packet with
  | some ([dir, cmd, size, _], body) =>
    if dir = romDirectionRequest ∧ size = body.length then do
      let kind ← kindOf cmd
      let (values, payload) ← unpackFrom kind.format body
      kind.build values payload
    else none
  | _ => none

/-- The command codes with `eight` for the one that two requests share. -/
def kindOfCode (eight : Kind) : ℕ → Option Kind
  | 0x02 => some .flashBegin
  | 0x03 => some .flashData
  | 0x04 => some .flashEnd
  | 0x05 => some .memBegin
  | 0x07 => some .memData
  | 0x08 => some eight
  | 0x09 => some .writeReg
  | 0x0A => some .readReg
  | 0x0B => some .spiSetParams
  | 0x0D => some .spiAttach
  | _ => none

namespace Message

def kind : Message → Kind
  | sync => .sync
  | spiSetParams _ => .spiSetParams
  | call (.readReg _) => .readReg
  | call (.writeReg ..) => .writeReg
  | call (.flashBegin ..) => .flashBegin
  | call (.flashData ..) => .flashData
  | call (.flashEnd _) => .flashEnd
  | call (.memBegin ..) => .memBegin
  | call (.memData ..) => .memData
  | call (.memEnd ..) => .memEnd
  | call (.spiAttach _) => .spiAttach

def send : Message → Host Bool
  | sync => Espctl.sync
  | spiSetParams totalSize => Espctl.spiSetParams totalSize
  | call m => m.call

def fields : Message → List (ℕ × ℕ)
  | sync => []
  | spiSetParams totalSize =>
    [(4, 0), (4, totalSize), (4, 64 * 1024), (4, 4 * 1024), (4, 256), (4, 0xFFFF)]
  | call m => m.fields

def payload : Message → Bytes
  | sync => syncData
  | spiSetParams _ => []
  | call m => m.payload

def checksum : Message → ℕ
  | call m => m.checksum
  | _ => 0

def command (r : Message) : Command := ⟨r.kind.code, bytes r.fields ++ r.payload, r.checksum⟩

def Fits : Message → Prop
  | sync => True
  | spiSetParams totalSize => totalSize < 2 ^ 32
  | call m => m.Fits

/-- While no response has come, the request puts one frame on the line, of this packet. -/
def Sends (r : Message) (packet : Bytes) : Prop :=
  ∃ f, written (r.send.run []).log = slipEnd :: (f ++ [slipEnd]) ∧ slipDecode f = .ok packet

variable {r : Message} {m : Method}

theorem command_call (m : Method) : (call m).command = m.command := by
  cases m <;> rfl

theorem Fits.fields (h : r.Fits) : ∀ f ∈ r.fields, f.2 < 256 ^ f.1 := by
  cases r with
  | sync => simp [Message.fields]
  | call m => exact Method.Fits.fields h
  | spiSetParams totalSize =>
    have ht : totalSize < 256 ^ 4 := h
    simp only [Message.fields, List.forall_mem_cons, List.not_mem_nil, false_implies,
      implies_true, and_true, ht, true_and]
    decide

theorem Fits.command (h : r.Fits) : r.command.Fits := by
  cases r with
  | sync => exact ⟨by decide, by decide, by decide⟩
  | call m =>
    rw [command_call]
    exact Method.Fits.command h
  | spiSetParams totalSize =>
    refine ⟨show romCommandSpiSetParams < 256 by decide, ?_, show 0 < 2 ^ 32 by decide⟩
    rw [Message.command, List.length_append, length_bytes]
    exact show [4, 4, 4, 4, 4, 4].sum + 0 ≤ 65535 by decide

theorem written_sync : written (Espctl.sync.run []).log =
    enclose slipEnd [slipEncode sync.command.packet] := by
  decide +kernel

theorem run_spiSetParams {totalSize : ℕ} (h : (spiSetParams totalSize).Fits)
    (rs : List (Option UInt8)) :
    written ((Espctl.spiSetParams totalSize).run rs).log =
        enclose slipEnd [slipEncode (spiSetParams totalSize).command.packet] ∧
      ((Espctl.spiSetParams totalSize).run rs).outcome =
        ((recvResponse romCommandSpiSetParams).run rs).outcome.bind
          fun _ ↦ .raise (.nameError "resp") := by
  have hc : (⟨romCommandSpiSetParams, bytes (spiSetParams totalSize).fields, 0⟩ : Command) =
      (spiSetParams totalSize).command := by
    rw [command, payload, List.append_nil]
    rfl
  have hp := structPack_bytes h.fields
  have hr := written_received (received romCommandSpiSetParams rs)
  rw [fields] at hp hc
  rw [Espctl.spiSetParams, hp]
  simp only [ofExcept_ok_bind, run_bind, run_print, Result.ok_bind, hc, run_sendCommand h.command]
  generalize (recvResponse romCommandSpiSetParams).run rs = r at hr ⊢
  obtain ⟨o, l, e⟩ := r
  simp only at hr
  cases o with
  | ok | raise | blocked =>
    simp [written, enclose] at hr ⊢
    exact ⟨hr, rfl⟩

theorem written_send (h : r.Fits) :
    written (r.send.run []).log = enclose slipEnd [slipEncode r.command.packet] := by
  cases r with
  | sync => exact written_sync
  | spiSetParams totalSize => exact (run_spiSetParams h []).1
  | call m =>
    rw [command_call]
    exact (m.call_asks h []).1.sent

theorem sends_iff (h : r.Fits) {packet : Bytes} : r.Sends packet ↔ packet = r.command.packet := by
  have he : enclose slipEnd [slipEncode r.command.packet] =
      slipEnd :: (slipEncode r.command.packet ++ [slipEnd]) := by
    simp [enclose]
  rw [Sends, written_send h, he]
  constructor
  · rintro ⟨f, hf, hd⟩
    rw [List.cons_inj_right, List.append_cancel_right_eq] at hf
    rw [← hf, slipDecode_slipEncode] at hd
    cases hd
    rfl
  · rintro rfl
    exact ⟨_, rfl, slipDecode_slipEncode _⟩

theorem format_kind (r : Message) : r.kind.format = r.fields.map (·.1) := by
  cases r with
  | sync | spiSetParams => rfl
  | call m => cases m <;> rfl

theorem build_kind (r : Message) : r.kind.build (r.fields.map (·.2)) r.payload = some r := by
  cases r with
  | sync => simp [kind, fields, payload, Kind.build]
  | spiSetParams => rfl
  | call m =>
    cases m with
    | flashEnd reboot => cases reboot <;> rfl
    | _ => rfl

theorem kind_of_build {k : Kind} {values : List ℕ} {payload : Bytes}
    (h : k.build values payload = some r) : r.kind = k := by
  unfold Kind.build at h
  split at h
  · split at h <;> cases h
    rfl
  all_goals cases h <;> rfl

end Message

variable {kindOf : ℕ → Option Kind} {c : Command} {r : Message}

theorem decode_packet (h : c.Fits) : decode kindOf c.packet =
    (kindOf c.cmd).bind fun kind ↦
      (unpackFrom kind.format c.data).bind fun x ↦ kind.build x.1 x.2 := by
  have hu := unpackFrom_bytes h.fields c.data
  rw [decode, Command.packet, show [1, 1, 2, 4] = (romHdrFormatCommand romDirectionRequest c.cmd
    c.data.length c.checksum).map (·.1) from rfl, hu]
  simp only [romHdrFormatCommand, List.map_cons, List.map_nil, true_and, if_true]
  rfl

theorem decode_message (h : r.Fits) (hk : kindOf r.kind.code = some r.kind) :
    decode kindOf r.command.packet = some r := by
  have hu := unpackFrom_bytes h.fields r.payload
  rw [← r.format_kind] at hu
  rw [decode_packet h.command]
  simp only [Message.command, hk, hu, Option.bind_some, r.build_kind]

theorem kind_of_decode {r' : Message} (h : c.Fits) (hd : decode kindOf c.packet = some r') :
    kindOf c.cmd = some r'.kind := by
  rw [decode_packet h] at hd
  obtain ⟨k, hk, hd⟩ := Option.bind_eq_some_iff.mp hd
  obtain ⟨x, -, hb⟩ := Option.bind_eq_some_iff.mp hd
  rw [Message.kind_of_build hb, hk]

theorem kindOf_of_decodes (h : r.Fits)
    (hd : ∃ packet, r.Sends packet ∧ decode kindOf packet = some r) :
    kindOf r.kind.code = some r.kind := by
  obtain ⟨packet, hp, hd⟩ := hd
  rw [(Message.sends_iff h).mp hp] at hd
  exact kind_of_decode h.command hd

theorem sync_fits : Message.sync.Fits := trivial

theorem memEnd_fits : (Message.call (.memEnd 0 0)).Fits := ⟨by decide, by decide⟩

/-- No choice of kinds decodes both requests with the code 0x08. -/
theorem sync_memEnd_collide
    (hs : ∃ packet, Message.sync.Sends packet ∧ decode kindOf packet = some .sync)
    (hm : ∃ packet, (Message.call (.memEnd 0 0)).Sends packet ∧
      decode kindOf packet = some (.call (.memEnd 0 0))) : False := by
  have h₁ : kindOf 0x08 = some .sync := kindOf_of_decodes sync_fits hs
  have h₂ : kindOf 0x08 = some .memEnd := kindOf_of_decodes memEnd_fits hm
  rw [h₁] at h₂
  cases h₂

theorem kindOfCode_code {eight k : Kind} (h : k = .sync ∨ k = .memEnd → eight = k) :
    kindOfCode eight k.code = some k := by
  cases k with
  | sync => exact congrArg some (h (.inl rfl))
  | memEnd => exact congrArg some (h (.inr rfl))
  | _ => rfl

/-- The requests of a set of kinds can be told apart by their command byte if and
only if not both `sync` and `mem_end` are among them. -/
theorem decodable_iff (K : Kind → Prop) :
    (∃ kindOf, ∀ r : Message, K r.kind → r.Fits →
      ∃ packet, r.Sends packet ∧ decode kindOf packet = some r) ↔ ¬ (K .sync ∧ K .memEnd) := by
  constructor
  · rintro ⟨kindOf, h⟩ ⟨hs, hm⟩
    exact sync_memEnd_collide (h _ hs sync_fits) (h _ hm memEnd_fits)
  · intro hK
    obtain ⟨eight, he⟩ : ∃ eight, ∀ k, K k → k = .sync ∨ k = .memEnd → eight = k := by
      by_cases hs : K .sync
      · refine ⟨.sync, fun k hk hor ↦ ?_⟩
        rcases hor with rfl | rfl
        · rfl
        · exact absurd ⟨hs, hk⟩ hK
      · refine ⟨.memEnd, fun k hk hor ↦ ?_⟩
        rcases hor with rfl | rfl
        · exact absurd hk hs
        · rfl
    exact ⟨kindOfCode eight, fun r hr hf ↦ ⟨_, (Message.sends_iff hf).mpr rfl,
      decode_message hf (kindOfCode_code (he _ hr))⟩⟩

theorem not_decodable : ¬ ∃ kindOf, ∀ r : Message, r.Fits →
    ∃ packet, r.Sends packet ∧ decode kindOf packet = some r := by
  rintro ⟨kindOf, h⟩
  exact sync_memEnd_collide (h _ sync_fits) (h _ memEnd_fits)

end Esp32c6Fw.Espctl
