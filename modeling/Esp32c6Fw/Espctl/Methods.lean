import Esp32c6Fw.Espctl.Frames
import Esp32c6Fw.Espctl.Talk

namespace Esp32c6Fw.Espctl

open Script Struct

def romCommandWriteReg : ℕ := 0x09
def romCommandReadReg : ℕ := 0x0A
def romCommandMemBegin : ℕ := 0x05
def romCommandMemData : ℕ := 0x07
def romCommandMemEnd : ℕ := 0x08
def romCommandSpiSetParams : ℕ := 0x0B

def hex (n : ℕ) : String := "0x" ++ String.ofList (Nat.toDigits 16 n)

def commandMethod (name : String) (cmd : ℕ) (fields : List (ℕ × ℕ)) (payload : Bytes)
    (checksum : ℕ) (wait : Host Unit) (finish : Option Bytes → Host Bool) : Host Bool := do
  print s!"[ESPCTL] {name}"
  let metadata ← ofExcept (structPack fields)
  let resp ← exchange name ⟨cmd, metadata ++ payload, checksum⟩ wait
  finish resp

def checkStatus (name : String) (success : Host Unit) : Option Bytes → Host Bool
  | none => return false
  | some resp => do
    let status ← ofExcept (index resp 8)
    let error ← ofExcept (index resp 9)
    if status ≠ 0 then
      print s!"{name} ERROR CODE: {error.toNat}"
      return false
    success
    return true

def structUnpackWord (bs : Bytes) : Except Error ℕ :=
  match unpack [4] bs with
  | some [value] => .ok value
  | _ => .error .structError

def readRegStatus (address : ℕ) : Option Bytes → Host Bool
  | none => return false
  | some resp => do
    let value ← ofExcept (structUnpackWord ((resp.drop 4).take 4))
    checkStatus "READ_REG"
      (print s!"====== READ_REG SUCCESS: ADDR({hex address}) VALUE({hex value}) ======") (some resp)

/-- Its message about an error names the other method. -/
def writeReg (address value mask : ℕ) : Host Bool :=
  commandMethod "WRITE_REG" romCommandWriteReg [(4, address), (4, value), (4, mask), (4, 1)] [] 0
    (return ()) (checkStatus "READ_REG"
      (print s!"====== WRITE_REG SUCCESS: ADDR({hex address}) VALUE({hex value}) ======"))

def readReg (address : ℕ) : Host Bool :=
  commandMethod "READ_REG" romCommandReadReg [(4, address)] [] 0 (return ())
    (readRegStatus address)

def memBegin (totalSize nrBlocks blockSize offset : ℕ) : Host Bool :=
  commandMethod "MEM_BEGIN" romCommandMemBegin
    [(4, totalSize), (4, nrBlocks), (4, blockSize), (4, offset)] [] 0 (return ())
    (checkStatus "MEM_BEGIN" (return ()))

def memData (blockSize seq : ℕ) (payload : Bytes) : Host Bool :=
  commandMethod "MEM_DATA" romCommandMemData [(4, blockSize), (4, seq), (4, 0), (4, 0)] payload
    (calculateChecksum payload) (return ()) (checkStatus "MEM_DATA" (return ()))

def memEnd (executeFlag entryPoint : ℕ) : Host Bool :=
  commandMethod "MEM_END" romCommandMemEnd [(4, executeFlag), (4, entryPoint)] [] 0 (return ())
    (checkStatus "MEM_END" (return ()))

/-- The response goes to a misspelled name, so the test of `resp` raises. -/
def spiSetParams (totalSize : ℕ) : Host Bool := do
  print "[ESPCTL] SPI_SET_PARAMS"
  let data ← ofExcept (structPack
    [(4, 0), (4, totalSize), (4, 64 * 1024), (4, 4 * 1024), (4, 256), (4, 0xFFFF)])
  sendCommand ⟨romCommandSpiSetParams, data, 0⟩
  let _ ← recvResponse romCommandSpiSetParams
  raise (.nameError "resp")

inductive Method
  | readReg (address : ℕ)
  | writeReg (address value mask : ℕ)
  | flashBegin (eraseSize nrBlocks blockSize offset encrypt : ℕ)
  | flashData (blockSize seq : ℕ) (payload : Bytes)
  | flashEnd (reboot : Bool)
  | memBegin (totalSize nrBlocks blockSize offset : ℕ)
  | memData (blockSize seq : ℕ) (payload : Bytes)
  | memEnd (executeFlag entryPoint : ℕ)
  | spiAttach (spiIf : ℕ)
  deriving DecidableEq

namespace Method

def call : Method → Host Bool
  | readReg address => Espctl.readReg address
  | writeReg address value mask => Espctl.writeReg address value mask
  | flashBegin eraseSize nrBlocks blockSize offset encrypt =>
    Espctl.flashBegin eraseSize nrBlocks blockSize offset encrypt
  | flashData blockSize seq payload => Espctl.flashData blockSize seq payload
  | flashEnd reboot => Espctl.flashEnd reboot
  | memBegin totalSize nrBlocks blockSize offset =>
    Espctl.memBegin totalSize nrBlocks blockSize offset
  | memData blockSize seq payload => Espctl.memData blockSize seq payload
  | memEnd executeFlag entryPoint => Espctl.memEnd executeFlag entryPoint
  | spiAttach spiIf => Espctl.spiAttach spiIf

def name : Method → String
  | readReg _ => "READ_REG"
  | writeReg .. => "WRITE_REG"
  | flashBegin .. => "FLASH_BEGIN"
  | flashData .. => "FLASH_DATA"
  | flashEnd _ => "FLASH_END"
  | memBegin .. => "MEM_BEGIN"
  | memData .. => "MEM_DATA"
  | memEnd .. => "MEM_END"
  | spiAttach _ => "SPI_ATTACH"

def cmd : Method → ℕ
  | readReg _ => romCommandReadReg
  | writeReg .. => romCommandWriteReg
  | flashBegin .. => romCommandFlashBegin
  | flashData .. => romCommandFlashData
  | flashEnd _ => romCommandFlashEnd
  | memBegin .. => romCommandMemBegin
  | memData .. => romCommandMemData
  | memEnd .. => romCommandMemEnd
  | spiAttach _ => romCommandSpiAttach

def fields : Method → List (ℕ × ℕ)
  | readReg address => [(4, address)]
  | writeReg address value mask => [(4, address), (4, value), (4, mask), (4, 1)]
  | flashBegin eraseSize nrBlocks blockSize offset encrypt =>
    [(4, eraseSize), (4, nrBlocks), (4, blockSize), (4, offset), (4, encrypt)]
  | flashData blockSize seq _ | memData blockSize seq _ =>
    [(4, blockSize), (4, seq), (4, 0), (4, 0)]
  | flashEnd reboot => [(4, if reboot then 0x01 else 0x00)]
  | memBegin totalSize nrBlocks blockSize offset =>
    [(4, totalSize), (4, nrBlocks), (4, blockSize), (4, offset)]
  | memEnd executeFlag entryPoint => [(4, executeFlag), (4, entryPoint)]
  | spiAttach spiIf => [(4, spiIf), (4, 0)]

def payload : Method → Bytes
  | flashData _ _ payload | memData _ _ payload => payload
  | _ => []

def checksum : Method → ℕ
  | flashData _ _ payload | memData _ _ payload => calculateChecksum payload
  | _ => 0

def wait : Method → Host Unit
  | flashBegin _ nrBlocks _ _ _ => emit (.sleep (10 * nrBlocks))
  | _ => return ()

def finish : Method → Option Bytes → Host Bool
  | readReg address => readRegStatus address
  | writeReg address value _ => checkStatus "READ_REG"
      (print s!"====== WRITE_REG SUCCESS: ADDR({hex address}) VALUE({hex value}) ======")
  | memBegin .. => checkStatus "MEM_BEGIN" (return ())
  | memData .. => checkStatus "MEM_DATA" (return ())
  | memEnd .. => checkStatus "MEM_END" (return ())
  | spiAttach _ => spiAttachStatus
  | flashBegin .. | flashData .. | flashEnd _ => fun resp ↦ return resp.isSome

def readsStatus : Method → Bool
  | flashBegin .. | flashData .. | flashEnd _ => false
  | _ => true

theorem call_eq (m : Method) : m.call =
    commandMethod m.name m.cmd m.fields m.payload m.checksum m.wait m.finish := by
  cases m with
  | readReg | writeReg | memBegin | memData | memEnd => rfl
  | flashBegin | flashEnd | spiAttach =>
    simp only [call, Espctl.flashBegin, Espctl.flashEnd, Espctl.spiAttach, commandMethod, payload,
      List.append_nil]
    rfl
  | flashData => rfl

structure Fits (m : Method) : Prop where
  fields : ∀ f ∈ m.fields, f.2 < 256 ^ f.1
  data : (m.fields.map (·.1)).sum + m.payload.length ≤ 65535

def command (m : Method) : Command := ⟨m.cmd, bytes m.fields ++ m.payload, m.checksum⟩

def outcome : Method → Option Bytes → Outcome Error Bool
  | flashBegin .., resp | flashData .., resp | flashEnd _, resp => .ok resp.isSome
  | readReg _, some resp =>
    match structUnpackWord ((resp.drop 4).take 4) with
    | .ok _ => attachOutcome (some resp)
    | .error e => .raise e
  | _, resp => attachOutcome resp

variable {m : Method} {rs : List (Option UInt8)}

theorem cmd_lt (m : Method) : m.cmd < 256 := by
  cases m <;> simp only [cmd] <;> decide

theorem Fits.command (h : m.Fits) : m.command.Fits where
  cmd := m.cmd_lt
  data := by
    rw [Method.command, List.length_append, length_bytes]
    exact h.data
  checksum := by
    have hc (payload : Bytes) : calculateChecksum payload < 2 ^ 32 :=
      lt_of_le_of_lt (calculateChecksum_le payload) (by decide)
    cases m <;> first | exact hc _ | exact show 0 < 2 ^ 32 by decide

end Method

theorem run_sendCommand_error {c : Command} {e : Error} (h : c.header = .error e)
    {l : List (Option UInt8)} : (sendCommand c).run l = ⟨.raise e, l, []⟩ := by
  rw [sendCommand, h]
  rfl

theorem checkStatus_run {name : String} {success : Host Unit} {s : List Event}
    (hs : ∀ l, success.run l = ⟨.ok (), l, s⟩) (hq : ∀ e ∈ s, e.Quiet) (resp : Option Bytes)
    (l : List (Option UInt8)) : ∃ q, (checkStatus name success resp).run l =
      ⟨attachOutcome resp, l, q⟩ ∧ ∀ e ∈ q, e.Quiet := by
  cases resp with
  | none => exact ⟨[], rfl, by simp⟩
  | some resp => exact status_run hs hq resp l

theorem readRegStatus_run (address : ℕ) (resp : Option Bytes) (l : List (Option UInt8)) :
    ∃ q, (readRegStatus address resp).run l = ⟨(Method.readReg address).outcome resp, l, q⟩ ∧
      ∀ e ∈ q, e.Quiet := by
  cases resp with
  | none => exact ⟨[], rfl, by simp⟩
  | some resp =>
    simp only [readRegStatus, Method.outcome]
    cases structUnpackWord ((resp.drop 4).take 4) with
    | error e => exact ⟨[], rfl, by simp⟩
    | ok value => exact checkStatus_run (fun l ↦ rfl) (by simp [Event.Quiet]) (some resp) l

namespace Method

variable {m : Method} {rs : List (Option UInt8)}

theorem finish_run (m : Method) (resp : Option Bytes) (l : List (Option UInt8)) :
    ∃ q, (m.finish resp).run l = ⟨m.outcome resp, l, q⟩ ∧ ∀ e ∈ q, e.Quiet := by
  cases m with
  | flashBegin | flashData | flashEnd => exact ⟨[], rfl, by simp⟩
  | readReg address => exact readRegStatus_run address resp l
  | writeReg => exact checkStatus_run (fun l ↦ rfl) (by simp [Event.Quiet]) resp l
  | memBegin | memData | memEnd => exact checkStatus_run (fun l ↦ rfl) (by simp) resp l
  | spiAttach => exact attachOutcome_run resp l

theorem wait_run (m : Method) : ∃ w, (∀ e ∈ w, e.Quiet) ∧
    ∀ l, m.wait.run l = ⟨.ok (), l, w⟩ := by
  cases m with
  | flashBegin _ nrBlocks => exact ⟨[.sleep (10 * nrBlocks)], by simp [Event.Quiet], fun l ↦ rfl⟩
  | _ => exact ⟨[], by simp, fun l ↦ rfl⟩

theorem call_asks (h : m.Fits) (rs : List (Option UInt8)) :
    Asks m.command ((recvResponse m.cmd).run rs) (m.call.run rs) ∧
    (m.call.run rs).outcome = ((recvResponse m.cmd).run rs).outcome.bind m.outcome := by
  obtain ⟨w, hw, hwait⟩ := m.wait_run
  rw [call_eq, commandMethod, structPack_bytes h.fields]
  simp only [ofExcept_ok_bind]
  exact method_asks _ _ h.command (hwait rs) hw m.finish_run

theorem call_unfit (h : ¬ m.Fits) (rs : List (Option UInt8)) :
    (m.call.run rs).outcome = .raise .structError ∧ written (m.call.run rs).log = [] := by
  rw [call_eq, commandMethod]
  by_cases hf : ∀ f ∈ m.fields, f.2 < 256 ^ f.1
  · rw [structPack_bytes hf]
    have hdata : 65535 < (bytes m.fields ++ m.payload).length := by
      rw [List.length_append, length_bytes]
      by_contra hle
      exact h ⟨hf, by omega⟩
    have hpack : pack (romHdrFormatCommand romDirectionRequest m.cmd
        (bytes m.fields ++ m.payload).length m.checksum) = none :=
      pack_eq_none (f := (2, (bytes m.fields ++ m.payload).length))
        (by simp only [romHdrFormatCommand, List.mem_cons, true_or, or_true])
        (show 256 ^ 2 ≤ (bytes m.fields ++ m.payload).length by omega)
    have hheader : m.command.header = .error .structError := by
      rw [Command.header, structPack, command, hpack]
    have hsend (l : List (Option UInt8)) :
        (sendCommand ⟨m.cmd, bytes m.fields ++ m.payload, m.checksum⟩).run l =
          ⟨.raise .structError, l, []⟩ := run_sendCommand_error hheader
    simp only [ofExcept_ok_bind, exchange, run_bind, run_print, Result.ok_bind, hsend,
      Result.raise_bind, List.append_nil, true_and]
    rfl
  · rw [structPack, pack, if_neg hf]
    exact ⟨rfl, rfl⟩

end Method

end Esp32c6Fw.Espctl
