import Esp32c6Fw.Espctl.Slip
import Esp32c6Fw.Lib.Script
import Esp32c6Fw.Lib.Struct

namespace Esp32c6Fw.Espctl

open Script Struct

def romCommandSync : ℕ := 0x08
def romCommandFlashBegin : ℕ := 0x02
def romCommandFlashData : ℕ := 0x03
def romCommandFlashEnd : ℕ := 0x04
def romCommandSpiAttach : ℕ := 0x0D

def romDirectionRequest : ℕ := 0x00
def romDirectionResponse : ℕ := 0x01

structure Command where
  cmd : ℕ
  data : Bytes
  checksum : ℕ
  deriving DecidableEq

/-- What the tool does, in order. `request` marks a call of `send_command` that
writes, `response` a return of `recv_response` with what it returned. -/
inductive Event
  | print (line : String)
  | sleep (ms : ℕ)
  | dtr (level : Bool)
  | rts (level : Bool)
  | request (c : Command)
  | write (bs : Bytes)
  | response (cmd : ℕ) (packet : Option Bytes)
  deriving DecidableEq

/-- A read of the port yields a byte, or nothing when it times out. -/
abbrev Host := Script (Option UInt8) Error Event

def ofExcept {α : Type} : Except Error α → Host α
  | .ok a => pure a
  | .error e => raise e

def print (line : String) : Host Unit := emit (.print line)

def structPack (fields : List (ℕ × ℕ)) : Except Error Bytes :=
  match pack fields with
  | some bs => .ok bs
  | none => .error .structError

def index (bs : Bytes) (i : ℕ) : Except Error UInt8 :=
  match bs[i]? with
  | some b => .ok b
  | none => .error .indexError

def romHdrFormatCommand (dir cmd size checksum : ℕ) : List (ℕ × ℕ) :=
  [(1, dir), (1, cmd), (2, size), (4, checksum)]

def calculateChecksum (data : Bytes) : ℕ :=
  data.foldl (fun checksum byte ↦ checksum ^^^ byte.toNat) 0xEF &&& 0xFF

def Command.header (c : Command) : Except Error Bytes :=
  structPack (romHdrFormatCommand romDirectionRequest c.cmd c.data.length c.checksum)

def sendCommand (c : Command) : Host Unit := do
  let header ← ofExcept c.header
  let packet := slipEncode (header ++ c.data)
  emit (.request c)
  emit (.write [slipEnd])
  emit (.write packet)
  emit (.write [slipEnd])

def checkResponse (packet : Bytes) (cmd : ℕ) : Except Error Unit :=
  if packet.length < 8 then
    .error (.valueError s!"Invalid response length: {packet.length}")
  else if (packet.getD 0 0).toNat ≠ romDirectionResponse then
    .error (.valueError s!"Invalid response direction: {(packet.getD 0 0).toNat}")
  else if (packet.getD 1 0).toNat ≠ cmd then
    .error (.valueError s!"Invalid response cmd({cmd}): {(packet.getD 1 0).toNat}")
  else
    let size := ofLe ((packet.drop 2).take 2)
    if packet.length ≠ 8 + size then
      .error (.valueError s!"Invalid response size({size}): {packet.length} ")
    else
      .ok ()

def skipEnd : Host (Unit ⊕ Option UInt8) := do
  match ← read with
  | none => return .inr none
  | some byte => if byte ≠ slipEnd then return .inr (some byte) else return .inl ()

def skipEnds : Host (Option UInt8) := loop (fun _ ↦ skipEnd) ()

def collectByte (cmd : ℕ) (resp : Bytes) : Host (Bytes ⊕ Bytes) := do
  match ← read with
  | none => raise (.serialTimeout s!"Failed to get end of packet: cmd({cmd})")
  | some byte => if byte = slipEnd then return .inr resp else return .inl (resp ++ [byte])

def collect (cmd : ℕ) (resp : Bytes) : Host Bytes := loop (collectByte cmd) resp

def recvFrame (cmd : ℕ) : Host (Option Bytes) := do
  match ← skipEnds with
  | none => return none
  | some byte => return some (← collect cmd [byte])

def recvResponse (cmd : ℕ) : Host (Option Bytes) := do
  match ← recvFrame cmd with
  | none =>
    emit (.response cmd none)
    return none
  | some resp =>
    let packet ← ofExcept (slipDecode resp)
    ofExcept (checkResponse packet cmd)
    emit (.response cmd (some packet))
    return some packet

def enterDownloadMode (isEspressifUsb : Bool) : Host Unit := do
  print "[ESPCTL] ENTER DOWNLOAD MODE"
  if isEspressifUsb then
    emit (.dtr false)
    emit (.rts false)
    emit (.sleep 200)
    emit (.dtr true)
    emit (.rts false)
    emit (.sleep 200)
    emit (.rts true)
    emit (.dtr false)
    emit (.sleep 200)
    emit (.rts true)
    emit (.sleep 200)
    emit (.rts false)
  else
    emit (.dtr false)
    emit (.rts false)
    emit (.sleep 200)
    emit (.rts true)
    emit (.sleep 100)
    emit (.dtr true)
    emit (.rts false)
    emit (.sleep 200)
    emit (.dtr false)

def readlineByte (line : Bytes) : Host (Bytes ⊕ Bytes) := do
  match ← read with
  | none => return .inr line
  | some byte =>
    if byte = 0x0A then return .inr (line ++ [byte]) else return .inl (line ++ [byte])

/-- `readline` of the port: up to a newline or a timeout. -/
def readline : Host Bytes := loop readlineByte []

def flushLine : Host (Unit ⊕ Unit) := do
  let line ← readline
  if line = [] then return .inr () else return .inl ()

/-- `flush` without `do_print`. -/
def flush : Host Unit := loop (fun _ ↦ flushLine) ()

def reset : Host Unit := do
  print "[ESPCTL] RESET"
  emit (.dtr false)
  emit (.rts false)
  flush
  emit (.sleep 100)
  emit (.rts true)
  emit (.rts false)

def syncData : Bytes := [0x07, 0x07, 0x12, 0x20] ++ List.replicate 32 0x55

def syncDrop : Host (Unit ⊕ Unit) := do
  match ← recvResponse romCommandSync with
  | none => return .inr ()
  | some _ => return .inl ()

def syncDrain : Host Unit := loop (fun _ ↦ syncDrop) ()

/-- One turn of the loop of `sync`. Its `except` names an exception that is not
imported, so whatever is raised inside becomes a `NameError`. -/
def syncTurn : Host Bool :=
  tryCatch (do
    sendCommand ⟨romCommandSync, syncData, 0⟩
    match ← recvResponse romCommandSync with
    | none => return false
    | some resp =>
      let status ← ofExcept (index resp 8)
      let error ← ofExcept (index resp 9)
      if status ≠ 0 then
        print s!"SYNC ERROR CODE: {error.toNat}"
        return false
      else
        syncDrain
        return true)
    (fun _ ↦ raise (.nameError "SerialTimeoutException"))

def syncTurns : ℕ → Host Bool
  | 0 => raise (.runtimeError "Failed to sync with ESP32C6 ROM Loader")
  | n + 1 => do if ← syncTurn then return true else syncTurns n

def sync : Host Bool := do
  print "[ESPCTL] SYNC"
  syncTurns 10

/-- What the command methods share: send, wait, receive, and say so on a timeout. -/
def exchange (name : String) (c : Command) (wait : Host Unit) : Host (Option Bytes) := do
  sendCommand c
  wait
  let resp ← recvResponse c.cmd
  if resp = none then
    print s!"{name} TIMEOUT"
  return resp

def flashBegin (eraseSize nrBlocks blockSize offset encrypt : ℕ) : Host Bool := do
  print "[ESPCTL] FLASH_BEGIN"
  let data ← ofExcept (structPack
    [(4, eraseSize), (4, nrBlocks), (4, blockSize), (4, offset), (4, encrypt)])
  let resp ← exchange "FLASH_BEGIN" ⟨romCommandFlashBegin, data, 0⟩ (emit (.sleep (10 * nrBlocks)))
  return resp.isSome

def flashData (blockSize seq : ℕ) (payload : Bytes) : Host Bool := do
  print "[ESPCTL] FLASH_DATA"
  let metadata ← ofExcept (structPack [(4, blockSize), (4, seq), (4, 0), (4, 0)])
  let checksum := calculateChecksum payload
  let data := metadata ++ payload
  let resp ← exchange "FLASH_DATA" ⟨romCommandFlashData, data, checksum⟩ (return ())
  return resp.isSome

def flashEnd (reboot : Bool) : Host Bool := do
  print "[ESPCTL] FLASH_END"
  let rebootFlag := if reboot then 0x01 else 0x00
  let data ← ofExcept (structPack [(4, rebootFlag)])
  let resp ← exchange "FLASH_END" ⟨romCommandFlashEnd, data, 0⟩ (return ())
  return resp.isSome

def spiAttachStatus : Option Bytes → Host Bool
  | none => return false
  | some resp => do
    let status ← ofExcept (index resp 8)
    let error ← ofExcept (index resp 9)
    if status ≠ 0 then
      print s!"SPI_ATTACH ERROR CODE: {error.toNat}"
      return false
    return true

def spiAttach (spiIf : ℕ) : Host Bool := do
  print "[ESPCTL] SPI_ATTACH"
  let data ← ofExcept (structPack [(4, spiIf), (4, 0)])
  let resp ← exchange "SPI_ATTACH" ⟨romCommandSpiAttach, data, 0⟩ (return ())
  spiAttachStatus resp

end Esp32c6Fw.Espctl
