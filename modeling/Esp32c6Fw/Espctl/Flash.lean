import Esp32c6Fw.Espctl.Protocol

namespace Esp32c6Fw.Espctl

open Script

def espressifUsbVid : ℕ := 0x303A
def espressifUsbPid : ℕ := 0x1001

def maxBlockSize : ℕ := 0x400

structure Port where
  device : String
  vid : Option ℕ
  pid : Option ℕ

/-- What the tool finds when it starts: its input file, if it exists, the ports
of the machine, and whether the one it wants can be opened. -/
structure Setup where
  inputFile : String
  contents : Option Bytes
  comports : List Port
  portOpens : Bool

def checkEspressifUsb (comports : List Port) (port : String) : Bool :=
  match comports.find? (fun p ↦ p.device = port) with
  | none => false
  | some target => target.vid = some espressifUsbVid ∧ target.pid = some espressifUsbPid

/-- `ESP32C6RomProtocol(port)`; the object is its `is_espressif_usb`. -/
def openProtocol (setup : Setup) (port : String) : Host Bool :=
  if setup.portOpens then return checkEspressifUsb setup.comports port
  else raise (.serialException s!"could not open port {port}")

def flashBlocks (blockSize seq : ℕ) : ℕ → Bytes → Host Unit
  | 0, _ => return ()
  | left + 1, inputBin => do
    let payload := inputBin.take maxBlockSize
    let payload := payload ++ List.replicate (maxBlockSize - payload.length) 0xFF
    let _ ← flashData blockSize seq payload
    flashBlocks blockSize (seq + 1) left (inputBin.drop maxBlockSize)

def connect (setup : Setup) : Host Unit := do
  let isEspressifUsb ← openProtocol setup "/dev/ttyACM0"
  enterDownloadMode isEspressifUsb
  flush
  let _ ← sync

def nrBlocks (totalSize : ℕ) : ℕ := (totalSize + maxBlockSize - 1) / maxBlockSize

def flashImage (inputBin : Bytes) : Host Unit := do
  let totalSize := inputBin.length
  let eraseSize := totalSize
  let blockSize := maxBlockSize
  let offset := 0x0
  let _ ← flashBegin eraseSize (nrBlocks totalSize) blockSize offset 0
  flashBlocks blockSize 0 (nrBlocks totalSize) inputBin
  let _ ← flashEnd true

def transfer (setup : Setup) (inputBin : Bytes) : Host Unit := do
  connect setup
  let _ ← spiAttach 0
  flashImage inputBin

def report : Error → Host Unit
  | .serialException e | .serialTimeout e => print s!"SERIAL EXCEPTION: {e}"
  | .valueError e => print s!"PROTOCOL ERROR: {e}"
  | e => raise e

/-- The `finally` of `esp_flash`; without a port `protocol` has no value. -/
def cleanUp (setup : Setup) : Host Unit :=
  if setup.portOpens then do
    reset
    flush
  else raise (.unboundLocalError "protocol")

def espFlash (setup : Setup) : Host Unit :=
  match setup.contents with
  | none => do
    print s!"Error: '{setup.inputFile}' not found"
    raise .systemExit
  | some inputBin => tryFinally (tryCatch (transfer setup inputBin) report) (cleanUp setup)

end Esp32c6Fw.Espctl
