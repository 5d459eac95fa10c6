import Esp32c6Fw.UsbSerialJtag.Device
import Esp32c6Fw.Stub.Io

namespace Esp32c6Fw.UsbSerialJtag

open Mmio Soc

def waitUsbSerialTxFifoFree : Driver Unit :=
  .poll (ep1ConfReg usbSerialJtagBase) (fun raw ↦ inEpDataFree raw = 1) (fun _ ↦ .ret ())

def waitSerialInEmpty : Driver Unit :=
  .poll (intRawReg usbSerialJtagBase) (fun raw ↦ serialInEmptyIntRaw raw ≠ 0) (fun _ ↦ .ret ())

def usbSerialJtagFlush : Driver Unit := do
  mmioWrite32 (ep1ConfReg usbSerialJtagBase) ep1ConfWrDoneMask
  waitSerialInEmpty
  mmioWrite32 (intClrReg usbSerialJtagBase) intClrJtagInFlushIntClrMask

def usbSerialJtagPutc (c : Byte) : Driver Unit := do
  waitUsbSerialTxFifoFree
  mmioWrite32 (ep1Reg usbSerialJtagBase) (c.setWidth 32)
  usbSerialJtagFlush

/-- `stub_putc` of the USB test target; `char` is unsigned in the RISC-V ABI. -/
def stubPutc (c : Byte) : Driver (BitVec 32) := do
  usbSerialJtagPutc c
  return c.setWidth 32

end Esp32c6Fw.UsbSerialJtag
