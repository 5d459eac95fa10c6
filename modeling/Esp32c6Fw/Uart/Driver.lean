import Esp32c6Fw.Uart.Device

namespace Esp32c6Fw.Uart

open Mmio Soc

def waitForUpdate (ch : Channel) : Driver Unit :=
  .poll (uartRegUpdateReg (uartBases ch)) (fun raw ↦ update raw = 0) (fun _ ↦ .ret ())

/-- The masks are `TXFIFO_EMPTY_INT_ENA`, `TXFIFO_EMPTY_INT_CLR` and again the first. -/
def uartTxChar (ch : Channel) (c : Byte) : Driver (BitVec 32) := do
  waitForUpdate ch
  mmioClrbits32 (uartIntEnaReg (uartBases ch)) 0x2
  mmioWrite32 (uartFifoReg (uartBases ch)) (c.setWidth 32 &&& 0xFF)
  mmioSetbits32 (uartIntClrReg (uartBases ch)) 0x2
  mmioSetbits32 (uartIntEnaReg (uartBases ch)) 0x2
  .poll (uartIntStReg (uartBases ch)) (fun raw ↦ txfifoEmptyIntSt raw ≠ 0) (fun _ ↦ .ret ())
  return 0

end Esp32c6Fw.Uart
