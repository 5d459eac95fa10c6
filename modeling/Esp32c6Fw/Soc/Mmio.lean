import Esp32c6Fw.Lib.Mmio

namespace Esp32c6Fw.Soc

open Mmio

abbrev Addr := BitVec 32
abbrev Word := BitVec 32
abbrev Byte := BitVec 8

def periBase : Addr := 0x60000000
def uart0Base : Addr := periBase + 0x0
def uart1Base : Addr := periBase + 0x1000
def timg0Base : Addr := periBase + 0x8000
def timg1Base : Addr := periBase + 0x9000
def usbSerialJtagBase : Addr := periBase + 0xF000
def rtcWdtBase : Addr := periBase + 0xB1C00

abbrev Driver (α : Type) := Prog Addr Word α

def mmioRead32 (addr : Addr) : Driver Word := .read addr .ret

def mmioWrite32 (addr : Addr) (value : Word) : Driver Unit := .write addr value (.ret ())

def mmioClrbits32 (addr : Addr) (clear : Word) : Driver Unit := do
  let v ← mmioRead32 addr
  mmioWrite32 addr (v &&& ~~~clear)

def mmioSetbits32 (addr : Addr) (set : Word) : Driver Unit := do
  let v ← mmioRead32 addr
  mmioWrite32 addr (v ||| set)

def mmioClrsetbits32 (addr : Addr) (clear set : Word) : Driver Unit := do
  let v ← mmioRead32 addr
  mmioWrite32 addr ((v &&& ~~~clear) ||| set)

end Esp32c6Fw.Soc
