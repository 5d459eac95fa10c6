import Esp32c6Fw.Lib.Rely
import Esp32c6Fw.Soc.Mmio

namespace Esp32c6Fw.UsbSerialJtag

open Mmio Soc

def ep1Reg (base : Addr) : Addr := base + 0x0000
def ep1ConfReg (base : Addr) : Addr := base + 0x0004
def intRawReg (base : Addr) : Addr := base + 0x0008
def intClrReg (base : Addr) : Addr := base + 0x0014

def ep1ConfWrDoneMask : Word := 0x00000001
def intClrJtagInFlushIntClrMask : Word := 0x00000001
def intRawSerialInEmptyIntRawMask : Word := 0x00000008

/-- The bit-field `in_ep_data_free : 1` of `union usb_serial_jtag_ep1_conf`. -/
def inEpDataFree (raw : Word) : Word := (raw >>> 1) &&& 1

/-- The bit-field `serial_in_empty_int_raw : 1` of `union usb_serial_jtag_int_raw`. -/
def serialInEmptyIntRaw (raw : Word) : Word := (raw >>> 3) &&& 1

/-- The registers as they read, the IN FIFO and what the host has received. -/
structure State where
  ep1Conf : Word
  intRaw : Word
  fifo : List Byte
  host : List Byte

def State.free (s : State) : Prop := inEpDataFree s.ep1Conf = 1

instance (s : State) : Decidable s.free := inferInstanceAs (Decidable (_ = _))

def load (s : State) (addr : Addr) : Word :=
  if addr = ep1ConfReg usbSerialJtagBase then s.ep1Conf
  else if addr = intRawReg usbSerialJtagBase then s.intRaw
  else 0

/-- A write to EP1 appends its byte if the FIFO has space and is lost if not;
it and `WR_DONE` may take the free bit away, and nothing else in here may.
Ones written to INT_CLR clear the bits of INT_RAW. -/
def store (s : State) (addr : Addr) (v : Word) (s' : State) : Prop :=
  if addr = ep1Reg usbSerialJtagBase then
    s' = { s with
      ep1Conf := s'.ep1Conf
      fifo := if s.free then s.fifo ++ [v.setWidth 8] else s.fifo }
  else if addr = ep1ConfReg usbSerialJtagBase ∧ v &&& ep1ConfWrDoneMask ≠ 0 then
    s' = { s with ep1Conf := s'.ep1Conf }
  else if addr = intClrReg usbSerialJtagBase then
    s' = { s with intRaw := s.intRaw &&& ~~~v }
  else s' = s

/-- The host takes bytes in order; space may appear but not vanish. -/
structure Env (s s' : State) : Prop where
  drain : ∃ taken, s.fifo = taken ++ s'.fifo ∧ s'.host = s.host ++ taken
  free : s.free → s'.free

def device : Device State Addr Word where
  load := load
  store := store
  env := Env

/-- Interrupt bits come on by themselves but do not go, and `SERIAL_IN_EMPTY`
comes on only once the host has taken everything. -/
structure LatchedEnv (s s' : State) : Prop extends Env s s' where
  sticky : s.intRaw &&& ~~~s'.intRaw = 0
  empty : serialInEmptyIntRaw s.intRaw = 0 → serialInEmptyIntRaw s'.intRaw ≠ 0 → s'.fifo = []

def latchedDevice : Device State Addr Word where
  load := load
  store := store
  env := LatchedEnv

end Esp32c6Fw.UsbSerialJtag
