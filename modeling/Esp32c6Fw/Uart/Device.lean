import Esp32c6Fw.Lib.Rely
import Esp32c6Fw.Soc.Mmio
import Mathlib.Logic.Function.Basic

namespace Esp32c6Fw.Uart

open Mmio Soc

/-- The channels below `NR_UART_CH`. -/
abbrev Channel := Fin 2

def uartSize : Addr := 0x1000

def uartBases : Channel → Addr
  | 0 => uart0Base
  | 1 => uart1Base

def uartFifoOfs : Addr := 0x00
def uartIntStOfs : Addr := 0x08
def uartIntEnaOfs : Addr := 0x0C
def uartIntClrOfs : Addr := 0x10
def uartRegUpdateOfs : Addr := 0x98

def uartFifoReg (base : Addr) : Addr := base + uartFifoOfs
def uartIntStReg (base : Addr) : Addr := base + uartIntStOfs
def uartIntEnaReg (base : Addr) : Addr := base + uartIntEnaOfs
def uartIntClrReg (base : Addr) : Addr := base + uartIntClrOfs
def uartRegUpdateReg (base : Addr) : Addr := base + uartRegUpdateOfs

/-- The bit-field `TXFIFO_EMPTY_INT_ST : 1` of `union UART_INT_ST`. -/
def txfifoEmptyIntSt (raw : Word) : Word := (raw >>> 1) &&& 1

/-- The bit-field `UPDATE : 1` of `union UART_REG_UPDATE`. -/
def update (raw : Word) : Word := raw &&& 1

/-- `TXFIFO_EMPTY` in a word of interrupt bits, and the word without it. -/
abbrev TxfifoEmpty (ints : Word) : Prop := ints.getLsbD 1 = true
def otherInts (ints : Word) : Word := ints &&& ~~~0x2

def fifoDepth : ℕ := 128

/-- One UART: the registers the driver uses, the TX FIFO and what has left it. -/
structure TxPort where
  regUpdate : Word
  intRaw : Word
  intEna : Word
  fifo : List Byte
  line : List Byte

namespace TxPort

def load (p : TxPort) (ofs : Addr) : Word :=
  if ofs = uartIntStOfs then p.intRaw &&& p.intEna
  else if ofs = uartIntEnaOfs then p.intEna
  else if ofs = uartRegUpdateOfs then p.regUpdate
  else 0

def store (p : TxPort) (ofs : Addr) (v : Word) : TxPort :=
  if ofs = uartFifoOfs then
    { p with fifo := if p.fifo.length < fifoDepth then p.fifo ++ [v.setWidth 8] else p.fifo }
  else if ofs = uartIntEnaOfs then { p with intEna := v }
  else if ofs = uartIntClrOfs then { p with intRaw := p.intRaw &&& ~~~v }
  else p

/-- The transmitter takes bytes in order, and `TXFIFO_EMPTY` comes on only below the
threshold, sooner or later. The other interrupts come and go. -/
structure Env (threshold : ℕ) (p p' : TxPort) : Prop where
  drain : ∃ sent, p.fifo = sent ++ p'.fifo ∧ p'.line = p.line ++ sent
  ena : p'.intEna = p.intEna
  empty : TxfifoEmpty p'.intRaw → TxfifoEmpty p.intRaw ∨ p'.fifo.length < threshold

end TxPort

abbrev TxPorts := Channel → TxPort

/-- The channel whose registers an address is among, and the offset there. -/
def decode (addr : Addr) : Option (Channel × Addr) :=
  if addr - uart0Base < uartSize then some (0, addr - uart0Base)
  else if addr - uart1Base < uartSize then some (1, addr - uart1Base)
  else none

def load (s : TxPorts) (addr : Addr) : Word :=
  match decode addr with
  | some (ch, ofs) => (s ch).load ofs
  | none => 0

def store (s : TxPorts) (addr : Addr) (v : Word) : TxPorts :=
  match decode addr with
  | some (ch, ofs) => Function.update s ch ((s ch).store ofs v)
  | none => s

/-- The UARTs, with a threshold of at most 127 each. -/
def device (threshold : Channel → Fin 128) : Device TxPorts Addr Word where
  load := load
  store s addr v s' := s' = store s addr v
  env s s' := ∀ ch, (s ch).Env (threshold ch) (s' ch)

theorem add_sub_base (base ofs : Addr) : base + ofs - base = ofs := by
  rw [BitVec.add_comm, BitVec.add_sub_cancel]

theorem uart1_not_uart0 {ofs : Addr} (h : ofs < uartSize) :
    ¬ uart1Base + ofs - uart0Base < uartSize := by
  have hb : uart1Base = uart0Base + uartSize := by decide
  have hs : uartSize.toNat = 0x1000 := rfl
  have ho := BitVec.lt_def.mp h
  rw [hb, BitVec.add_assoc, add_sub_base, BitVec.lt_def, BitVec.toNat_add]
  omega

theorem decode_reg (ch : Channel) {ofs : Addr} (h : ofs < uartSize) :
    decode (uartBases ch + ofs) = some (ch, ofs) := by
  match ch with
  | 0 => rw [uartBases, decode, add_sub_base, if_pos h]
  | 1 => rw [uartBases, decode, if_neg (uart1_not_uart0 h), add_sub_base, if_pos h]

theorem load_reg (s : TxPorts) (ch : Channel) {ofs : Addr} (h : ofs < uartSize) :
    load s (uartBases ch + ofs) = (s ch).load ofs := by rw [load, decode_reg ch h]

theorem store_reg (s : TxPorts) (ch : Channel) {ofs : Addr} (h : ofs < uartSize) (v : Word) :
    store s (uartBases ch + ofs) v = Function.update s ch ((s ch).store ofs v) := by
  rw [store, decode_reg ch h]

end Esp32c6Fw.Uart
