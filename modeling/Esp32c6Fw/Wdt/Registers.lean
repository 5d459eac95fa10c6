import Esp32c6Fw.Soc.Mmio
import Mathlib.Logic.Function.Basic

namespace Esp32c6Fw.Wdt

open Mmio Soc

abbrev Regs := Addr → Word

def timgWdtconfig0Reg (base : Addr) : Addr := base + 0x0048
def timgWdtconfig1Reg (base : Addr) : Addr := base + 0x004C
def timgWdtconfig2Reg (base : Addr) : Addr := base + 0x0050
def timgWdtconfig3Reg (base : Addr) : Addr := base + 0x0054
def timgWdtconfig4Reg (base : Addr) : Addr := base + 0x0058
def timgWdtconfig5Reg (base : Addr) : Addr := base + 0x005C
def timgWdtfeedReg (base : Addr) : Addr := base + 0x0060
def timgWdtwprotectReg (base : Addr) : Addr := base + 0x0064

def wdtRwdtConfig0Reg (base : Addr) : Addr := base + 0x0000
def wdtRwdtConfig1Reg (base : Addr) : Addr := base + 0x0004
def wdtRwdtConfig2Reg (base : Addr) : Addr := base + 0x0008
def wdtRwdtConfig3Reg (base : Addr) : Addr := base + 0x000C
def wdtRwdtConfig4Reg (base : Addr) : Addr := base + 0x0010
def wdtRwdtFeedReg (base : Addr) : Addr := base + 0x0014
def wdtRwdtWprotectReg (base : Addr) : Addr := base + 0x0018
def wdtSwdConfigReg (base : Addr) : Addr := base + 0x001C
def wdtSwdWprotectReg (base : Addr) : Addr := base + 0x0020

def timgWdtconfig0FlashbootModEnMask : Word := 0x00004000
def timgWdtconfig0ConfUpdateEnMask : Word := 0x00400000
def timgWdtconfig0EnMask : Word := 0x80000000
def timgWdtconfig1DivcntRstMask : Word := 0x00000001
def timgWdtfeedFeedMask : Word := 0xFFFFFFFF
def wdtRwdtConfig0FlashbootModEnMask : Word := 0x00001000
def wdtRwdtConfig0EnMask : Word := 0x80000000
def wdtRwdtFeedFeedMask : Word := 0x80000000
def wdtSwdConfigResetFlagMask : Word := 0x00000001
def wdtSwdConfigAutoFeedEnMask : Word := 0x00040000
def wdtSwdConfigRstFlagClrMask : Word := 0x00080000
def wdtSwdConfigDisableMask : Word := 0x40000000
def wdtSwdConfigFeedMask : Word := 0x80000000

inductive Watchdog | main0 | main1 | rtc | super
  deriving DecidableEq

namespace Watchdog

def id : Watchdog → BitVec 32
  | main0 => 0
  | main1 => 1
  | rtc => 2
  | super => 3

/-- A parameter of type `enum wdt_id` holds any unsigned int; from
`NR_WDT_ID` on it names no watchdog. -/
def ofId (id : BitVec 32) : Option Watchdog :=
  if id = 0 then some main0
  else if id = 1 then some main1
  else if id = 2 then some rtc
  else if id = 3 then some super
  else none

@[simp] theorem ofId_id (w : Watchdog) : ofId w.id = some w := by
  cases w <;> decide

def wprotectReg : Watchdog → Addr
  | main0 => timgWdtwprotectReg timg0Base
  | main1 => timgWdtwprotectReg timg1Base
  | rtc => wdtRwdtWprotectReg rtcWdtBase
  | super => wdtSwdWprotectReg rtcWdtBase

def guardedRegs : Watchdog → List Addr
  | main0 => timgRegs timg0Base
  | main1 => timgRegs timg1Base
  | rtc =>
    [wdtRwdtConfig0Reg rtcWdtBase, wdtRwdtConfig1Reg rtcWdtBase, wdtRwdtConfig2Reg rtcWdtBase,
      wdtRwdtConfig3Reg rtcWdtBase, wdtRwdtConfig4Reg rtcWdtBase, wdtRwdtFeedReg rtcWdtBase]
  | super => [wdtSwdConfigReg rtcWdtBase]
where
  timgRegs (base : Addr) : List Addr :=
    [timgWdtconfig0Reg base, timgWdtconfig1Reg base, timgWdtconfig2Reg base,
      timgWdtconfig3Reg base, timgWdtconfig4Reg base, timgWdtconfig5Reg base,
      timgWdtfeedReg base]

end Watchdog

def guardOf (addr : Addr) : Option Watchdog :=
  [Watchdog.main0, .main1, .rtc, .super].find? (fun w ↦ addr ∈ w.guardedRegs)

/-- The write-trigger bits (access `WT`) of the watchdog registers. -/
def triggerMask (addr : Addr) : Word :=
  if addr = timgWdtconfig0Reg timg0Base ∨ addr = timgWdtconfig0Reg timg1Base then
    timgWdtconfig0ConfUpdateEnMask
  else if addr = timgWdtconfig1Reg timg0Base ∨ addr = timgWdtconfig1Reg timg1Base then
    timgWdtconfig1DivcntRstMask
  else if addr = timgWdtfeedReg timg0Base ∨ addr = timgWdtfeedReg timg1Base then
    timgWdtfeedFeedMask
  else if addr = wdtRwdtFeedReg rtcWdtBase then wdtRwdtFeedFeedMask
  else if addr = wdtSwdConfigReg rtcWdtBase then
    wdtSwdConfigRstFlagClrMask ||| wdtSwdConfigFeedMask
  else 0

/-- The bits only the hardware writes (access `RO`). -/
def readOnlyMask (addr : Addr) : Word :=
  if addr = wdtSwdConfigReg rtcWdtBase then wdtSwdConfigResetFlagMask else 0

def wdtUnlockKey : Word := 0x50D83AA1
def wdtLockKey : Word := 0x00000000

def Unlocked (s : Regs) (w : Watchdog) : Prop := s w.wprotectReg = wdtUnlockKey

instance (s : Regs) (w : Watchdog) : Decidable (Unlocked s w) :=
  inferInstanceAs (Decidable (s w.wprotectReg = wdtUnlockKey))

def Ignored (s : Regs) (addr : Addr) : Prop := ∃ w, guardOf addr = some w ∧ ¬ Unlocked s w

/-- What a register holds after `v` is written to it: read-only bits keep
their value and write-trigger bits fall back to 0. -/
def settle (addr : Addr) (old v : Word) : Word :=
  (old &&& readOnlyMask addr) ||| (v &&& ~~~readOnlyMask addr &&& ~~~triggerMask addr)

def load (s : Regs) (addr : Addr) : Word := s addr &&& ~~~triggerMask addr

def store (s : Regs) (addr : Addr) (v : Word) : Regs :=
  match guardOf addr with
  | some w =>
    if Unlocked s w then Function.update s addr (settle addr (s addr) v) else s
  | none => Function.update s addr (settle addr (s addr) v)

def bus : Bus Regs Addr Word where
  load := load
  store := store

theorem bus_load (s : Regs) (addr : Addr) : bus.load s addr = load s addr := rfl

theorem bus_store (s : Regs) (addr : Addr) (v : Word) : bus.store s addr v = store s addr v := rfl

end Esp32c6Fw.Wdt
