import Esp32c6Fw.Wdt.Registers

namespace Esp32c6Fw.Wdt

open Mmio Soc

def wdtLock (id : BitVec 32) : Driver Word := do
  match Watchdog.ofId id with
  | none => return 1
  | some w =>
    mmioWrite32 w.wprotectReg wdtLockKey
    return 0

def wdtUnlock (id : BitVec 32) : Driver Word := do
  match Watchdog.ofId id with
  | none => return 1
  | some w =>
    mmioWrite32 w.wprotectReg wdtUnlockKey
    return 0

structure EnableRow where
  addr : Addr
  maskEn : Word
  maskUpdate : Word

/-- Both functions carry this table. The row of the super watchdog names its
write-protect register, not its configuration register. -/
def enableRow : Watchdog → EnableRow
  | .main0 => ⟨timgWdtconfig0Reg timg0Base, timgWdtconfig0EnMask, timgWdtconfig0ConfUpdateEnMask⟩
  | .main1 => ⟨timgWdtconfig0Reg timg1Base, timgWdtconfig0EnMask, timgWdtconfig0ConfUpdateEnMask⟩
  | .rtc => ⟨wdtRwdtConfig0Reg rtcWdtBase, wdtRwdtConfig0EnMask, 0x0⟩
  | .super => ⟨wdtSwdWprotectReg rtcWdtBase, wdtSwdConfigDisableMask, 0x0⟩

def wdtEnable (id : BitVec 32) : Driver Word := do
  match Watchdog.ofId id with
  | none => return 1
  | some w =>
    let row := enableRow w
    if w = .super then
      mmioClrbits32 row.addr row.maskEn
    else
      mmioSetbits32 row.addr (row.maskEn ||| row.maskUpdate)
    return 0

def wdtDisable (id : BitVec 32) : Driver Word := do
  match Watchdog.ofId id with
  | none => return 1
  | some w =>
    let row := enableRow w
    if w = .super then
      mmioSetbits32 row.addr row.maskEn
    else
      mmioClrsetbits32 row.addr row.maskEn row.maskUpdate
    return 0

structure FlashbootRow where
  addr : Addr
  maskFlashbootModEn : Word
  maskUpdate : Word

/-- The table of `wdt_set_flashboot_mode`; its entry for the super watchdog
is left to zero and never used. -/
def flashbootRow : Watchdog → FlashbootRow
  | .main0 => ⟨timgWdtconfig0Reg timg0Base, timgWdtconfig0FlashbootModEnMask,
      timgWdtconfig0ConfUpdateEnMask⟩
  | .main1 => ⟨timgWdtconfig0Reg timg1Base, timgWdtconfig0FlashbootModEnMask,
      timgWdtconfig0ConfUpdateEnMask⟩
  | .rtc => ⟨wdtRwdtConfig0Reg rtcWdtBase, wdtRwdtConfig0FlashbootModEnMask, 0x0⟩
  | .super => ⟨0x0, 0x0, 0x0⟩

def wdtSetFlashbootMode (id : BitVec 32) (enable : Bool) : Driver Word := do
  match Watchdog.ofId id with
  | none => return 1
  | some w =>
    if w = .super then
      return 1
    let row := flashbootRow w
    if enable then
      mmioSetbits32 row.addr (row.maskFlashbootModEn ||| row.maskUpdate)
    else
      mmioClrsetbits32 row.addr row.maskFlashbootModEn row.maskUpdate
    return 0

structure FeedRow where
  addr : Addr
  maskFeed : Word

def feedRow : Watchdog → FeedRow
  | .main0 => ⟨timgWdtfeedReg timg0Base, 0x1⟩
  | .main1 => ⟨timgWdtfeedReg timg1Base, 0x1⟩
  | .rtc => ⟨wdtRwdtFeedReg rtcWdtBase, wdtRwdtFeedFeedMask⟩
  | .super => ⟨wdtSwdConfigReg rtcWdtBase, wdtSwdConfigFeedMask⟩

def wdtFeed (id : BitVec 32) : Driver Word := do
  match Watchdog.ofId id with
  | none => return 1
  | some w =>
    mmioWrite32 (feedRow w).addr (feedRow w).maskFeed
    return 0

def wdtSwdEnableAutoFeed : Driver Unit := do
  let _ ← wdtUnlock Watchdog.super.id
  mmioSetbits32 (wdtSwdConfigReg rtcWdtBase) wdtSwdConfigAutoFeedEnMask
  let _ ← wdtLock Watchdog.super.id

end Esp32c6Fw.Wdt
