import Esp32c6Fw.Wdt.Mode

namespace Esp32c6Fw.Wdt

open Mmio Soc

/-- A call of the driver, with any id at all. -/
inductive Call
  | lock (id : BitVec 32)
  | unlock (id : BitVec 32)
  | enable (id : BitVec 32)
  | disable (id : BitVec 32)
  | setFlashbootMode (id : BitVec 32) (enable : Bool)
  | feed (id : BitVec 32)
  | swdEnableAutoFeed
  deriving DecidableEq

namespace Call

/-- The call with its return code; `wdt_swd_enable_auto_feed` has none. -/
def prog : Call → Driver (Option Word)
  | lock id => do return some (← wdtLock id)
  | unlock id => do return some (← wdtUnlock id)
  | enable id => do return some (← wdtEnable id)
  | disable id => do return some (← wdtDisable id)
  | setFlashbootMode id on => do return some (← wdtSetFlashbootMode id on)
  | feed id => do return some (← wdtFeed id)
  | swdEnableAutoFeed => do
    wdtSwdEnableAutoFeed
    return none

def id : Call → BitVec 32
  | lock id | unlock id | enable id | disable id | setFlashbootMode id _ | feed id => id
  | swdEnableAutoFeed => Watchdog.super.id

end Call

def callAll : List Call → Driver (List (Option Word))
  | [] => return []
  | c :: cs => do
    let code ← c.prog
    let codes ← callAll cs
    return code :: codes

namespace Watchdog

def regs (w : Watchdog) : List Addr := w.wprotectReg :: w.guardedRegs

variable {w v : Watchdog}

theorem regs_disjoint (h : w ≠ v) {addr : Addr} (hw : addr ∈ w.regs) : addr ∉ v.regs := by
  intro hv
  rcases List.mem_cons.mp hw with rfl | hw
  · rcases List.mem_cons.mp hv with hv | hv
    · exact wprotectReg_ne h hv
    · have hg := guardOf_of_mem hv
      rw [guardOf_wprotectReg] at hg
      cases hg
  · have hg := guardOf_of_mem hw
    rcases List.mem_cons.mp hv with rfl | hv
    · rw [guardOf_wprotectReg] at hg
      cases hg
    · rw [guardOf_of_mem hv] at hg
      exact h (Option.some.inj hg).symm

theorem ofId_eq_some {id : BitVec 32} : ofId id = some w ↔ id = w.id := by
  refine ⟨fun h ↦ ?_, fun h ↦ by rw [h, ofId_id]⟩
  unfold ofId at h
  split at h
  · cases h
    assumption
  split at h
  · cases h
    assumption
  split at h
  · cases h
    assumption
  split at h
  · cases h
    assumption
  · cases h

end Watchdog

/-- The registers that the call accesses when its id is that of `w`. -/
def Call.accessed (w : Watchdog) : Call → List Addr
  | .lock _ | .unlock _ => [w.wprotectReg]
  | .enable _ | .disable _ => [(enableRow w).addr]
  | .setFlashbootMode .. => if w = .super then [] else [(flashbootRow w).addr]
  | .feed _ => [(feedRow w).addr]
  | .swdEnableAutoFeed => [Watchdog.super.wprotectReg, configReg .super]

def Call.Accesses (c : Call) (addr : Addr) : Prop :=
  ∃ w, Watchdog.ofId c.id = some w ∧ addr ∈ c.accessed w

section Straight

variable {F : Addr → Prop} {addr : Addr}

theorem straight_write (h : F addr) (v : Word) : Straight F (mmioWrite32 addr v) := ⟨h, trivial⟩

theorem straight_clrbits (h : F addr) (clear : Word) : Straight F (mmioClrbits32 addr clear) :=
  ⟨h, fun _ ↦ ⟨h, trivial⟩⟩

theorem straight_setbits (h : F addr) (set : Word) : Straight F (mmioSetbits32 addr set) :=
  ⟨h, fun _ ↦ ⟨h, trivial⟩⟩

theorem straight_clrsetbits (h : F addr) (clear set : Word) :
    Straight F (mmioClrsetbits32 addr clear set) := ⟨h, fun _ ↦ ⟨h, trivial⟩⟩

variable {id : BitVec 32}

theorem straight_wdtLock (h : ∀ w, Watchdog.ofId id = some w → F w.wprotectReg) :
    Straight F (wdtLock id) := by
  rw [wdtLock]
  cases hw : Watchdog.ofId id with
  | none => trivial
  | some w => exact (straight_write (h w hw) _).bind fun _ ↦ trivial

theorem straight_wdtUnlock (h : ∀ w, Watchdog.ofId id = some w → F w.wprotectReg) :
    Straight F (wdtUnlock id) := by
  rw [wdtUnlock]
  cases hw : Watchdog.ofId id with
  | none => trivial
  | some w => exact (straight_write (h w hw) _).bind fun _ ↦ trivial

theorem straight_wdtEnable (h : ∀ w, Watchdog.ofId id = some w → F (enableRow w).addr) :
    Straight F (wdtEnable id) := by
  rw [wdtEnable]
  cases hw : Watchdog.ofId id with
  | none => trivial
  | some w =>
    simp only
    split
    · exact (straight_clrbits (h w hw) _).bind fun _ ↦ trivial
    · exact (straight_setbits (h w hw) _).bind fun _ ↦ trivial

theorem straight_wdtDisable (h : ∀ w, Watchdog.ofId id = some w → F (enableRow w).addr) :
    Straight F (wdtDisable id) := by
  rw [wdtDisable]
  cases hw : Watchdog.ofId id with
  | none => trivial
  | some w =>
    simp only
    split
    · exact (straight_setbits (h w hw) _).bind fun _ ↦ trivial
    · exact (straight_clrsetbits (h w hw) _ _).bind fun _ ↦ trivial

theorem straight_wdtSetFlashbootMode {on : Bool}
    (h : ∀ w, Watchdog.ofId id = some w → w ≠ .super → F (flashbootRow w).addr) :
    Straight F (wdtSetFlashbootMode id on) := by
  rw [wdtSetFlashbootMode]
  cases hw : Watchdog.ofId id with
  | none => trivial
  | some w =>
    simp only
    split
    · trivial
    next hs =>
      split
      · exact (straight_setbits (h w hw hs) _).bind fun _ ↦ trivial
      · exact (straight_clrsetbits (h w hw hs) _ _).bind fun _ ↦ trivial

theorem straight_wdtFeed (h : ∀ w, Watchdog.ofId id = some w → F (feedRow w).addr) :
    Straight F (wdtFeed id) := by
  rw [wdtFeed]
  cases hw : Watchdog.ofId id with
  | none => trivial
  | some w => exact (straight_write (h w hw) _).bind fun _ ↦ trivial

theorem straight_wdtSwdEnableAutoFeed (hk : F Watchdog.super.wprotectReg)
    (hc : F (configReg .super)) : Straight F wdtSwdEnableAutoFeed := by
  have hkey : ∀ w, Watchdog.ofId Watchdog.super.id = some w → F w.wprotectReg := by
    intro w hw
    rw [Watchdog.ofId_id, Option.some.injEq] at hw
    exact hw ▸ hk
  refine (straight_wdtUnlock hkey).bind fun _ ↦ ?_
  exact (straight_setbits hc _).bind fun _ ↦ (straight_wdtLock hkey).bind fun _ ↦ trivial

end Straight

/-- A call waits for nothing and accesses only the registers of its tables. -/
theorem Call.straight (c : Call) : Straight c.Accesses c.prog := by
  cases c with
  | lock id =>
    exact (straight_wdtLock fun w h ↦ ⟨w, h, List.mem_singleton_self _⟩).bind fun _ ↦ trivial
  | unlock id =>
    exact (straight_wdtUnlock fun w h ↦ ⟨w, h, List.mem_singleton_self _⟩).bind fun _ ↦ trivial
  | enable id =>
    exact (straight_wdtEnable fun w h ↦ ⟨w, h, List.mem_singleton_self _⟩).bind fun _ ↦ trivial
  | disable id =>
    exact (straight_wdtDisable fun w h ↦ ⟨w, h, List.mem_singleton_self _⟩).bind fun _ ↦ trivial
  | setFlashbootMode id on =>
    refine (straight_wdtSetFlashbootMode fun w h hs ↦ ⟨w, h, ?_⟩).bind fun _ ↦ trivial
    rw [Call.accessed, if_neg hs]
    exact List.mem_singleton_self _
  | feed id =>
    exact (straight_wdtFeed fun w h ↦ ⟨w, h, List.mem_singleton_self _⟩).bind fun _ ↦ trivial
  | swdEnableAutoFeed =>
    refine (straight_wdtSwdEnableAutoFeed ?_ ?_).bind fun _ ↦ trivial
    · exact ⟨_, Watchdog.ofId_id .super, List.mem_cons_self ..⟩
    · exact ⟨_, Watchdog.ofId_id .super, List.mem_cons_of_mem _ (List.mem_singleton_self _)⟩

theorem Call.Accesses.mem_regs {c : Call} {addr : Addr} (h : c.Accesses addr) :
    ∃ w : Watchdog, c.id = w.id ∧ addr ∈ w.regs := by
  obtain ⟨w, hw, ha⟩ := h
  refine ⟨w, Watchdog.ofId_eq_some.mp hw, ?_⟩
  cases c with
  | lock | unlock =>
    rw [List.mem_singleton.mp ha]
    exact List.mem_cons_self ..
  | enable | disable =>
    rw [List.mem_singleton.mp ha]
    cases w <;> decide
  | feed =>
    rw [List.mem_singleton.mp ha]
    cases w <;> decide
  | setFlashbootMode =>
    rw [Call.accessed] at ha
    split at ha
    · cases ha
    next hs =>
      rw [List.mem_singleton.mp ha]
      revert hs
      cases w <;> decide
  | swdEnableAutoFeed =>
    cases Watchdog.ofId_id .super ▸ hw
    rcases List.mem_cons.mp ha with rfl | ha
    · decide
    · rw [List.mem_singleton.mp ha]
      decide

end Esp32c6Fw.Wdt
