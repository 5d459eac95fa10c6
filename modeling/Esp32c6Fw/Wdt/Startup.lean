import Esp32c6Fw.Wdt.Mode

namespace Esp32c6Fw.Wdt

open Mmio Soc Watchdog

/-- `init_wdt`, the same in both test targets. -/
def initWdt : Driver Unit := do
  let _ ← wdtUnlock rtc.id
  let _ ← wdtSetFlashbootMode rtc.id false
  let _ ← wdtDisable rtc.id
  let _ ← wdtLock rtc.id
  let _ ← wdtUnlock main0.id
  let _ ← wdtSetFlashbootMode main0.id false
  let _ ← wdtDisable main0.id
  let _ ← wdtLock main0.id
  wdtSwdEnableAutoFeed

def startupMask : Watchdog → Word
  | .rtc => wdtRwdtConfig0EnMask ||| wdtRwdtConfig0FlashbootModEnMask
  | .main0 => timgWdtconfig0EnMask ||| timgWdtconfig0FlashbootModEnMask
  | .super => wdtSwdConfigAutoFeedEnMask
  | .main1 => 0

/-- The writes allowed to `init_wdt`: none that the protection ignores, and to
the configuration of MAIN0 only with the update trigger. -/
def Effective (s : Regs) (addr : Addr) (v : Word) : Prop :=
  ¬ Ignored s addr ∧
    (addr ∈ main0.guardedRegs → addr = configReg main0 ∧
      v &&& timgWdtconfig0ConfUpdateEnMask = timgWdtconfig0ConfUpdateEnMask)

structure LeftSafe (s s' : Regs) : Prop where
  rtc : s' (configReg rtc) &&& startupMask rtc = 0
  main0 : s' (configReg main0) &&& startupMask main0 = 0
  super : s' (configReg super) &&& startupMask super = startupMask super
  locked : ∀ w, w ≠ main1 → ¬ Unlocked s' w
  bits : ∀ w, s' (configReg w) &&& ~~~(startupMask w ||| triggerMask (configReg w)) =
    s (configReg w) &&& ~~~(startupMask w ||| triggerMask (configReg w))
  others : ∀ addr, (∀ w, w ≠ main1 → addr ≠ configReg w ∧ addr ≠ w.wprotectReg) →
    s' addr = s addr

theorem effective_key (s : Regs) (w : Watchdog) (v : Word) : Effective s w.wprotectReg v := by
  refine ⟨?_, fun h ↦ ?_⟩
  · rintro ⟨x, hx, -⟩
    rw [guardOf_wprotectReg] at hx
    cases hx
  · have hg := guardOf_of_mem h
    rw [guardOf_wprotectReg] at hg
    cases hg

theorem effective_config {s : Regs} {w : Watchdog} {v : Word} (hs : Unlocked s w)
    (hv : w = main0 → v &&& timgWdtconfig0ConfUpdateEnMask = timgWdtconfig0ConfUpdateEnMask) :
    Effective s (configReg w) v := by
  refine ⟨?_, fun h ↦ ?_⟩
  · rintro ⟨x, hx, hn⟩
    rw [guardOf_configReg] at hx
    exact hn (Option.some.inj hx ▸ hs)
  · have hg := guardOf_of_mem h
    rw [guardOf_configReg] at hg
    have hw := Option.some.inj hg
    exact ⟨hw ▸ rfl, hv hw⟩

theorem does_unlock (s : Regs) (w : Watchdog) :
    Does bus Effective (wdtUnlock w.id) s 0 (Function.update s w.wprotectReg wdtUnlockKey) := by
  simp only [wdtUnlock, ofId_id]
  refine Does.write (effective_key s w _) ?_
  rw [bus_store, store_wprotectReg]
  exact Does.ret 0 _

theorem does_lock (s : Regs) (w : Watchdog) :
    Does bus Effective (wdtLock w.id) s 0 (Function.update s w.wprotectReg wdtLockKey) := by
  simp only [wdtLock, ofId_id]
  refine Does.write (effective_key s w _) ?_
  rw [bus_store, store_wprotectReg]
  exact Does.ret 0 _

theorem does_flashboot_off {s : Regs} {w : Watchdog} (hw : w = rtc ∨ w = main0)
    (hs : Unlocked s w) :
    Does bus Effective (wdtSetFlashbootMode w.id false) s 0
      (Function.update s (configReg w) (s (configReg w) &&&
        ~~~((flashbootRow w).maskFlashbootModEn ||| triggerMask (configReg w)))) := by
  have hsup : w ≠ .super := by rcases hw with rfl | rfl <;> decide
  have haddr : (flashbootRow w).addr = configReg w := by rcases hw with rfl | rfl <;> rfl
  have hU : (flashbootRow w).maskUpdate &&& ~~~triggerMask (configReg w) = 0 := by
    rcases hw with rfl | rfl <;> decide
  have h := does_clear (P := Effective) (M := (flashbootRow w).maskFlashbootModEn) hsup hs hU
    (fun v hv ↦ effective_config hs (by rintro rfl; exact hv))
  simp only [wdtSetFlashbootMode, ofId_id, hsup, if_false]
  rw [← haddr] at h ⊢
  exact h.bind (Does.ret 0 _)

def windowed (w : Watchdog) (s : Regs) : Regs :=
  Function.update (Function.update s (configReg w)
    (s (configReg w) &&& ~~~(startupMask w ||| triggerMask (configReg w))))
    w.wprotectReg wdtLockKey

theorem windowed_eq {s : Regs} {w : Watchdog} (hw : w = rtc ∨ w = main0) :
    let s₁ := Function.update s w.wprotectReg wdtUnlockKey
    let s₂ := Function.update s₁ (configReg w) (s₁ (configReg w) &&&
      ~~~((flashbootRow w).maskFlashbootModEn ||| triggerMask (configReg w)))
    let s₃ := Function.update s₂ (configReg w) (s₂ (configReg w) &&&
      ~~~(switchMask w ||| triggerMask (configReg w)))
    Function.update s₃ w.wprotectReg wdtLockKey = windowed w s := by
  intro s₁ s₂ s₃
  have hne := wprotectReg_ne_configReg w w
  have hmask : startupMask w = switchMask w ||| (flashbootRow w).maskFlashbootModEn := by
    rcases hw with rfl | rfl <;> rfl
  funext addr
  by_cases hk : addr = w.wprotectReg
  · simp only [windowed, hk, Function.update_self]
  · by_cases hc : addr = configReg w
    · simp only [s₁, s₂, s₃, windowed, hc, hne.symm, Function.update_self, ne_eq, not_false_eq_true,
        Function.update_of_ne, hmask]
      apply BitVec.eq_of_getLsbD_eq
      intro i hi
      simp only [BitVec.getLsbD_and, BitVec.getLsbD_or, BitVec.getLsbD_not, hi]
      grind
    · simp only [s₁, s₂, s₃, windowed, hk, hc, ne_eq, not_false_eq_true, Function.update_of_ne]

theorem does_window {α : Type} {s s' : Regs} {a : α} {w : Watchdog} {rest : Driver α}
    (hw : w = rtc ∨ w = main0) (h : Does bus Effective rest (windowed w s) a s') :
    Does bus Effective (do
      let _ ← wdtUnlock w.id
      let _ ← wdtSetFlashbootMode w.id false
      let _ ← wdtDisable w.id
      let _ ← wdtLock w.id
      rest) s a s' := by
  have hsup : w ≠ .super := by rcases hw with rfl | rfl <;> decide
  rw [← windowed_eq hw] at h
  have hs₁ : Unlocked (Function.update s w.wprotectReg wdtUnlockKey) w := Function.update_self ..
  refine (does_unlock s w).bind ((does_flashboot_off hw hs₁).bind ?_)
  refine Does.bind (does_disable hsup ?_ ?_) ((does_lock _ w).bind h)
  · exact unlocked_update_config w _ hs₁
  · exact fun v hv ↦ effective_config (unlocked_update_config w _ hs₁) (by rintro rfl; exact hv)

section Windowed

variable {s : Regs} {w v : Watchdog} {addr : Addr}

theorem windowed_config : windowed w s (configReg w) =
    s (configReg w) &&& ~~~(startupMask w ||| triggerMask (configReg w)) := by
  rw [windowed, Function.update_of_ne (wprotectReg_ne_configReg w w).symm, Function.update_self]

theorem windowed_wprotect : windowed w s w.wprotectReg = wdtLockKey := Function.update_self ..

theorem windowed_other (hc : addr ≠ configReg w) (hk : addr ≠ w.wprotectReg) :
    windowed w s addr = s addr := by
  rw [windowed, Function.update_of_ne hk, Function.update_of_ne hc]

theorem configReg_ne (h : v ≠ w) : configReg v ≠ configReg w := by
  intro he
  have hg := guardOf_configReg v
  rw [he, guardOf_configReg] at hg
  exact h (Option.some.inj hg).symm

theorem windowed_config_ne (h : v ≠ w) : windowed w s (configReg v) = s (configReg v) :=
  windowed_other (configReg_ne h) (wprotectReg_ne_configReg w v).symm

theorem windowed_wprotect_ne (h : v ≠ w) : windowed w s v.wprotectReg = s v.wprotectReg :=
  windowed_other (wprotectReg_ne_configReg v w) (wprotectReg_ne h)

end Windowed

def autoFed (s : Regs) : Regs :=
  Function.update (Function.update s (configReg super)
    ((s (configReg super) ||| startupMask super) &&& ~~~triggerMask (configReg super)))
    super.wprotectReg wdtLockKey

theorem settle_auto_feed (x : Word) :
    settle (configReg super) x ((x &&& ~~~triggerMask (configReg super)) ||| startupMask super) =
      (x ||| startupMask super) &&& ~~~triggerMask (configReg super) := by
  have hrt : readOnlyMask (configReg super) &&& triggerMask (configReg super) = 0 := by decide
  have hra : readOnlyMask (configReg super) &&& startupMask super = 0 := by decide
  apply BitVec.eq_of_getLsbD_eq
  intro i hi
  have hrt' := congrArg (fun v : Word ↦ v.getLsbD i) hrt
  have hra' := congrArg (fun v : Word ↦ v.getLsbD i) hra
  simp only [settle, BitVec.getLsbD_and, BitVec.getLsbD_or, BitVec.getLsbD_not, hi] at hrt' hra' ⊢
  simp at hrt' hra'
  grind

theorem does_auto_feed (s : Regs) : Does bus Effective wdtSwdEnableAutoFeed s () (autoFed s) := by
  let s₁ := Function.update s super.wprotectReg wdtUnlockKey
  let s₂ := Function.update s₁ (configReg super)
    ((s (configReg super) ||| startupMask super) &&& ~~~triggerMask (configReg super))
  have hs₁ : Unlocked s₁ super := Function.update_self ..
  have hst : store s₁ (configReg super) (load s₁ (configReg super) ||| startupMask super) = s₂ := by
    have hc : s₁ (configReg super) = s (configReg super) :=
      Function.update_of_ne (wprotectReg_ne_configReg super super).symm ..
    rw [store_unlocked _ (guardOf_configReg super) hs₁, load, hc, settle_auto_feed]
  have hset :
      Does bus Effective (mmioSetbits32 (configReg super) (startupMask super)) s₁ () s₂ := by
    refine Does.read (Does.write (effective_config hs₁ (by rintro ⟨⟩)) ?_)
    rw [bus_store, bus_load, hst]
    exact Does.ret () _
  have hfed : Function.update s₂ super.wprotectReg wdtLockKey = autoFed s := by
    simp only [s₂, s₁, autoFed]
    rw [Function.update_comm (wprotectReg_ne_configReg super super), Function.update_idem]
  refine (does_unlock s super).bind (hset.bind ((does_lock s₂ super).bind ?_))
  rw [hfed]
  exact Does.ret () _

section AutoFed

variable {s : Regs} {v : Watchdog} {addr : Addr}

theorem autoFed_config : autoFed s (configReg super) =
    (s (configReg super) ||| startupMask super) &&& ~~~triggerMask (configReg super) := by
  rw [autoFed, Function.update_of_ne (wprotectReg_ne_configReg super super).symm,
    Function.update_self]

theorem autoFed_wprotect : autoFed s super.wprotectReg = wdtLockKey := Function.update_self ..

theorem autoFed_other (hc : addr ≠ configReg super) (hk : addr ≠ super.wprotectReg) :
    autoFed s addr = s addr := by
  rw [autoFed, Function.update_of_ne hk, Function.update_of_ne hc]

theorem autoFed_config_ne (h : v ≠ super) : autoFed s (configReg v) = s (configReg v) :=
  autoFed_other (configReg_ne h) (wprotectReg_ne_configReg super v).symm

theorem autoFed_wprotect_ne (h : v ≠ super) : autoFed s v.wprotectReg = s v.wprotectReg :=
  autoFed_other (wprotectReg_ne_configReg v super) (wprotectReg_ne h)

end AutoFed

theorem init_leaves_safe (s : Regs) : LeftSafe s (autoFed (windowed main0 (windowed rtc s))) := by
  have hr : autoFed (windowed main0 (windowed rtc s)) (configReg rtc) =
      s (configReg rtc) &&& ~~~(startupMask rtc ||| triggerMask (configReg rtc)) := by
    rw [autoFed_config_ne (by decide), windowed_config_ne (by decide), windowed_config]
  have hm : autoFed (windowed main0 (windowed rtc s)) (configReg main0) =
      s (configReg main0) &&& ~~~(startupMask main0 ||| triggerMask (configReg main0)) := by
    rw [autoFed_config_ne (by decide), windowed_config, windowed_config_ne (by decide)]
  have hs : autoFed (windowed main0 (windowed rtc s)) (configReg super) =
      (s (configReg super) ||| startupMask super) &&& ~~~triggerMask (configReg super) := by
    rw [autoFed_config, windowed_config_ne (by decide), windowed_config_ne (by decide)]
  have h1 : autoFed (windowed main0 (windowed rtc s)) (configReg main1) = s (configReg main1) := by
    rw [autoFed_config_ne (by decide), windowed_config_ne (by decide),
      windowed_config_ne (by decide)]
  refine ⟨by rw [hr, cleared_masked], by rw [hm, cleared_masked], ?_, ?_, ?_, ?_⟩
  · rw [hs, set_masked (by decide)]
  · intro w hw hu
    have hk : autoFed (windowed main0 (windowed rtc s)) w.wprotectReg = wdtLockKey := by
      cases w with
      | main0 => rw [autoFed_wprotect_ne (by decide), windowed_wprotect]
      | main1 => exact absurd rfl hw
      | rtc =>
        rw [autoFed_wprotect_ne (by decide), windowed_wprotect_ne (by decide), windowed_wprotect]
      | super => exact autoFed_wprotect
    rw [Unlocked, hk] at hu
    exact absurd hu (by decide)
  · intro w
    cases w
    · rw [hm, BitVec.and_assoc, BitVec.and_self]
    · rw [h1]
    · rw [hr, BitVec.and_assoc, BitVec.and_self]
    · rw [hs, set_elsewhere]
  · intro addr h
    have hs := h super (by decide)
    have hr := h rtc (by decide)
    have hm := h main0 (by decide)
    rw [autoFed_other hs.1 hs.2, windowed_other hm.1 hm.2, windowed_other hr.1 hr.2]

/-- `init_wdt` leaves every watchdog it touches off or fed, locked again, and
changes nothing else, whatever the registers held. -/
theorem init_wdt_leaves_safe (s : Regs) :
    ∃ s' t, exec bus initWdt s = some ⟨(), s', t⟩ ∧ LeftSafe s s' ∧ EveryWrite Effective t := by
  obtain ⟨t, ht, hP⟩ := does_window (s := s) (.inl rfl) (does_window (.inr rfl) (does_auto_feed _))
  exact ⟨_, t, ht, init_leaves_safe s, hP⟩

end Esp32c6Fw.Wdt
