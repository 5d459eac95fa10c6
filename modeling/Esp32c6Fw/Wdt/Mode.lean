import Esp32c6Fw.Wdt.Driver

namespace Esp32c6Fw.Wdt

open Mmio Soc Watchdog

def configReg : Watchdog → Addr
  | .main0 => timgWdtconfig0Reg timg0Base
  | .main1 => timgWdtconfig0Reg timg1Base
  | .rtc => wdtRwdtConfig0Reg rtcWdtBase
  | .super => wdtSwdConfigReg rtcWdtBase

def switchMask : Watchdog → Word
  | .main0 | .main1 => timgWdtconfig0EnMask
  | .rtc => wdtRwdtConfig0EnMask
  | .super => wdtSwdConfigDisableMask

def Disabled (s : Regs) (w : Watchdog) : Prop :=
  s (configReg w) &&& switchMask w = if w = .super then switchMask w else 0

def Enabled (s : Regs) (w : Watchdog) : Prop :=
  s (configReg w) &&& switchMask w = if w = .super then 0 else switchMask w

/-- From `s` to `s'` nothing changed but the enable bit of `w` and
write-trigger bits beside it, and `w` is unlocked. -/
structure OnlySwitched (w : Watchdog) (s s' : Regs) : Prop where
  unlocked : Unlocked s' w
  others : ∀ addr, addr ≠ configReg w → s' addr = s addr
  bits : s' (configReg w) &&& ~~~(switchMask w ||| triggerMask (configReg w)) =
    s (configReg w) &&& ~~~(switchMask w ||| triggerMask (configReg w))

/-- `wdt_disable` and `wdt_enable` do in state `s` what their names say. -/
structure SwitchesCorrectly (s : Regs) (w : Watchdog) : Prop where
  disable : ∃ s' t, exec bus (wdtDisable w.id) s = some ⟨0, s', t⟩ ∧
    Disabled s' w ∧ OnlySwitched w s s'
  enable : ∃ s' t, exec bus (wdtEnable w.id) s = some ⟨0, s', t⟩ ∧
    Enabled s' w ∧ OnlySwitched w s s'

section Words

variable {x T M U : Word}

theorem clear_settled (hU : U &&& ~~~T = 0) :
    (((x &&& ~~~T) &&& ~~~M) ||| U) &&& ~~~T = x &&& ~~~(M ||| T) := by
  apply BitVec.eq_of_getLsbD_eq
  intro i hi
  have hu := congrArg (fun w : Word ↦ w.getLsbD i) hU
  simp [hi] at hu ⊢
  cases h : x.getLsbD i <;> cases h' : T.getLsbD i <;> simp_all

theorem set_settled (hU : U &&& ~~~T = 0) :
    ((x &&& ~~~T) ||| (M ||| U)) &&& ~~~T = (x ||| M) &&& ~~~T := by
  apply BitVec.eq_of_getLsbD_eq
  intro i hi
  have hu := congrArg (fun w : Word ↦ w.getLsbD i) hU
  simp [hi] at hu ⊢
  cases h : x.getLsbD i <;> cases h' : T.getLsbD i <;> simp_all

theorem set_elsewhere : ((x ||| M) &&& ~~~T) &&& ~~~(M ||| T) = x &&& ~~~(M ||| T) := by
  apply BitVec.eq_of_getLsbD_eq
  intro i hi
  simp only [BitVec.getLsbD_and, BitVec.getLsbD_or, BitVec.getLsbD_not, hi]
  cases x.getLsbD i <;> cases M.getLsbD i <;> cases T.getLsbD i <;> rfl

theorem cleared_masked : (x &&& ~~~(M ||| T)) &&& M = 0 := by
  apply BitVec.eq_of_getLsbD_eq
  intro i hi
  simp only [BitVec.getLsbD_and, BitVec.getLsbD_or, BitVec.getLsbD_not, hi]
  cases x.getLsbD i <;> cases M.getLsbD i <;> cases T.getLsbD i <;> simp

theorem set_masked (h : M &&& T = 0) : ((x ||| M) &&& ~~~T) &&& M = M := by
  apply BitVec.eq_of_getLsbD_eq
  intro i hi
  have h' := congrArg (fun v : Word ↦ v.getLsbD i) h
  simp [hi] at h' ⊢
  tauto

end Words

theorem store_plain {s : Regs} {addr : Addr} (v : Word) (hg : guardOf addr = none) :
    store s addr v = Function.update s addr (settle addr (s addr) v) := by
  simp only [store, hg]

theorem store_unlocked {s : Regs} {addr : Addr} {w : Watchdog} (v : Word)
    (hg : guardOf addr = some w) (hs : Unlocked s w) :
    store s addr v = Function.update s addr (settle addr (s addr) v) := by
  simp only [store, hg, hs, if_true]

theorem store_of_ne {s : Regs} {addr a : Addr} (h : a ≠ addr) (v : Word) :
    store s addr v a = s a := by
  unfold store
  cases guardOf addr with
  | none => exact Function.update_of_ne h _ _
  | some w =>
    simp only
    split
    · exact Function.update_of_ne h _ _
    · rfl

theorem guardOf_configReg (w : Watchdog) : guardOf (configReg w) = some w := by
  cases w <;> decide

theorem guardOf_wprotectReg (w : Watchdog) : guardOf w.wprotectReg = none := by
  cases w <;> decide

theorem wprotectReg_ne_configReg (w v : Watchdog) : w.wprotectReg ≠ configReg v := by
  cases w <;> cases v <;> decide

theorem guardOf_of_mem {w : Watchdog} {addr : Addr} (h : addr ∈ w.guardedRegs) :
    guardOf addr = some w := by
  have hall : w.guardedRegs.all (fun a ↦ guardOf a = some w) = true := by
    cases w <;> decide
  exact of_decide_eq_true (List.all_eq_true.mp hall addr h)

theorem wprotectReg_ne {w v : Watchdog} (h : w ≠ v) : w.wprotectReg ≠ v.wprotectReg := by
  revert h
  cases w <;> cases v <;> decide

theorem and_not_zero (v : Word) : v &&& ~~~0 = v := BitVec.and_allOnes

theorem settle_writable {addr : Addr} (old v : Word) (hr : readOnlyMask addr = 0) :
    settle addr old v = v &&& ~~~triggerMask addr := by
  rw [settle, hr, and_not_zero]
  simp

theorem readOnlyMask_wprotectReg (w : Watchdog) : readOnlyMask w.wprotectReg = 0 := by
  cases w <;> decide

theorem triggerMask_wprotectReg (w : Watchdog) : triggerMask w.wprotectReg = 0 := by
  cases w <;> decide

theorem readOnlyMask_configReg {w : Watchdog} (hw : w ≠ .super) :
    readOnlyMask (configReg w) = 0 := by
  cases w <;> first | decide | contradiction

theorem store_wprotectReg (s : Regs) (w : Watchdog) (v : Word) :
    store s w.wprotectReg v = Function.update s w.wprotectReg v := by
  rw [store_plain v (guardOf_wprotectReg w), settle_writable _ _ (readOnlyMask_wprotectReg w),
    triggerMask_wprotectReg, and_not_zero]

theorem does_clear {P : Regs → Addr → Word → Prop} {s : Regs} {w : Watchdog} {M U : Word}
    (hw : w ≠ .super) (hs : Unlocked s w) (hU : U &&& ~~~triggerMask (configReg w) = 0)
    (hP : ∀ v, v &&& U = U → P s (configReg w) v) :
    Does bus P (mmioClrsetbits32 (configReg w) M U) s ()
      (Function.update s (configReg w)
        (s (configReg w) &&& ~~~(M ||| triggerMask (configReg w)))) := by
  refine Does.read (Does.write (hP _ ?_) ?_)
  · apply BitVec.eq_of_getLsbD_eq
    intro i hi
    simp
    tauto
  · have hst := store_unlocked ((load s (configReg w) &&& ~~~M) ||| U) (guardOf_configReg w) hs
    rw [settle_writable _ _ (readOnlyMask_configReg hw), load, clear_settled hU] at hst
    rw [← hst]
    exact Does.ret () _

theorem does_set {P : Regs → Addr → Word → Prop} {s : Regs} {w : Watchdog} {M U : Word}
    (hw : w ≠ .super) (hs : Unlocked s w) (hU : U &&& ~~~triggerMask (configReg w) = 0)
    (hP : ∀ v, v &&& U = U → P s (configReg w) v) :
    Does bus P (mmioSetbits32 (configReg w) (M ||| U)) s ()
      (Function.update s (configReg w)
        ((s (configReg w) ||| M) &&& ~~~triggerMask (configReg w))) := by
  refine Does.read (Does.write (hP _ ?_) ?_)
  · apply BitVec.eq_of_getLsbD_eq
    intro i hi
    simp
    tauto
  · have hst := store_unlocked (load s (configReg w) ||| (M ||| U)) (guardOf_configReg w) hs
    rw [settle_writable _ _ (readOnlyMask_configReg hw), load, set_settled hU] at hst
    rw [← hst]
    exact Does.ret () _

theorem enableRow_addr {w : Watchdog} (hw : w ≠ .super) : (enableRow w).addr = configReg w := by
  cases w <;> first | rfl | contradiction

theorem enableRow_maskEn (w : Watchdog) : (enableRow w).maskEn = switchMask w := by
  cases w <;> rfl

theorem enableRow_maskUpdate (w : Watchdog) :
    (enableRow w).maskUpdate &&& ~~~triggerMask (configReg w) = 0 := by
  cases w <;> decide

theorem switchMask_trigger (w : Watchdog) : switchMask w &&& triggerMask (configReg w) = 0 := by
  cases w <;> decide

theorem does_disable {P : Regs → Addr → Word → Prop} {s : Regs} {w : Watchdog}
    (hw : w ≠ .super) (hs : Unlocked s w)
    (hP : ∀ v, v &&& (enableRow w).maskUpdate = (enableRow w).maskUpdate → P s (configReg w) v) :
    Does bus P (wdtDisable w.id) s 0
      (Function.update s (configReg w)
        (s (configReg w) &&& ~~~(switchMask w ||| triggerMask (configReg w)))) := by
  have h := does_clear (M := switchMask w) hw hs (enableRow_maskUpdate w) hP
  rw [← enableRow_maskEn, ← enableRow_addr hw] at h
  simp only [wdtDisable, ofId_id, hw, if_false]
  rw [← enableRow_maskEn, ← enableRow_addr hw]
  exact h.bind (Does.ret 0 _)

theorem does_enable {P : Regs → Addr → Word → Prop} {s : Regs} {w : Watchdog}
    (hw : w ≠ .super) (hs : Unlocked s w)
    (hP : ∀ v, v &&& (enableRow w).maskUpdate = (enableRow w).maskUpdate → P s (configReg w) v) :
    Does bus P (wdtEnable w.id) s 0
      (Function.update s (configReg w)
        ((s (configReg w) ||| switchMask w) &&& ~~~triggerMask (configReg w))) := by
  have h := does_set (M := switchMask w) hw hs (enableRow_maskUpdate w) hP
  simp only [wdtEnable, ofId_id, hw, if_false]
  rw [← enableRow_maskEn, ← enableRow_addr hw] at h ⊢
  exact h.bind (Does.ret 0 _)

theorem unlocked_update_config {s : Regs} {w : Watchdog} (v : Watchdog) (x : Word)
    (hs : Unlocked s w) : Unlocked (Function.update s (configReg v) x) w := by
  rw [Unlocked, Function.update_of_ne (wprotectReg_ne_configReg w v)]
  exact hs

theorem disabled_of_cleared {s : Regs} {w : Watchdog} (hw : w ≠ .super) :
    Disabled (Function.update s (configReg w)
      (s (configReg w) &&& ~~~(switchMask w ||| triggerMask (configReg w)))) w := by
  rw [Disabled, Function.update_self, if_neg hw, cleared_masked]

theorem enabled_of_set {s : Regs} {w : Watchdog} (hw : w ≠ .super) :
    Enabled (Function.update s (configReg w)
      ((s (configReg w) ||| switchMask w) &&& ~~~triggerMask (configReg w))) w := by
  rw [Enabled, Function.update_self, if_neg hw, set_masked (switchMask_trigger w)]

theorem onlySwitched_update {s : Regs} {w : Watchdog} {x : Word} (hs : Unlocked s w)
    (hx : x &&& ~~~(switchMask w ||| triggerMask (configReg w)) =
      s (configReg w) &&& ~~~(switchMask w ||| triggerMask (configReg w))) :
    OnlySwitched w s (Function.update s (configReg w) x) where
  unlocked := unlocked_update_config w x hs
  others addr h := Function.update_of_ne h _ _
  bits := by rwa [Function.update_self]

/-- The register that `wdt_enable` rewrites for the super watchdog is its
write-protect register, and the rewritten key is not the unlock key. -/
theorem enable_super_locks {s s' : Regs} {a : Word} {t : List (Moment Regs Addr Word)}
    (hs : Unlocked s .super)
    (h : exec bus (wdtEnable Watchdog.super.id) s = some ⟨a, s', t⟩) : ¬ Unlocked s' .super := by
  have he : ∃ t, exec bus (wdtEnable Watchdog.super.id) s = some ⟨0,
      store s (wprotectReg .super)
        (load s (wprotectReg .super) &&& ~~~wdtSwdConfigDisableMask), t⟩ := ⟨_, rfl⟩
  obtain ⟨t', he⟩ := he
  rw [he] at h
  obtain ⟨-, rfl, -⟩ := Finish.mk.inj (Option.some.inj h)
  have hl : load s (wprotectReg .super) = wdtUnlockKey := by
    rw [load, triggerMask_wprotectReg, and_not_zero]
    exact hs
  rw [store_wprotectReg, hl, Unlocked, Function.update_self]
  decide

/-- `wdt_enable` and `wdt_disable` of an unlocked watchdog do what they say,
and nothing else, for every watchdog but the super one. -/
theorem switches_correctly_iff (s : Regs) (w : Watchdog) (hs : Unlocked s w) :
    SwitchesCorrectly s w ↔ w ≠ .super := by
  constructor
  · rintro h rfl
    obtain ⟨s', t, he, -, hk⟩ := h.enable
    exact enable_super_locks hs he hk.unlocked
  · intro hw
    refine ⟨?_, ?_⟩
    · obtain ⟨t, ht, -⟩ := does_disable (P := fun _ _ _ ↦ True) hw hs (fun _ _ ↦ trivial)
      refine ⟨_, t, ht, disabled_of_cleared hw, onlySwitched_update hs ?_⟩
      rw [BitVec.and_assoc, BitVec.and_self]
    · obtain ⟨t, ht, -⟩ := does_enable (P := fun _ _ _ ↦ True) hw hs (fun _ _ ↦ trivial)
      exact ⟨_, t, ht, enabled_of_set hw, onlySwitched_update hs set_elsewhere⟩

theorem switches_correctly_rtc : SwitchesCorrectly (fun _ ↦ wdtUnlockKey) .rtc :=
  (switches_correctly_iff (fun _ ↦ wdtUnlockKey) .rtc rfl).mpr (by decide)

def superUnlocked : Regs := fun addr ↦ if addr = wprotectReg .super then wdtUnlockKey else 0

theorem super_switches_wrongly :
    Unlocked superUnlocked .super ∧ ¬ SwitchesCorrectly superUnlocked .super := by
  have hs : Unlocked superUnlocked .super := if_pos rfl
  refine ⟨hs, fun h ↦ ?_⟩
  obtain ⟨s', t, he, -, hk⟩ := h.enable
  exact enable_super_locks hs he hk.unlocked

end Esp32c6Fw.Wdt
