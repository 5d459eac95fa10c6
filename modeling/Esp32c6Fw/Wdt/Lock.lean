import Esp32c6Fw.Wdt.Calls

namespace Esp32c6Fw.Wdt

open Mmio Soc

def Call.Unlocks (w : Watchdog) (c : Call) : Prop :=
  c = .unlock w.id ∨ w = .super ∧ c = .swdEnableAutoFeed

/-- `w` is locked and what its key guards is as in `s`. The enable bit of the
super watchdog ends up in its key register, so that its key is 0 or that bit. -/
structure Locked (w : Watchdog) (s x : Regs) : Prop where
  key : x w.wprotectReg = wdtLockKey ∨ w = .super ∧ x w.wprotectReg = wdtSwdConfigDisableMask
  guarded : ∀ addr ∈ w.guardedRegs, x addr = s addr

namespace Locked

variable {w : Watchdog} {s x : Regs}

theorem not_unlocked (h : Locked w s x) : ¬ Unlocked x w := by
  rcases h.key with hk | ⟨-, hk⟩
  · rw [Unlocked, hk]
    decide
  · rw [Unlocked, hk]
    decide

theorem ne_wprotectReg {a : Addr} (hm : a ∈ w.guardedRegs) : a ≠ w.wprotectReg := by
  rintro rfl
  have hg := guardOf_of_mem hm
  rw [guardOf_wprotectReg] at hg
  cases hg

theorem store_other (h : Locked w s x) {addr : Addr} (ha : addr ≠ w.wprotectReg) (v : Word) :
    Locked w s (store x addr v) := by
  by_cases hm : addr ∈ w.guardedRegs
  · have hst : store x addr v = x := by
      simp only [store, guardOf_of_mem hm, if_neg h.not_unlocked]
    rwa [hst]
  · refine ⟨?_, fun a hg ↦ ?_⟩
    · rw [store_of_ne ha.symm]
      exact h.key
    · have hne : a ≠ addr := by
        rintro rfl
        exact hm hg
      rw [store_of_ne hne]
      exact h.guarded a hg

theorem store_key (h : Locked w s x) {v : Word}
    (hv : v = wdtLockKey ∨ w = .super ∧ v = wdtSwdConfigDisableMask) :
    Locked w s (store x w.wprotectReg v) := by
  rw [store_wprotectReg]
  refine ⟨?_, fun a hg ↦ ?_⟩
  · rwa [Function.update_self]
  · rw [Function.update_of_ne (ne_wprotectReg hg)]
    exact h.guarded a hg

theorem load_key (h : Locked .super s x) : load x Watchdog.super.wprotectReg = wdtLockKey ∨
    load x Watchdog.super.wprotectReg = wdtSwdConfigDisableMask := by
  rw [load, triggerMask_wprotectReg, and_not_zero]
  exact h.key.imp_right And.right

/-- `wdt_enable` and `wdt_disable` clear and set the enable bit in the key itself. -/
theorem keeps_enable (h : Locked .super s x) :
    Keeps bus (Locked .super s) (wdtEnable Watchdog.super.id) x := by
  have hst : Locked .super s (store x Watchdog.super.wprotectReg
      (load x Watchdog.super.wprotectReg &&& ~~~wdtSwdConfigDisableMask)) := by
    refine h.store_key (.inl ?_)
    rcases h.load_key with hl | hl <;> rw [hl] <;> decide
  exact Keeps.read h (Keeps.write hst (Keeps.ret 0 hst))

theorem keeps_disable (h : Locked .super s x) :
    Keeps bus (Locked .super s) (wdtDisable Watchdog.super.id) x := by
  have hst : Locked .super s (store x Watchdog.super.wprotectReg
      (load x Watchdog.super.wprotectReg ||| wdtSwdConfigDisableMask)) := by
    refine h.store_key (.inr ⟨rfl, ?_⟩)
    rcases h.load_key with hl | hl <;> rw [hl] <;> decide
  exact Keeps.read h (Keeps.write hst (Keeps.ret 0 hst))

theorem keeps_call (h : Locked w s x) {c : Call} (hc : ¬ c.Unlocks w) :
    Keeps bus (Locked w s) c.prog x := by
  by_cases hk : c.Accesses w.wprotectReg
  · have hid : c.id = w.id := by
      obtain ⟨v, hv, hm⟩ := hk.mem_regs
      by_contra hne
      have hvw : v ≠ w := fun he ↦ hne (he ▸ hv)
      exact Watchdog.regs_disjoint hvw hm (List.mem_cons_self ..)
    obtain ⟨v, hv, hm⟩ := hk
    rw [hid, Watchdog.ofId_id] at hv
    cases hv
    have hrow (hm : w.wprotectReg ∈ [(enableRow w).addr]) : w = .super := by
      by_contra hw
      rw [enableRow_addr hw, List.mem_singleton] at hm
      exact wprotectReg_ne_configReg w w hm
    cases c with
    | lock id =>
      cases hid
      refine Keeps.bind (p := wdtLock w.id) ?_ fun a s' hs ↦ Keeps.ret _ hs
      simp only [wdtLock, Watchdog.ofId_id]
      have hl := h.store_key (.inl rfl)
      exact Keeps.write hl (Keeps.ret 0 hl)
    | unlock id => exact absurd (.inl (congrArg Call.unlock hid)) hc
    | enable id =>
      cases hid
      cases hrow hm
      exact h.keeps_enable.bind fun a s' hs ↦ Keeps.ret _ hs
    | disable id =>
      cases hid
      cases hrow hm
      exact h.keeps_disable.bind fun a s' hs ↦ Keeps.ret _ hs
    | setFlashbootMode id on =>
      have hno : w.wprotectReg ∉ Call.accessed w (.setFlashbootMode id on) := by
        simp only [Call.accessed]
        cases w <;> decide
      exact absurd hm hno
    | feed id =>
      have hno : w.wprotectReg ∉ Call.accessed w (.feed id) := by
        simp only [Call.accessed]
        cases w <;> decide
      exact absurd hm hno
    | swdEnableAutoFeed =>
      have hw : w = .super := by
        revert hid
        cases w <;> decide
      exact absurd (.inr ⟨hw, rfl⟩) hc
  · exact c.straight.keeps (fun addr v s' ha hs ↦ hs.store_other (fun he ↦ hk (he ▸ ha)) v) h

theorem keeps_callAll (h : Locked w s x) {cs : List Call} (hcs : ∀ c ∈ cs, ¬ c.Unlocks w) :
    Keeps bus (Locked w s) (callAll cs) x := by
  induction cs generalizing x with
  | nil => exact Keeps.ret [] h
  | cons c cs ih =>
    rw [List.forall_mem_cons] at hcs
    exact (h.keeps_call hcs.1).bind fun _ _ hs ↦ (ih hs hcs.2).bind fun _ _ hs' ↦ Keeps.ret _ hs'

end Locked

/-- After `wdt_lock`, no calls but those that unlock the watchdog ever leave the
unlock key in its key register or change what the key guards. -/
theorem lock_holds (s : Regs) (w : Watchdog) {cs : List Call} (hcs : ∀ c ∈ cs, ¬ c.Unlocks w) :
    ∃ s₀ t₀ r, exec bus (wdtLock w.id) s = some ⟨0, s₀, t₀⟩ ∧
      exec bus (callAll cs) s₀ = some r ∧
      ∀ x, x = s₀ ∨ x = r.state ∨ x ∈ r.trace.map (·.after) →
        x w.wprotectReg ≠ wdtUnlockKey ∧ ∀ addr ∈ w.guardedRegs, x addr = s addr := by
  have hl : Locked w s (Function.update s w.wprotectReg wdtLockKey) := by
    refine ⟨.inl (Function.update_self ..), fun a hg ↦ ?_⟩
    exact Function.update_of_ne (Locked.ne_wprotectReg hg) _ _
  obtain ⟨r, hr, hI, ht⟩ := hl.keeps_callAll hcs
  have hex : ∃ t, exec bus (wdtLock w.id) s = some ⟨0, store s w.wprotectReg wdtLockKey, t⟩ := by
    simp only [wdtLock, Watchdog.ofId_id]
    exact ⟨_, rfl⟩
  obtain ⟨t, hex⟩ := hex
  rw [store_wprotectReg] at hex
  refine ⟨_, t, r, hex, hr, ?_⟩
  rintro x (rfl | rfl | hx)
  · exact ⟨hl.not_unlocked, hl.guarded⟩
  · exact ⟨hI.not_unlocked, hI.guarded⟩
  · obtain ⟨m, hm, rfl⟩ := List.mem_map.mp hx
    exact ⟨(ht m hm).not_unlocked, (ht m hm).guarded⟩

instance (w : Watchdog) (c : Call) : Decidable (c.Unlocks w) :=
  inferInstanceAs (Decidable (_ ∨ _))

def superCalls : List Call := [.enable 3, .unlock 2, .disable 3, .feed 3, .disable 9, .enable 3]

theorem lock_holds_super : ∃ s₀ t₀ r,
    exec bus (wdtLock Watchdog.super.id) (fun _ ↦ wdtUnlockKey) = some ⟨0, s₀, t₀⟩ ∧
      exec bus (callAll superCalls) s₀ = some r ∧
      ∀ x, x = s₀ ∨ x = r.state ∨ x ∈ r.trace.map (·.after) →
        x Watchdog.super.wprotectReg ≠ wdtUnlockKey ∧
          ∀ addr ∈ Watchdog.super.guardedRegs, x addr = wdtUnlockKey :=
  lock_holds (fun _ ↦ wdtUnlockKey) .super (by decide)

end Esp32c6Fw.Wdt
