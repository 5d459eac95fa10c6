import Esp32c6Fw.Wdt.Lock
import Esp32c6Fw.Wdt.Startup

namespace Esp32c6Fw.Wdt

open Mmio Soc Watchdog

def wdtSwdConfigSignalWidthMask : Word := 0x3FF00000

def feedMask : Watchdog → Word
  | .main0 | .main1 => timgWdtfeedFeedMask
  | .rtc => wdtRwdtFeedFeedMask
  | .super => wdtSwdConfigFeedMask

/-- The bits of a register that are configuration: none of a feed register, the
read/write fields of SWD_CONFIG and all of any other. -/
def configMask (addr : Addr) : Word :=
  if addr = timgWdtfeedReg timg0Base ∨ addr = timgWdtfeedReg timg1Base ∨
      addr = wdtRwdtFeedReg rtcWdtBase then 0
  else if addr = wdtSwdConfigReg rtcWdtBase then
    wdtSwdConfigAutoFeedEnMask ||| wdtSwdConfigSignalWidthMask ||| wdtSwdConfigDisableMask
  else BitVec.allOnes 32

def Feeds (w : Watchdog) (m : Moment Regs Addr Word) : Prop :=
  ∃ v, m.access = some (.write (feedRow w).addr v) ∧ v &&& feedMask w ≠ 0 ∧
    ¬ Ignored m.before (feedRow w).addr

structure OnlyFed (w : Watchdog) (s s' : Regs) (t : List (Moment Regs Addr Word)) : Prop where
  fed : Unlocked s w → ∃ m ∈ t, Feeds w m
  config : ∀ addr, s' addr &&& configMask addr = s addr &&& configMask addr

variable {s : Regs} {w : Watchdog}

theorem feedRow_guarded (w : Watchdog) : (feedRow w).addr ∈ w.guardedRegs := by
  cases w <;> decide

theorem exec_feed (s : Regs) (w : Watchdog) :
    exec bus (wdtFeed w.id) s = some ⟨0, store s (feedRow w).addr (feedRow w).maskFeed,
      [⟨s, some (.write (feedRow w).addr (feedRow w).maskFeed),
        store s (feedRow w).addr (feedRow w).maskFeed⟩]⟩ := by
  simp only [wdtFeed, ofId_id]
  rfl

theorem feeds_unlocked (hs : Unlocked s w) :
    Feeds w ⟨s, some (.write (feedRow w).addr (feedRow w).maskFeed),
      store s (feedRow w).addr (feedRow w).maskFeed⟩ := by
  refine ⟨_, rfl, ?_, ?_⟩
  · cases w <;> decide
  · rintro ⟨v, hv, hn⟩
    rw [guardOf_of_mem (feedRow_guarded w)] at hv
    cases hv
    exact hn hs

/-- The plain write of `wdt_feed` clears all configuration in SWD_CONFIG. -/
theorem settle_feed (old : Word) : settle (configReg super) old wdtSwdConfigFeedMask &&&
    configMask (configReg super) = 0 := by
  have hro : readOnlyMask (configReg super) &&& configMask (configReg super) = 0 := by decide
  have hw : wdtSwdConfigFeedMask &&& ~~~readOnlyMask (configReg super) &&&
      ~~~triggerMask (configReg super) = 0 := by decide
  have hz : (old &&& readOnlyMask (configReg super)) ||| 0 =
      old &&& readOnlyMask (configReg super) := BitVec.or_zero
  rw [settle, hw, hz, BitVec.and_assoc, hro]
  exact BitVec.and_zero

theorem feed_config (s : Regs) (w : Watchdog) :
    (∀ addr, store s (feedRow w).addr (feedRow w).maskFeed addr &&& configMask addr =
      s addr &&& configMask addr) ↔
    (w = super → Unlocked s super → s (configReg super) &&& configMask (configReg super) = 0) := by
  constructor
  · rintro h rfl hs
    have hc := h (configReg super)
    have hst : store s (feedRow super).addr (feedRow super).maskFeed (configReg super) =
        settle (configReg super) (s (configReg super)) wdtSwdConfigFeedMask := by
      rw [store_unlocked _ (guardOf_of_mem (feedRow_guarded super)) hs]
      exact Function.update_self ..
    rw [hst, settle_feed] at hc
    exact hc.symm
  · intro h addr
    by_cases ha : addr = (feedRow w).addr
    · subst ha
      by_cases hs : Unlocked s w
      · rw [store_unlocked _ (guardOf_of_mem (feedRow_guarded w)) hs, Function.update_self]
        by_cases hw : w = super
        · subst hw
          exact (settle_feed _).trans (h rfl hs).symm
        · have hm : configMask (feedRow w).addr = 0 := by
            revert hw
            cases w <;> decide
          rw [hm]
          exact BitVec.and_zero.trans BitVec.and_zero.symm
      · simp only [store, guardOf_of_mem (feedRow_guarded w), if_neg hs]
    · rw [store_of_ne ha]

theorem auto_feed_stays (s : Regs) (ids : List (BitVec 32)) :
    ∃ r, exec bus (callAll (.swdEnableAutoFeed :: ids.map .feed)) s = some r ∧
      r.state (configReg super) &&& wdtSwdConfigAutoFeedEnMask = wdtSwdConfigAutoFeedEnMask := by
  obtain ⟨t, ht, -⟩ := does_auto_feed s
  have hl : Locked super (autoFed s) (autoFed s) := ⟨.inl autoFed_wprotect, fun _ _ ↦ rfl⟩
  have hfeeds : ∀ c ∈ ids.map Call.feed, ¬ c.Unlocks super := by
    intro c hc
    obtain ⟨id, -, rfl⟩ := List.mem_map.mp hc
    simp [Call.Unlocks]
  obtain ⟨⟨codes, s', t'⟩, hr, hI, -⟩ := hl.keeps_callAll hfeeds
  refine ⟨⟨none :: codes, s', t ++ t'⟩, ?_, ?_⟩
  · simp only [callAll, Call.prog, exec_bind, ht, hr, Option.bind_some, Option.map_some, exec,
      Prog.pure_eq, List.append_nil]
  · have hc : s' (configReg super) = autoFed s (configReg super) :=
      hI.guarded _ (by decide)
    simp only [hc, autoFed_config]
    exact set_masked (by decide)

/-- `wdt_feed` feeds and changes no configuration except that of an unlocked super
watchdog, which it clears. Feeds right after `wdt_swd_enable_auto_feed` are ignored. -/
theorem feed_only_feeds_iff (s : Regs) (w : Watchdog) (ids : List (BitVec 32)) :
    ((∃ s' t, exec bus (wdtFeed w.id) s = some ⟨0, s', t⟩ ∧ OnlyFed w s s' t) ↔
      (w = super → Unlocked s super →
        s (configReg super) &&& configMask (configReg super) = 0)) ∧
    ∃ r, exec bus (callAll (.swdEnableAutoFeed :: ids.map .feed)) s = some r ∧
      r.state (configReg super) &&& wdtSwdConfigAutoFeedEnMask = wdtSwdConfigAutoFeedEnMask := by
  refine ⟨?_, auto_feed_stays s ids⟩
  rw [← feed_config, exec_feed]
  constructor
  · rintro ⟨s', t, he, hf⟩
    cases he
    exact hf.config
  · intro h
    exact ⟨_, _, rfl, fun hs ↦ ⟨_, List.mem_singleton_self _, feeds_unlocked hs⟩, h⟩

/-- The super watchdog fed by hardware, and unlocked. -/
def autoFedUnlocked : Regs := fun addr ↦
  if addr = super.wprotectReg then wdtUnlockKey
  else if addr = configReg super then wdtSwdConfigAutoFeedEnMask else 0

theorem feed_clears_auto_feed : Unlocked autoFedUnlocked super ∧
    ¬ ∃ s' t, exec bus (wdtFeed super.id) autoFedUnlocked = some ⟨0, s', t⟩ ∧
      OnlyFed super autoFedUnlocked s' t := by
  refine ⟨if_pos rfl, ?_⟩
  rintro ⟨s', t, he, hf⟩
  have hc := hf.config (configReg super)
  rw [exec_feed] at he
  cases he
  revert hc
  decide

end Esp32c6Fw.Wdt
