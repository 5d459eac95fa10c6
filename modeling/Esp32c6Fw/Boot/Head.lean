import Esp32c6Fw.Lib.Memory
import Esp32c6Fw.Stub.Stack
import Mathlib.Tactic.IntervalCases

namespace Esp32c6Fw.Boot

open Rv32 Soc Stub StateTransition

/-- What the linker script may make of `__bss_start__` and `__bss_end__`. -/
structure BssLayout where
  bssStart : Addr
  bssEnd : Addr
  start_aligned : bssStart.toNat % 4 = 0
  end_aligned : bssEnd.toNat % 4 = 0
  le : bssStart.toNat ≤ bssEnd.toNat
  ram_le : 0x40800000 ≤ bssStart.toNat
  le_ram : bssEnd.toNat ≤ 0x40800000 + 512 * 1024

def bssInit : ℕ := 4
def bssLoop : ℕ := 6
def core0Start : ℕ := 10
def hang : ℕ := 11

def main : ℕ := 12

/-- `head.S` from `__start` on. -/
def headCode (l : BssLayout) : List Instr :=
  [.csrrMhartid a0,
    .li t0 0,
    .bne a0 t0 hang,
    .li sp spInit,
    .li t0 l.bssStart,
    .li t1 l.bssEnd,
    .bgeu t0 t1 core0Start,
    .sw zero 0 t0,
    .addi t0 t0 4,
    .jal zero bssLoop,
    .jal ra main,
    .jal zero hang]

/-- The program on some hart, wherever it has been put. -/
def head (l : BssLayout) (address : ℕ → Addr) (mhartid : Word) : Program :=
  ⟨headCode l, address, mhartid⟩

variable (l : BssLayout) (address : ℕ → Addr) (mhartid : Word) {regs : Reg → Word} (mem : Mem)

theorem bssLoop_turn (hlt : (regs t0).toNat < (regs t1).toNat)
    (ha : (regs t0).toNat % 4 = 0) :
    ∃ regs', Reaches (step (head l address mhartid)) ⟨bssLoop, regs, mem⟩
        ⟨bssLoop, regs', storeWord mem (regs t0) 0⟩ ∧
      regs' t0 = regs t0 + 4 ∧ regs' t1 = regs t1 ∧ regs' sp = regs sp := by
  let regs₁ := Function.update regs t0 (regs t0 + 4)
  let regs₂ := Function.update regs₁ zero (address 10)
  have hsw : (headCode l)[7]? = some (.sw zero 0 t0) := rfl
  have hsum : (Hart.mk 7 regs mem).get t0 + 0 = regs t0 := BitVec.add_zero _
  have h₁ : step (head l address mhartid) ⟨bssLoop, regs, mem⟩ = some ⟨7, regs, mem⟩ :=
    step_bgeu_next rfl hlt
  have h₂ : step (head l address mhartid) ⟨7, regs, mem⟩ =
      some ⟨8, regs, storeWord mem (regs t0) 0⟩ := step_sw hsw hsum rfl ha
  have h₃ : step (head l address mhartid) ⟨8, regs, storeWord mem (regs t0) 0⟩ =
      some ⟨9, regs₁, storeWord mem (regs t0) 0⟩ := rfl
  have h₄ : step (head l address mhartid) ⟨9, regs₁, storeWord mem (regs t0) 0⟩ =
      some ⟨bssLoop, regs₂, storeWord mem (regs t0) 0⟩ := rfl
  refine ⟨regs₂, reaches_cons h₁ (reaches_cons h₂ (reaches_cons h₃ (reaches_cons h₄ .refl))), ?_⟩
  refine ⟨?_, ?_, ?_⟩
  · exact (Function.update_of_ne (by decide) _ _).trans (Function.update_self _ _ _)
  · exact (Function.update_of_ne (by decide) _ _).trans (Function.update_of_ne (by decide) _ _)
  · exact (Function.update_of_ne (by decide) _ _).trans (Function.update_of_ne (by decide) _ _)

theorem bssLoop_reaches (n : ℕ) (ht : (regs t0).toNat + 4 * n = (regs t1).toNat)
    (ha : (regs t0).toNat % 4 = 0) :
    ∃ regs', Reaches (step (head l address mhartid)) ⟨bssLoop, regs, mem⟩
      ⟨core0Start, regs', zeroed mem (regs t0).toNat (regs t1).toNat⟩ ∧ regs' sp = regs sp := by
  induction n generalizing regs mem with
  | zero =>
    have heq : (regs t0).toNat = (regs t1).toNat := ht
    have hs : step (head l address mhartid) ⟨bssLoop, regs, mem⟩ =
        some ⟨core0Start, regs, mem⟩ := step_bgeu rfl heq.ge
    rw [heq, zeroed_empty]
    exact ⟨regs, reaches_cons hs .refl, rfl⟩
  | succ n ih =>
    have hend := (regs t1).isLt
    obtain ⟨regs₁, hr, h₀, h₁, hsp⟩ := bssLoop_turn l address mhartid mem
      (by omega : (regs t0).toNat < (regs t1).toNat) ha
    have hn : (regs₁ t0).toNat = (regs t0).toNat + 4 := by
      rw [h₀, BitVec.toNat_add]
      exact Nat.mod_eq_of_lt (by omega : (regs t0).toNat + 4 < 2 ^ 32)
    have ht' : (regs₁ t0).toNat + 4 * n = (regs₁ t1).toNat := by
      rw [hn, h₁]
      omega
    obtain ⟨regs', hr', hsp'⟩ := ih (storeWord mem (regs t0) 0) ht' (by omega)
    rw [storeWord_zero (by omega), hn, h₁, zeroed_zeroed _ (by omega) (by omega)] at hr'
    rw [storeWord_zero (by omega)] at hr
    exact ⟨regs', hr.trans hr', hsp'.trans hsp⟩

theorem bssInit_reaches (regs : Reg → Word) :
    ∃ regs', Reaches (step (head l address mhartid)) ⟨bssInit, regs, mem⟩
      ⟨core0Start, regs', zeroed mem l.bssStart.toNat l.bssEnd.toNat⟩ ∧ regs' sp = regs sp := by
  let regs₁ := Function.update regs t0 l.bssStart
  let regs₂ := Function.update regs₁ t1 l.bssEnd
  have h₁ : step (head l address mhartid) ⟨bssInit, regs, mem⟩ = some ⟨5, regs₁, mem⟩ := rfl
  have h₂ : step (head l address mhartid) ⟨5, regs₁, mem⟩ = some ⟨bssLoop, regs₂, mem⟩ := rfl
  have ht₀ : regs₂ t0 = l.bssStart :=
    (Function.update_of_ne (by decide) _ _).trans (Function.update_self _ _ _)
  have ht₁ : regs₂ t1 = l.bssEnd := Function.update_self _ _ _
  have hsp : regs₂ sp = regs sp :=
    (Function.update_of_ne (by decide) _ _).trans (Function.update_of_ne (by decide) _ _)
  have hle := l.le
  have hs := l.start_aligned
  have he := l.end_aligned
  have hwords : (regs₂ t0).toNat + 4 * ((l.bssEnd.toNat - l.bssStart.toNat) / 4) =
      (regs₂ t1).toNat := by
    rw [ht₀, ht₁]
    omega
  obtain ⟨regs', hr, hsp'⟩ := bssLoop_reaches l address mhartid mem _ hwords (by rwa [ht₀])
  rw [ht₀, ht₁] at hr
  exact ⟨regs', reaches_cons h₁ (reaches_cons h₂ hr), hsp'.trans hsp⟩

/-- Every word from `__bss_start__` up to `__bss_end__` is 0, and every other byte as it was. -/
structure Cleared (l : BssLayout) (mem mem' : Mem) : Prop where
  words : ∀ a : Addr, a.toNat % 4 = 0 → l.bssStart.toNat ≤ a.toNat → a.toNat < l.bssEnd.toNat →
    loadWord mem' a = 0
  outside : ∀ a : Addr, ¬ (l.bssStart.toNat ≤ a.toNat ∧ a.toNat < l.bssEnd.toNat) →
    mem' a = mem a

theorem cleared_zeroed : Cleared l mem (zeroed mem l.bssStart.toNat l.bssEnd.toNat) where
  words a ha hlo hhi := by
    have he := l.end_aligned
    have hmax := l.bssEnd.isLt
    exact loadWord_zeroed hlo (by omega) hmax.le
  outside _ ha := if_neg ha

/-- From anywhere at `bss_init` the hart comes to `core0_start`, with `.bss` cleared. -/
theorem bss_init_clears (s : Hart) :
    ∃ s', Reaches (step (head l address mhartid)) { s with pc := bssInit } s' ∧
      s'.pc = core0Start ∧ Cleared l s.mem s'.mem := by
  obtain ⟨regs', hr, -⟩ := bssInit_reaches l address mhartid s.mem s.regs
  exact ⟨_, hr, rfl, cleared_zeroed l s.mem⟩

/-- Where a hart other than hart 0 can be. -/
inductive Parked (mhartid : Word) (mem : Mem) : Hart → Prop
  | start (regs : Reg → Word) : Parked mhartid mem ⟨0, regs, mem⟩
  | read (regs : Reg → Word) : regs a0 = mhartid → Parked mhartid mem ⟨1, regs, mem⟩
  | test (regs : Reg → Word) : regs a0 = mhartid → regs t0 = 0 → Parked mhartid mem ⟨2, regs, mem⟩
  | hang (regs : Reg → Word) : Parked mhartid mem ⟨Boot.hang, regs, mem⟩

theorem parked_step {s s' : Hart} (hne : mhartid ≠ 0) (h : Parked mhartid mem s)
    (hs : s' ∈ step (head l address mhartid) s) : Parked mhartid mem s' := by
  cases h with
  | start regs =>
    have ha : Function.update regs a0 mhartid a0 = mhartid := Function.update_self _ _ _
    cases hs
    exact .read _ ha
  | read regs ha =>
    have ha' : Function.update regs t0 0 a0 = regs a0 := Function.update_of_ne (by decide) _ _
    have ht : Function.update regs t0 0 t0 = 0 := Function.update_self _ _ _
    cases hs
    exact .test _ (ha'.trans ha) ht
  | test regs ha ht =>
    have hb : step (head l address mhartid) ⟨2, regs, mem⟩ = some ⟨hang, regs, mem⟩ := by
      refine step_bne rfl ?_
      change regs a0 ≠ regs t0
      rwa [ha, ht]
    rw [hb] at hs
    cases hs
    exact .hang regs
  | hang regs =>
    cases hs
    exact .hang _

/-- Any other hart never comes to `main` and never writes to memory. -/
theorem other_harts_hang {s : Hart} (hne : mhartid ≠ 0) (regs : Reg → Word)
    (h : Reaches (step (head l address mhartid)) ⟨0, regs, mem⟩ s) :
    s.pc ≠ main ∧ s.mem = mem := by
  have hp : Parked mhartid mem s := by
    induction h with
    | refl => exact .start regs
    | tail _ hs ih => exact parked_step l address mhartid mem hne ih hs
  cases hp with
  | start => exact ⟨(by decide : 0 ≠ main), rfl⟩
  | read => exact ⟨(by decide : 1 ≠ main), rfl⟩
  | test => exact ⟨(by decide : 2 ≠ main), rfl⟩
  | hang => exact ⟨(by decide : hang ≠ main), rfl⟩

/-- What the loop knows of its registers. -/
structure Clearing (l : BssLayout) (regs : Reg → Word) : Prop where
  lo : l.bssStart.toNat ≤ (regs t0).toNat
  hi : (regs t0).toNat ≤ l.bssEnd.toNat
  aligned : (regs t0).toNat % 4 = 0
  stop : regs t1 = l.bssEnd

namespace Clearing

variable {l mem} {regs' : Reg → Word} {m : Mem}

theorem store (h : Clearing l regs) (hlt : (regs t0).toNat < l.bssEnd.toNat)
    (hk : SameOutside (Set.Ico l.bssStart.toNat l.bssEnd.toNat) mem m) (v : Word) :
    SameOutside (Set.Ico l.bssStart.toNat l.bssEnd.toNat) mem (storeWord m (regs t0) v) := by
  have ha := h.aligned
  have hlo := h.lo
  have he := l.end_aligned
  have hmax := l.bssEnd.isLt
  have hw : word (regs t0) ⊆ Set.Ico l.bssStart.toNat l.bssEnd.toNat :=
    Set.Ico_subset_Ico hlo (by omega)
  exact hk.trans ((sameOutside_storeWord m (by omega) v).mono hw)

end Clearing

namespace Booting

variable {l address mhartid mem} {s s' : Hart}

end Booting

end Esp32c6Fw.Boot
