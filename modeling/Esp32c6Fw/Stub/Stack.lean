import Esp32c6Fw.Stub.Sbrk

namespace Esp32c6Fw.Stub

open Soc

/-- What the boot code loads into `sp`. -/
def spInit : Addr := 0x40840000

/-- `__stack_end__` of the linker script. -/
def lscriptStackEnd : Addr := 0x40840000

/-- Any link of the linker script with any heap size. -/
structure BootLayout extends Layout where
  stackEnd_eq : stackEnd = lscriptStackEnd
  heap_lt : heapEnd.toNat < stackEnd.toNat

/-- A call that gives nothing back, made with `depth` bytes of stack in use. -/
structure StackCall where
  incr : Word
  depth : ℕ
  nonneg : 0 ≤ incr.toInt
  depth_le : depth ≤ spInit.toNat

namespace StackCall

def sp (c : StackCall) : ℕ := spInit.toNat - c.depth

def liveStack (c : StackCall) : Set ℕ := Set.Ico c.sp lscriptStackEnd.toNat

end StackCall

def StackCall.returned (l : Layout) (brk : Addr) (c : StackCall) : Set ℕ :=
  block (sbrk l brk c.incr).1.ret c.incr.toNat

def EachBlock (l : Layout) (P : Addr → StackCall → Prop) : Addr → List StackCall → Prop
  | _, [] => True
  | brk, c :: cs =>
    ((sbrk l brk c.incr).1.errno = none → P brk c) ∧ EachBlock l P (sbrk l brk c.incr).2 cs

def AvoidsStack (l : Layout) (brk : Addr) (c : StackCall) : Prop :=
  Disjoint (c.returned l brk) c.liveStack

/-- The block lies between the program and the end of the stack. It avoids the live
stack if it is empty or ends at or below `sp`, and only then. -/
def CappedByStackEnd (l : Layout) (brk : Addr) (c : StackCall) : Prop :=
  c.returned l brk ⊆ Set.Ico l.heapEnd.toNat lscriptStackEnd.toNat ∧
    (AvoidsStack l brk c ↔ c.incr = 0 ∨ brk.toNat + c.incr.toNat ≤ c.sp)

theorem disjoint_Ico_tail {a b s e : ℕ} (hb : b ≤ e) :
    Disjoint (Set.Ico a b) (Set.Ico s e) ↔ b ≤ a ∨ b ≤ s := by
  rw [Set.Ico_disjoint_Ico]
  omega

theorem capped {l : BootLayout} {brk : Addr} (c : StackCall) (hlo : l.heapEnd.toNat ≤ brk.toNat)
    (hhi : brk.toNat ≤ lscriptStackEnd.toNat) :
    l.heapEnd.toNat ≤ (sbrk l.toLayout brk c.incr).2.toNat ∧
      (sbrk l.toLayout brk c.incr).2.toNat ≤ lscriptStackEnd.toNat ∧
      ((sbrk l.toLayout brk c.incr).1.errno = none → CappedByStackEnd l.toLayout brk c) := by
  have hse : lscriptStackEnd.toNat = 0x40840000 := rfl
  have hadd : (brk + c.incr).toNat = brk.toNat + c.incr.toNat :=
    toNat_add_of_nonneg (by omega) c.nonneg
  have hlim := limit_le l.toLayout
  rw [l.stackEnd_eq] at hlim
  by_cases h : (brk + c.incr).toNat ≤ l.limit.toNat
  · have hret : c.returned l.toLayout brk = Set.Ico brk.toNat (brk.toNat + c.incr.toNat) := by
      rw [StackCall.returned, sbrk_served h, block]
    rw [sbrk_served h]
    refine ⟨?_, ?_, fun _ ↦ ⟨?_, ?_⟩⟩
    · exact hadd ▸ hlo.trans (Nat.le_add_right _ _)
    · exact h.trans hlim
    · rw [hret]
      exact Set.Ico_subset_Ico hlo (by omega)
    · rw [AvoidsStack, hret, StackCall.liveStack, disjoint_Ico_tail (by omega)]
      have hz : c.incr = 0 ↔ c.incr.toNat = 0 := BitVec.toNat_inj.symm
      rw [hz]
      omega
  · rw [sbrk_refused (by omega)]
    exact ⟨hlo, hhi, fun hok ↦ by cases hok⟩

/-- `sbrk` never looks at `sp`: what caps the heap is the end of the stack, where it starts. -/
theorem heap_capped_by_stack_end (l : BootLayout) (calls : List StackCall) :
    EachBlock l.toLayout (CappedByStackEnd l.toLayout) l.heapEnd calls := by
  have hrun : ∀ {brk : Addr}, l.heapEnd.toNat ≤ brk.toNat → brk.toNat ≤ lscriptStackEnd.toNat →
      EachBlock l.toLayout (CappedByStackEnd l.toLayout) brk calls := by
    induction calls with
    | nil => exact fun _ _ ↦ trivial
    | cons c cs ih =>
      intro brk hlo hhi
      obtain ⟨hlo', hhi', hc⟩ := capped c hlo hhi
      exact ⟨hc, ih hlo' hhi'⟩
  have hend := l.heap_lt.le
  rw [l.stackEnd_eq] at hend
  exact hrun le_rfl hend

/-- A program that ends 4 KiB below the end of the stack, with the default heap size. -/
def largeProgram : BootLayout where
  heapEnd := 0x4083F000
  stackEnd := 0x40840000
  stubHeapSize := 32768
  stackEnd_eq := rfl
  heap_lt := by decide

/-- Asks for these 4 KiB with 256 bytes of stack in use. -/
def largeCall : StackCall where
  incr := 0x1000
  depth := 256
  nonneg := by decide
  depth_le := by decide

theorem heap_meets_stack :
    ¬ EachBlock largeProgram.toLayout (AvoidsStack largeProgram.toLayout) largeProgram.heapEnd
      [largeCall] := by
  rintro ⟨h, -⟩
  have hs : sbrk largeProgram.toLayout largeProgram.heapEnd largeCall.incr =
      (⟨0x4083F000, none⟩, 0x40840000) := by decide
  have hd := h (by rw [hs])
  rw [AvoidsStack, StackCall.returned, hs, Set.disjoint_left] at hd
  exact hd (a := 0x4083FF00) ⟨by decide, by decide⟩ ⟨by decide, by decide⟩

end Esp32c6Fw.Stub
