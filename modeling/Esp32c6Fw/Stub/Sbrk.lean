import Esp32c6Fw.Lib.Arena
import Esp32c6Fw.Stub.Io
import Mathlib.Algebra.Group.Nat.Defs

namespace Esp32c6Fw.Stub

open Soc

/-- The linker's symbols and the configured STUB_HEAP_SIZE. -/
structure Layout where
  heapEnd : Addr
  stackEnd : Addr
  stubHeapSize : Word

def Layout.limit (l : Layout) : Addr :=
  let limit := l.heapEnd + l.stubHeapSize
  if limit > l.stackEnd then l.stackEnd else limit

/-- The result, and the static `brk` afterwards. -/
def sbrk (l : Layout) (brk : Addr) (incr : Word) : IoResult × Addr :=
  if brk + incr > l.limit then (⟨-1, some .enomem⟩, brk)
  else (⟨brk, none⟩, brk + incr)

def block (p : Addr) (size : ℕ) : Set ℕ := Set.Ico p.toNat (p.toNat + size)

variable {l : Layout} {brk : Addr} {incr : Word}

theorem limit_le (l : Layout) : l.limit.toNat ≤ l.stackEnd.toNat := by
  simp only [Layout.limit]
  split
  · exact le_rfl
  next h => exact BitVec.le_def.mp (BitVec.not_lt.mp h)

theorem sbrk_refused (h : l.limit.toNat < (brk + incr).toNat) :
    sbrk l brk incr = (⟨-1, some .enomem⟩, brk) := if_pos (BitVec.lt_def.mpr h)

theorem sbrk_served (h : (brk + incr).toNat ≤ l.limit.toNat) :
    sbrk l brk incr = (⟨brk, none⟩, brk + incr) :=
  if_neg fun hlt ↦ absurd (BitVec.lt_def.mp hlt) (by omega)

/-- An increment that is not negative does not wrap around below the middle of memory. -/
theorem toNat_add_of_nonneg (hb : brk.toNat < 2 ^ 31) (hi : 0 ≤ incr.toInt) :
    (brk + incr).toNat = brk.toNat + incr.toNat := by
  rw [BitVec.toNat_add]
  have hn : incr.toNat < 2 ^ 31 := by
    rw [BitVec.toInt_eq_toNat_cond] at hi
    split at hi <;> omega
  exact Nat.mod_eq_of_lt (by omega)

/-- A link for the 512 KiB of HP SRAM, with a limit that does not wrap around. -/
structure SramLayout extends Layout where
  sram_le : 0x40800000 ≤ heapEnd.toNat
  heap_le : heapEnd.toNat ≤ stackEnd.toNat
  le_sram : stackEnd.toNat ≤ 0x40880000
  size_le : stubHeapSize.toNat ≤ 512 * 1024

def SramLayout.top (l : SramLayout) : ℕ :=
  min (l.heapEnd.toNat + l.stubHeapSize.toNat) l.stackEnd.toNat

def SramLayout.InHeap (l : SramLayout) (p : Addr) : Prop :=
  l.heapEnd.toNat ≤ p.toNat ∧ p.toNat ≤ l.top

/-- What a call of `sbrk` should do with the break at `brk` and `used` handed out. -/
structure ServesHeap (l : SramLayout) (brk : Addr) (used : Set ℕ) (incr : Word) : Prop where
  bounds : l.InHeap (sbrk l.toLayout brk incr).2
  refused : ¬ l.InHeap (brk + incr) → sbrk l.toLayout brk incr = (⟨-1, some .enomem⟩, brk)
  served : l.InHeap (brk + incr) → sbrk l.toLayout brk incr = (⟨brk, none⟩, brk + incr)
  fresh : (sbrk l.toLayout brk incr).1.errno = none → 0 < incr.toInt →
    block (sbrk l.toLayout brk incr).1.ret incr.toNat ⊆ Set.Ico l.heapEnd.toNat l.top ∧
      Disjoint (block (sbrk l.toLayout brk incr).1.ret incr.toNat) used

def RunServesHeap (l : SramLayout) : Addr → Set ℕ → List Word → Prop
  | _, _, [] => True
  | brk, used, incr :: incrs =>
    ServesHeap l brk used incr ∧
      let brk' := (sbrk l.toLayout brk incr).2
      RunServesHeap l brk' (Arena.moved used brk.toNat brk'.toNat) incrs

def StaysAbove (l : SramLayout) : Addr → List Word → Prop
  | _, [] => True
  | brk, incr :: incrs =>
    l.heapEnd.toNat ≤ (brk + incr).toNat ∧ StaysAbove l (sbrk l.toLayout brk incr).2 incrs

section Sram

variable {l : SramLayout} {brk : Addr} {incr : Word} {used : Set ℕ}

theorem limit_eq (l : SramLayout) : l.limit.toNat = l.top := by
  have hh := l.heap_le
  have hs := l.le_sram
  have hz := l.size_le
  have hsum : (l.heapEnd + l.stubHeapSize).toNat = l.heapEnd.toNat + l.stubHeapSize.toNat := by
    rw [BitVec.toNat_add]
    exact Nat.mod_eq_of_lt (by omega)
  simp only [Layout.limit, SramLayout.top, gt_iff_lt, BitVec.lt_def, hsum]
  split <;> omega

theorem top_le (l : SramLayout) : l.top ≤ 0x40880000 :=
  (Nat.min_le_right _ _).trans l.le_sram

theorem heapEnd_le_top (l : SramLayout) : l.heapEnd.toNat ≤ l.top :=
  Nat.le_min.mpr ⟨Nat.le_add_right _ _, l.heap_le⟩

theorem ServesHeap.stays_above (h : ServesHeap l brk used incr) :
    l.heapEnd.toNat ≤ (brk + incr).toNat := by
  by_contra hlow
  have hlim := limit_eq l
  have htop := heapEnd_le_top l
  have hs : sbrk l.toLayout brk incr = (⟨brk, none⟩, brk + incr) := sbrk_served (by omega)
  rw [h.refused fun hin ↦ hlow hin.1] at hs
  cases hs

theorem serves_heap (a : Arena l.heapEnd.toNat l.top) (hb : a.brk = brk.toNat)
    (h : l.heapEnd.toNat ≤ (brk + incr).toNat) : ServesHeap l brk a.used incr := by
  have hlim := limit_eq l
  have hlo := a.le_brk
  have hhi := a.brk_le
  have htop := top_le l
  by_cases hin : (brk + incr).toNat ≤ l.top
  · have hs : sbrk l.toLayout brk incr = (⟨brk, none⟩, brk + incr) := sbrk_served (by omega)
    refine ⟨?_, fun hn ↦ absurd ⟨h, hin⟩ hn, fun _ ↦ hs, fun _ hpos ↦ ?_⟩
    · rw [hs]
      exact ⟨h, hin⟩
    · have hadd : (brk + incr).toNat = brk.toNat + incr.toNat :=
        toNat_add_of_nonneg (by omega) hpos.le
      rw [hs, block, ← hadd, ← hb]
      exact ⟨a.Ico_subset hin, a.disjoint_used _⟩
  · have hs : sbrk l.toLayout brk incr = (⟨-1, some .enomem⟩, brk) := sbrk_refused (by omega)
    refine ⟨?_, fun _ ↦ hs, fun hin' ↦ absurd hin'.2 hin, fun hok ↦ ?_⟩
    · rw [hs]
      exact ⟨hb ▸ hlo, hb ▸ hhi⟩
    · rw [hs] at hok
      cases hok

theorem run_serves_heap_iff (a : Arena l.heapEnd.toNat l.top) (hb : a.brk = brk.toNat)
    (incrs : List Word) : RunServesHeap l brk a.used incrs ↔ StaysAbove l brk incrs := by
  induction incrs generalizing a brk with
  | nil => exact Iff.rfl
  | cons incr incrs ih =>
    have hnext (h : ServesHeap l brk a.used incr) :
        RunServesHeap l (sbrk l.toLayout brk incr).2
            (Arena.moved a.used brk.toNat (sbrk l.toLayout brk incr).2.toNat) incrs ↔
          StaysAbove l (sbrk l.toLayout brk incr).2 incrs := by
      have hr := ih (a.move _ h.bounds.1 h.bounds.2) rfl
      rw [← hb]
      exact hr
    exact ⟨fun ⟨h, hr⟩ ↦ ⟨h.stays_above, (hnext h).mp hr⟩,
      fun ⟨h, hr⟩ ↦ ⟨serves_heap a hb h, (hnext (serves_heap a hb h)).mpr hr⟩⟩

/-- `sbrk` serves the heap in exactly the runs without a request to move the break below
its start: nothing in `sbrk` checks that bound. -/
theorem sbrk_serves_heap_iff (l : SramLayout) (incrs : List Word) :
    RunServesHeap l l.heapEnd ∅ incrs ↔ StaysAbove l l.heapEnd incrs :=
  run_serves_heap_iff (Arena.empty (heapEnd_le_top l)) rfl incrs

end Sram

def smallProgram : SramLayout where
  heapEnd := 0x40804000
  stackEnd := 0x40840000
  stubHeapSize := 32768
  sram_le := by decide
  heap_le := by decide
  le_sram := by decide
  size_le := by decide

theorem sbrk_gives_back_data : ¬ RunServesHeap smallProgram smallProgram.heapEnd ∅ [-1] := by
  rintro ⟨h, -⟩
  have hlow := h.bounds.1
  revert hlow
  decide

end Esp32c6Fw.Stub
