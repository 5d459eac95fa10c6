import Mathlib.Data.Int.Init
import Mathlib.Data.List.Basic

namespace Esp32c6Fw.Bitfield

structure Slot where
  start : ℕ
  width : ℕ
  deriving DecidableEq

/-- Where a bit-field goes: it may not cross the end of a 32-bit unit. -/
def place (pos width : ℕ) : ℕ := if pos % 32 + width ≤ 32 then pos else (pos / 32 + 1) * 32

/-- The layout of bit-fields of these widths from `pos` on, and where it stops. A
width that is not positive or does not fit in a unit is rejected. -/
def layout (pos : ℕ) : List ℤ → Option (List Slot × ℕ)
  | [] => some ([], pos)
  | width :: widths =>
    if 1 ≤ width ∧ width ≤ 32 then
      let start := place pos width.toNat
      (layout (start + width.toNat) widths).map fun l ↦ (⟨start, width.toNat⟩ :: l.1, l.2)
    else none

def sizeBits (stop : ℕ) : ℕ := (stop + 31) / 32 * 32

variable {pos stop : ℕ} {width : ℤ} {widths : List ℤ} {slots : List Slot}

theorem le_place (pos width : ℕ) : pos ≤ place pos width := by
  unfold place
  split <;> omega

theorem place_eq {width : ℕ} (hw : 1 ≤ width) (h : pos + width ≤ 32) : place pos width = pos := by
  rw [place, if_pos]
  omega

theorem layout_cons (h : layout pos (width :: widths) = some (slots, stop)) :
    ∃ start slots', pos ≤ start ∧ slots = ⟨start, width.toNat⟩ :: slots' ∧
      layout (start + width.toNat) widths = some (slots', stop) := by
  rw [layout] at h
  split at h
  · obtain ⟨⟨slots', stop'⟩, hl, he⟩ := Option.map_eq_some_iff.mp h
    cases he
    exact ⟨_, slots', le_place pos _, rfl, hl⟩
  · cases h

theorem layout_fits (hw : 1 ≤ width) (hp : pos + width ≤ 32) :
    layout pos (width :: widths) =
      (layout (pos + width.toNat) widths).map fun l ↦ (⟨pos, width.toNat⟩ :: l.1, l.2) := by
  rw [layout, if_pos (by omega), place_eq (by omega) (by omega)]

theorem layout_bounds (h : layout pos widths = some (slots, stop)) :
    pos ≤ stop ∧ ∀ s ∈ slots, pos ≤ s.start ∧ s.start + s.width ≤ stop := by
  induction widths generalizing pos slots with
  | nil =>
    cases h
    simp
  | cons width widths ih =>
    obtain ⟨start, slots', hp, rfl, hl⟩ := layout_cons h
    obtain ⟨hs, hb⟩ := ih hl
    refine ⟨by omega, fun s hm ↦ ?_⟩
    rcases List.mem_cons.mp hm with rfl | hm
    · exact ⟨hp, hs⟩
    · have hb' := hb s hm
      omega

theorem layout_pairwise (h : layout pos widths = some (slots, stop)) :
    slots.Pairwise fun s t ↦ s.start + s.width ≤ t.start := by
  induction widths generalizing pos slots with
  | nil =>
    cases h
    exact List.Pairwise.nil
  | cons width widths ih =>
    obtain ⟨start, slots', hp, rfl, hl⟩ := layout_cons h
    exact List.pairwise_cons.mpr ⟨fun t ht ↦ ((layout_bounds hl).2 t ht).1, ih hl⟩

theorem sizeBits_le (h : sizeBits stop ≤ 32) : stop ≤ 32 := by
  unfold sizeBits at h
  omega

end Esp32c6Fw.Bitfield
