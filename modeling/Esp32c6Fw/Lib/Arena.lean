import Mathlib.Order.CompletePartialOrder
import Mathlib.Order.Interval.Set.Disjoint

namespace Esp32c6Fw

variable {α : Type} [LinearOrder α] {lo hi : α}

/-- A region handed out from its lower end up to a break, and the part of it in use. -/
structure Arena (lo hi : α) where
  brk : α
  used : Set α
  le_brk : lo ≤ brk
  brk_le : brk ≤ hi
  used_subset : used ⊆ Set.Ico lo brk

namespace Arena

def empty (h : lo ≤ hi) : Arena lo hi := ⟨lo, ∅, le_rfl, h, Set.empty_subset _⟩

/-- What is in use after the break has moved: it hands out what it passes going up
and takes back what it passes going down. -/
def moved (used : Set α) (brk brk' : α) : Set α := (used ∪ Set.Ico brk brk') \ Set.Ico brk' brk

def move (a : Arena lo hi) (brk' : α) (hlo : lo ≤ brk') (hhi : brk' ≤ hi) : Arena lo hi where
  brk := brk'
  used := moved a.used a.brk brk'
  le_brk := hlo
  brk_le := hhi
  used_subset := by
    rintro x ⟨hx | hx, hn⟩
    · obtain ⟨hl, hu⟩ := a.used_subset hx
      exact ⟨hl, lt_of_not_ge fun h ↦ hn ⟨h, hu⟩⟩
    · exact ⟨a.le_brk.trans hx.1, hx.2⟩

variable (a : Arena lo hi)

theorem disjoint_used (brk' : α) : Disjoint (Set.Ico a.brk brk') a.used :=
  Set.disjoint_left.mpr fun _ hx hu ↦ absurd (a.used_subset hu).2 (not_lt_of_ge hx.1)

theorem Ico_subset {brk' : α} (h : brk' ≤ hi) : Set.Ico a.brk brk' ⊆ Set.Ico lo hi :=
  Set.Ico_subset_Ico a.le_brk h

end Arena

end Esp32c6Fw
