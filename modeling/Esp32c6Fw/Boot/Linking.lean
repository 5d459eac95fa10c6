import Esp32c6Fw.Boot.Head
import Mathlib.Order.Bounds.Defs

namespace Esp32c6Fw.Boot

open Rv32 Soc

abbrev Bytes := List UInt8

/-- The rule for `out.bin.pad`. -/
def pad (bin : Bytes) : Bytes :=
  if bin.length % 16 ≠ 0 then bin ++ List.replicate (16 - bin.length % 16) 0 else bin

def ramOrigin : ℕ := 0x40800000

/-- A program as the linker leaves it, with the sections that `-j .init -j .text* -j .*data*`
names in the order of their addresses. Some of them may be none of the linker script's, as
`.srodata`, and `ALIGN(0x10)` before `.bss` moves nothing. -/
structure Linked extends BssLayout where
  init : Bytes
  others : List (ℕ × Bytes)
  init_ne : init ≠ []
  apart : ((ramOrigin, init) :: others).Pairwise fun s t ↦ s.1 + s.2.length ≤ t.1
  before_bss : ∀ s ∈ (ramOrigin, init) :: others, s.1 + s.2.length ≤ bssStart.toNat

def Linked.sections (p : Linked) : List (ℕ × Bytes) := (ramOrigin, p.init) :: p.others

namespace Linked

variable {p : Linked} {start : ℕ} {contents bin : Bytes} {m m' : Mem}

theorem bounds (h : (start, contents) ∈ p.sections) :
    ramOrigin ≤ start ∧ start + contents.length ≤ p.bssStart.toNat := by
  refine ⟨?_, p.before_bss _ h⟩
  rcases List.mem_cons.mp h with h | h
  · cases h
    exact le_rfl
  · exact (Nat.le_add_right _ _).trans ((List.pairwise_cons.mp p.apart).1 _ h)

/-- `.bss` can be written without harm. -/
theorem kept (h : (start, contents) ∈ p.sections) (hm : Holds m start contents)
    (hs : SameOutside (Set.Ico p.bssStart.toNat p.bssEnd.toNat) m m') :
    Holds m' start contents := by
  obtain ⟨-, hhi⟩ := bounds h
  have hlt := p.bssStart.isLt
  refine hm.of_sameOutside hs (by omega) (Set.disjoint_left.mpr fun x hx hx' ↦ ?_)
  exact absurd (hx.2.trans_le hhi) (not_lt.mpr hx'.1)

end Linked

end Esp32c6Fw.Boot
