import Esp32c6Fw.Lib.Memory

namespace Esp32c6Fw.Rv32

open StateTransition

namespace Core

theorem update_zero {regs : Reg → BitVec 32} (h : regs zero = 0) {r : Reg} (hr : r ≠ zero)
    (v : BitVec 32) : Function.update regs r v zero = 0 :=
  (Function.update_of_ne hr.symm _ _).trans h

/-- A write to `x0` is lost. -/
def set (c : Core) (r : Reg) (v : BitVec 32) : Core :=
  if h : r = zero then c
  else ⟨c.pc, Function.update c.regs r v, c.mem, update_zero c.regs_zero h v⟩

end Core

def reg {n : ℕ} (w : BitVec n) (i : ℕ) : Reg := (w.extractLsb' i 5).toFin

variable {m : Mem} {start i : ℕ} {bs : List UInt8} {b₀ b₁ b₂ b₃ : UInt8}

variable {address : ℕ → BitVec 32} {n : BitVec 32} {k : ℕ}

section Reaching

variable {mhartid : BitVec 32} {s : Hart} {r : Reg} {u v n' : BitVec 32}

end Reaching

end Esp32c6Fw.Rv32
