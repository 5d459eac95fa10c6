import Esp32c6Fw.Soc.Mmio
import Mathlib.Logic.Function.Basic

namespace Esp32c6Fw.Stub

open Soc

inductive Errno | eio | enosys | enomem
  deriving DecidableEq

/-- What a call hands back: its `ssize_t`, and `errno` where it set it. -/
structure IoResult where
  ret : BitVec 32
  errno : Option Errno
  deriving DecidableEq

variable {m : Type → Type} [Monad m]

def writeLoop (stubPutc : Byte → m (BitVec 32)) (p : ℕ → Byte) (n : ℕ) : ℕ → m IoResult
  | 0 => pure ⟨BitVec.ofNat 32 n, none⟩
  | left + 1 => do
    let i := n - (left + 1)
    let r ← stubPutc (p i)
    if r.slt 0 then
      pure ⟨BitVec.ofNat 32 i, some .eio⟩
    else
      writeLoop stubPutc p n left

def write (stubPutc : Byte → m (BitVec 32)) (fd : BitVec 32) (buf : ℕ → Byte) (n : BitVec 32) :
    m IoResult :=
  if fd ≠ 1 ∧ fd ≠ 2 then pure ⟨-1, some .enosys⟩
  else writeLoop stubPutc buf n.toNat n.toNat

/-- The second component is the buffer afterwards. -/
def readLoop (stubGetc : m (BitVec 32)) (n : ℕ) : ℕ → (ℕ → Byte) → m (IoResult × (ℕ → Byte))
  | 0, p => pure (⟨BitVec.ofNat 32 n, none⟩, p)
  | left + 1, p => do
    let i := n - (left + 1)
    let c ← stubGetc
    if c.slt 0 then
      pure (⟨BitVec.ofNat 32 i, none⟩, p)
    else
      readLoop stubGetc n left (Function.update p i (c.setWidth 8))

def read (stubGetc : m (BitVec 32)) (fd : BitVec 32) (buf : ℕ → Byte) (n : BitVec 32) :
    m (IoResult × (ℕ → Byte)) :=
  if fd ≠ 0 then pure (⟨-1, some .enosys⟩, buf)
  else readLoop stubGetc n.toNat n.toNat buf

end Esp32c6Fw.Stub
