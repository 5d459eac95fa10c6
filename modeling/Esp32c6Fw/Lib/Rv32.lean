import Mathlib.Computability.StateTransition
import Mathlib.Logic.Function.Basic

namespace Esp32c6Fw.Rv32

open StateTransition

abbrev Reg := Fin 32

def zero : Reg := 0
def ra : Reg := 1
def sp : Reg := 2
def t0 : Reg := 5
def t1 : Reg := 6
def a0 : Reg := 10

/-- Instructions, with jump targets as places in the program. The assembler makes `li` of `la`
and `jal zero` of `j`. -/
inductive Instr
  | csrrMhartid (rd : Reg)
  | li (rd : Reg) (imm : BitVec 32)
  | addi (rd rs : Reg) (imm : BitVec 32)
  | sw (rs₂ : Reg) (imm : BitVec 32) (rs₁ : Reg)
  | bne (rs₁ rs₂ : Reg) (target : ℕ)
  | bgeu (rs₁ rs₂ : Reg) (target : ℕ)
  | jal (rd : Reg) (target : ℕ)

/-- A program, the address it has each place at, and the hart that runs it. -/
structure Program where
  code : List Instr
  address : ℕ → BitVec 32
  mhartid : BitVec 32

abbrev Mem := BitVec 32 → BitVec 8

structure Hart where
  pc : ℕ
  regs : Reg → BitVec 32
  mem : Mem

namespace Hart

/-- `x0` reads as 0 whatever is written to it. -/
def get (s : Hart) (r : Reg) : BitVec 32 := if r = zero then 0 else s.regs r

def next (s : Hart) : Hart := { s with pc := s.pc + 1 }

def set (s : Hart) (r : Reg) (v : BitVec 32) : Hart :=
  { s with regs := Function.update s.regs r v }

end Hart

def storeWord (m : Mem) (a v : BitVec 32) : Mem := fun x ↦
  if (x - a).toNat < 4 then v.extractLsb' (8 * (x - a).toNat) 8 else m x

def loadWord (m : Mem) (a : BitVec 32) : BitVec 32 := m (a + 3) ++ m (a + 2) ++ m (a + 1) ++ m a

/-- A misaligned store traps. -/
def exec (p : Program) (s : Hart) : Instr → Option Hart
  | .csrrMhartid rd => some (s.set rd p.mhartid).next
  | .li rd imm => some (s.set rd imm).next
  | .addi rd rs imm => some (s.set rd (s.get rs + imm)).next
  | .sw rs₂ imm rs₁ =>
    let a := s.get rs₁ + imm
    if a.toNat % 4 = 0 then some { s with mem := storeWord s.mem a (s.get rs₂) }.next else none
  | .bne rs₁ rs₂ target =>
    if s.get rs₁ ≠ s.get rs₂ then some { s with pc := target } else some s.next
  | .bgeu rs₁ rs₂ target =>
    if s.get rs₂ ≤ s.get rs₁ then some { s with pc := target } else some s.next
  | .jal rd target => some { s.set rd (p.address (s.pc + 1)) with pc := target }

def step (p : Program) (s : Hart) : Option Hart := (p.code[s.pc]?).bind (exec p s)

/-- A hart at an address in memory, where `x0` is 0. -/
@[ext]
structure Core where
  pc : BitVec 32
  regs : Reg → BitVec 32
  mem : Mem
  regs_zero : regs zero = 0

variable {p : Program} {s s' s'' : Hart}

theorem step_eq {i : Instr} (h : p.code[s.pc]? = some i) : step p s = exec p s i := by
  rw [step, h, Option.bind_some]

theorem step_bne {rs₁ rs₂ : Reg} {target : ℕ} (h : p.code[s.pc]? = some (.bne rs₁ rs₂ target))
    (hne : s.get rs₁ ≠ s.get rs₂) : step p s = some { s with pc := target } := by
  rw [step_eq h, exec, if_pos hne]

theorem step_bgeu {rs₁ rs₂ : Reg} {target : ℕ} (h : p.code[s.pc]? = some (.bgeu rs₁ rs₂ target))
    (hle : (s.get rs₂).toNat ≤ (s.get rs₁).toNat) : step p s = some { s with pc := target } := by
  rw [step_eq h, exec, if_pos (BitVec.le_def.mpr hle)]

theorem step_bgeu_next {rs₁ rs₂ : Reg} {target : ℕ}
    (h : p.code[s.pc]? = some (.bgeu rs₁ rs₂ target))
    (hlt : (s.get rs₁).toNat < (s.get rs₂).toNat) : step p s = some s.next := by
  rw [step_eq h, exec, if_neg fun hle ↦ absurd (BitVec.le_def.mp hle) (by omega)]

theorem step_sw {rs₁ rs₂ : Reg} {imm a v : BitVec 32}
    (h : p.code[s.pc]? = some (.sw rs₂ imm rs₁)) (ha : s.get rs₁ + imm = a) (hv : s.get rs₂ = v)
    (hal : a.toNat % 4 = 0) : step p s = some { s with mem := storeWord s.mem a v }.next := by
  rw [step_eq h, exec, ha, hv, if_pos hal]

theorem reaches_cons (h : step p s = some s') (h' : Reaches (step p) s' s'') :
    Reaches (step p) s s'' := .head h h'

def zeroed (m : Mem) (lo hi : ℕ) : Mem := fun x ↦ if lo ≤ x.toNat ∧ x.toNat < hi then 0 else m x

theorem zeroed_empty (m : Mem) (lo : ℕ) : zeroed m lo lo = m := by
  funext x
  exact if_neg (by omega)

theorem toNat_sub_lt {a x : BitVec 32} (h : a.toNat + 4 ≤ 2 ^ 32) :
    (x - a).toNat < 4 ↔ a.toNat ≤ x.toNat ∧ x.toNat < a.toNat + 4 := by
  have hx := x.isLt
  rw [BitVec.toNat_sub]
  omega

theorem storeWord_zero {m : Mem} {a : BitVec 32} (h : a.toNat + 4 ≤ 2 ^ 32) :
    storeWord m a 0 = zeroed m a.toNat (a.toNat + 4) := by
  funext x
  have hz (i : ℕ) : (0 : BitVec 32).extractLsb' i 8 = 0 := by simp
  simp only [storeWord, zeroed, toNat_sub_lt h, hz]

theorem zeroed_zeroed (m : Mem) {lo mid hi : ℕ} (h : lo ≤ mid) (h' : mid ≤ hi) :
    zeroed (zeroed m lo mid) mid hi = zeroed m lo hi := by
  funext x
  simp only [zeroed]
  rcases Nat.lt_or_ge x.toNat mid with hx | hx
  · rw [if_neg (by omega)]
    exact if_congr (by omega) rfl rfl
  · rw [if_neg (by omega : ¬ (lo ≤ x.toNat ∧ x.toNat < mid))]
    exact if_congr (by omega) rfl rfl

theorem loadWord_zeroed {m : Mem} {a : BitVec 32} {lo hi : ℕ} (hlo : lo ≤ a.toNat)
    (hhi : a.toNat + 4 ≤ hi) (hmax : hi ≤ 2 ^ 32) : loadWord (zeroed m lo hi) a = 0 := by
  have hb (i : BitVec 32) (hi' : i.toNat < 4) : zeroed m lo hi (a + i) = 0 := by
    have hs : (a + i).toNat = a.toNat + i.toNat := by
      rw [BitVec.toNat_add]
      exact Nat.mod_eq_of_lt (by omega)
    exact if_pos (by omega)
  have h₀ : zeroed m lo hi a = 0 := if_pos (by omega)
  rw [loadWord, hb 3 (by decide), hb 2 (by decide), hb 1 (by decide), h₀]
  rfl

end Esp32c6Fw.Rv32
