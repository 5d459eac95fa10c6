import Esp32c6Fw.Lib.Simulation
import Esp32c6Fw.Picolibc.LocalMalloc
import Mathlib.Logic.Function.Basic

namespace Esp32c6Fw.Picolibc

open Soc Stub

/-- What a program does with the heap, its own stores included. -/
inductive Call
  | malloc (s : Word)
  | calloc (n elem : Word)
  | free (freeP : Addr)
  | realloc (ptr : Addr) (size : Word)
  | reallocarray (optr : Addr) (nmemb size : Word)
  | reallocf (ptr : Addr) (size : Word)
  | memalign (align s : Word)
  | valloc (s : Word)
  | pvalloc (s : Word)
  | mallocUsableSize (ptr : Addr)
  | sbrk (incr : Word)
  | store (a : Addr) (b : BitVec 8)

/-- The heap as its user sees it: the sizes of the blocks, the bytes that are the user's, and
what the user has got from `sbrk`. -/
structure Store where
  block : Addr → Option ℕ
  mem : Addr → Option (BitVec 8)
  got : Set ℕ

namespace Store

def Vacant (σ : Store) (p : Addr) (n : ℕ) : Prop :=
  p.toNat + n ≤ 2 ^ 32 ∧ ∀ a : Addr, a.toNat ∈ Stub.block p n → σ.mem a = none

/-- A place for a new block, aligned for anything. -/
structure New (σ : Store) (p : Addr) (n : ℕ) : Prop where
  ne_zero : p ≠ 0
  aligned : p.toNat % 16 = 0
  block_eq : σ.block p = none
  vacant : σ.Vacant p n

open Classical in
noncomputable def put (σ : Store) (p : Addr) (n : ℕ) (v : Addr → BitVec 8) : Store where
  block := Function.update σ.block p (some n)
  mem := fun a ↦ if a.toNat ∈ Stub.block p n then some (v a) else σ.mem a
  got := σ.got

open Classical in
noncomputable def drop (σ : Store) (p : Addr) (n : ℕ) : Store where
  block := Function.update σ.block p none
  mem := fun a ↦ if a.toNat ∈ Stub.block p n then none else σ.mem a
  got := σ.got

open Classical in
noncomputable def grow (σ : Store) (p : Addr) (n : ℕ) (v : Addr → BitVec 8) : Store where
  block := σ.block
  mem := fun a ↦ if a.toNat ∈ Stub.block p n then some (v a) else σ.mem a
  got := σ.got ∪ Stub.block p n

variable {σ : Store} {p q : Addr} {n k : ℕ} {v : Addr → BitVec 8}

theorem block_put : (σ.put p n v).block q = some k ↔
    q = p ∧ k = n ∨ q ≠ p ∧ σ.block q = some k := by
  by_cases hqp : q = p
  · subst hqp
    have hself : (σ.put q n v).block q = some n := Function.update_self _ _ _
    simp [hself, eq_comm]
  · have hother : (σ.put p n v).block q = σ.block q := Function.update_of_ne hqp _ _
    simp [hother, hqp]

theorem block_drop : (σ.drop p n).block q = some k ↔ q ≠ p ∧ σ.block q = some k := by
  by_cases hqp : q = p
  · subst hqp
    have hself : (σ.drop q n).block q = none := Function.update_self _ _ _
    simp [hself]
  · have hother : (σ.drop p n).block q = σ.block q := Function.update_of_ne hqp _ _
    simp [hother, hqp]

end Store

/-- The calls that return NULL when there is not enough memory. -/
def Call.Allocates : Call → Prop
  | malloc _ | calloc _ _ | memalign _ _ | valloc _ | pvalloc _ | realloc _ _
  | reallocarray _ _ _ => True
  | reallocf ptr _ => ptr = 0
  | _ => False

/-- What a call returns and leaves in `errno`, and the store after it. -/
inductive Served : Store → Call → Addr × Word → Store → Prop
  | malloc {σ : Store} {p : Addr} {e s : Word} :
      σ.New p s.toNat → Served σ (.malloc s) (p, e) (σ.put p s.toNat fun _ ↦ 0)
  | calloc {σ : Store} {p : Addr} {e n elem : Word} : σ.New p (n.toNat * elem.toNat) →
      Served σ (.calloc n elem) (p, e) (σ.put p (n.toNat * elem.toNat) fun _ ↦ 0)
  | memalign {σ : Store} {p : Addr} {e align s : Word} {v : Addr → BitVec 8} :
      σ.New p s.toNat → p.toNat % max align.toNat 16 = 0 →
      Served σ (.memalign align s) (p, e) (σ.put p s.toNat v)
  | valloc {σ : Store} {p : Addr} {e s : Word} {v : Addr → BitVec 8} :
      σ.New p s.toNat → p.toNat % 4096 = 0 → Served σ (.valloc s) (p, e) (σ.put p s.toNat v)
  | pvalloc {σ : Store} {p : Addr} {e s : Word} {n : ℕ} {v : Addr → BitVec 8} :
      σ.New p n → p.toNat % 4096 = 0 → s.toNat ≤ n → n % 4096 = 0 →
      Served σ (.pvalloc s) (p, e) (σ.put p n v)
  | notPower {σ : Store} {align s : Word} : align &&& (align - 1) ≠ 0 →
      Served σ (.memalign align s) (0, einval) σ
  | noMemory {σ : Store} {c : Call} : c.Allocates → Served σ c (0, enomem) σ
  | freeNull {σ : Store} {e : Word} : Served σ (.free 0) (0, e) σ
  | free {σ : Store} {p : Addr} {n : ℕ} {e : Word} : σ.block p = some n →
      Served σ (.free p) (0, e) (σ.drop p n)
  | reallocNull {σ σ' : Store} {r : Addr × Word} {size : Word} :
      Served σ (.malloc size) r σ' → Served σ (.realloc 0 size) r σ'
  | reallocFree {σ σ' : Store} {p : Addr} {r : Addr × Word} : p ≠ 0 →
      Served σ (.free p) r σ' → Served σ (.realloc p 0) r σ'
  | realloc {σ : Store} {p p' : Addr} {k : ℕ} {e size : Word} {v : Addr → BitVec 8} :
      size ≠ 0 → σ.block p = some k → (σ.drop p k).New p' size.toNat →
      (∀ i : Word, i.toNat < min k size.toNat → ∀ b, σ.mem (p + i) = some b → v (p' + i) = b) →
      Served σ (.realloc p size) (p', e) ((σ.drop p k).put p' size.toNat v)
  | reallocarray {σ σ' : Store} {p : Addr} {r : Addr × Word} {nmemb size : Word} :
      nmemb.toNat * size.toNat < 2 ^ 32 → Served σ (.realloc p (nmemb * size)) r σ' →
      Served σ (.reallocarray p nmemb size) r σ'
  | reallocf {σ σ' : Store} {p : Addr} {r : Addr × Word} {size : Word} :
      r.1 ≠ 0 ∨ p = 0 → Served σ (.realloc p size) r σ' → Served σ (.reallocf p size) r σ'
  /-- What could not be resized is freed, once. -/
  | reallocfFree {σ : Store} {p : Addr} {k : ℕ} {size : Word} : p ≠ 0 → σ.block p = some k →
      Served σ (.reallocf p size) (0, enomem) (σ.drop p k)
  /-- All of the usable size may be used from now on. -/
  | mallocUsableSize {σ : Store} {p : Addr} {k : ℕ} {e n : Word} {v : Addr → BitVec 8} :
      σ.block p = some k → k ≤ n.toNat → (σ.drop p k).New p n.toNat →
      (∀ i : Word, i.toNat < k → ∀ b, σ.mem (p + i) = some b → v (p + i) = b) →
      Served σ (.mallocUsableSize p) (n, e) ((σ.drop p k).put p n.toNat v)
  | sbrk {σ : Store} {p : Addr} {e incr : Word} {v : Addr → BitVec 8} : σ.Vacant p incr.toNat →
      Served σ (.sbrk incr) (p, e) (σ.grow p incr.toNat v)
  | sbrkRefused {σ : Store} {incr : Word} : Served σ (.sbrk incr) (-1, enomem) σ
  | store {σ : Store} {a : Addr} {b : BitVec 8} {e : Word} :
      Served σ (.store a b) (0, e) { σ with mem := Function.update σ.mem a (some b) }

def Store.Legal (σ : Store) : Call → Prop
  | .free p | .realloc p _ | .reallocarray p _ _ | .reallocf p _ => p = 0 ∨ σ.block p ≠ none
  | .mallocUsableSize p => σ.block p ≠ none
  | .sbrk incr => 0 ≤ incr.toInt
  | .store a _ => σ.mem a ≠ none
  | _ => True

def heapContract : Contract Store Call (Addr × Word) := ⟨Store.Legal, Served⟩

/-- No two blocks share a byte, and every byte of a block is the user's. -/
structure Store.Wf (σ : Store) : Prop where
  bound : ∀ {p n}, σ.block p = some n → p.toNat + n ≤ 2 ^ 32
  mem_ne_none : ∀ {p n} {a : Addr}, σ.block p = some n → a.toNat ∈ Stub.block p n → σ.mem a ≠ none
  apart : ∀ {p q n k}, σ.block p = some n → σ.block q = some k → p ≠ q →
    Disjoint (Stub.block p n) (Stub.block q k)

namespace Store.Wf

variable {σ σ' : Store} {p q : Addr} {n k : ℕ} {v : Addr → BitVec 8}

theorem lt_of_mem_block {x : ℕ} (h : p.toNat + n ≤ 2 ^ 32) (hx : x ∈ Stub.block p n) :
    x < 2 ^ 32 := hx.2.trans_le h

theorem disjoint_vacant (hw : σ.Wf) (hv : σ.Vacant p n) (hq : σ.block q = some k) :
    Disjoint (Stub.block p n) (Stub.block q k) :=
  Set.disjoint_left.mpr fun x hx hx' ↦ by
    have hnat : (BitVec.ofNat 32 x : Addr).toNat = x := Nat.mod_eq_of_lt (lt_of_mem_block hv.1 hx)
    exact hw.mem_ne_none (a := BitVec.ofNat 32 x) hq (by rwa [hnat]) (hv.2 _ (by rwa [hnat]))

theorem put (hw : σ.Wf) (h : σ.New p n) : (σ.put p n v).Wf := by
  refine ⟨fun hq ↦ ?_, fun {q k a} hq ha ↦ ?_, fun {q r k j} hq hr hne ↦ ?_⟩
  · rcases block_put.mp hq with ⟨rfl, rfl⟩ | ⟨-, hq⟩
    · exact h.vacant.1
    · exact hw.bound hq
  · simp only [Store.put]
    split
    · exact Option.some_ne_none _
    next hn =>
      rcases block_put.mp hq with ⟨rfl, rfl⟩ | ⟨-, hq⟩
      · exact absurd ha hn
      · exact hw.mem_ne_none hq ha
  · rcases block_put.mp hq with ⟨rfl, rfl⟩ | ⟨-, hq'⟩ <;>
      rcases block_put.mp hr with ⟨rfl, rfl⟩ | ⟨-, hr'⟩
    · exact absurd rfl hne
    · exact hw.disjoint_vacant h.vacant hr'
    · exact (hw.disjoint_vacant h.vacant hq').symm
    · exact hw.apart hq' hr' hne

theorem drop (hw : σ.Wf) (hp : σ.block p = some n) : (σ.drop p n).Wf := by
  refine ⟨fun hq ↦ hw.bound (block_drop.mp hq).2, fun {q k a} hq ha ↦ ?_,
    fun hq hr hne ↦ hw.apart (block_drop.mp hq).2 (block_drop.mp hr).2 hne⟩
  obtain ⟨hqp, hq⟩ := block_drop.mp hq
  have hn : a.toNat ∉ Stub.block p n :=
    fun hn ↦ Set.disjoint_left.mp (hw.apart hp hq hqp.symm) hn ha
  simp only [Store.drop, if_neg hn]
  exact hw.mem_ne_none hq ha

theorem grow (hw : σ.Wf) : (σ.grow p n v).Wf := by
  refine ⟨hw.bound, fun {q k a} hq ha ↦ ?_, hw.apart⟩
  simp only [Store.grow]
  split
  · exact Option.some_ne_none _
  · exact hw.mem_ne_none hq ha

theorem store (hw : σ.Wf) (a : Addr) (b : BitVec 8) :
    Store.Wf { σ with mem := Function.update σ.mem a (some b) } := by
  refine ⟨hw.bound, fun {q k a'} hq ha ↦ ?_, hw.apart⟩
  by_cases haa : a' = a
  · subst haa
    simp only [Function.update_self]
    exact Option.some_ne_none _
  · simp only [Function.update_of_ne haa]
    exact hw.mem_ne_none hq ha

/-- Whatever a call returns, the blocks stay apart. -/
theorem served {c : Call} {r : Addr × Word} (hw : σ.Wf) (h : Served σ c r σ') : σ'.Wf := by
  induction h with
  | malloc h | calloc h | memalign h | valloc h | pvalloc h => exact hw.put h
  | notPower | noMemory | freeNull | sbrkRefused => exact hw
  | free hp => exact hw.drop hp
  | reallocNull _ ih | reallocFree _ _ ih | reallocarray _ _ ih | reallocf _ _ ih => exact ih
  | realloc _ hp h => exact (hw.drop hp).put h
  | reallocfFree _ hp => exact hw.drop hp
  | mallocUsableSize hp _ h => exact (hw.drop hp).put h
  | sbrk => exact hw.grow
  | store => exact hw.store _ _

end Store.Wf

end Esp32c6Fw.Picolibc
