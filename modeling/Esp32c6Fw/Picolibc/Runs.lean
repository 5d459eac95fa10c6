import Esp32c6Fw.Lib.Gaps
import Esp32c6Fw.Picolibc.Refinement
import Mathlib.Algebra.BigOperators.Group.Finset.Basic

namespace Esp32c6Fw.Picolibc

open Soc Rv32 Extent

/-- A program starts with `.bss` cleared and the break at the end of its data. -/
def Heap.initial (l : Link) (m : Mem) : Heap where
  mem := m
  mallocSbrkStart := 0
  mallocSbrkTop := 0
  brk := l.heapEnd
  errno := 0

open Classical in
/-- All memory is the program's but the heap and the pointer to the list. -/
noncomputable def Store.initial (l : Link) (m : Mem) : Store where
  block := fun _ ↦ none
  mem := fun a ↦
    if a.toNat ∈ word l.mallocFreeList ∪ Set.Ico l.heapEnd.toNat l.top then none else some (m a)
  got := ∅

variable {l : Link} {σ : Store} {h : Heap} {m : Mem} {fuel k : ℕ} {p : Addr} {n : Word}
  {free live L : List Extent} {hi : ℕ} {calls : List Call} {rs : List (Addr × Word)}

theorem represents_initial (hm : loadWord m l.mallocFreeList = 0) :
    Represents l (Store.initial l m) (Heap.initial l m) := by
  refine ⟨[], [], l.heapEnd.toNat, ⟨?_, fun hp ↦ ?_, by simp, fun {a b} hab ↦ ?_,
    fun {a} ha hx ↦ ?_⟩, fun _ ↦ .inl ⟨rfl, rfl⟩⟩
  · exact {
      chain := hm
      headed := by simp
      free_chunk := by simp
      live_chunk := by simp
      separated := List.Pairwise.nil
      live_apart := List.Pairwise.nil
      apart := by simp
      foreign_free := by simp
      foreign_live := by simp
      foreign_subset := Set.empty_subset _
      hi_le := le_rfl
      heapEnd_le := le_rfl
      brk_le := Stub.heapEnd_le_top l.toSramLayout
      top := .inl rfl }
  · cases hp
  · simp only [Store.initial] at hab
    split at hab
    · cases hab
    · exact Option.some_inj.mp hab
  · simp only [Store.initial, if_pos hx] at ha
    exact absurd rfl ha

theorem wf_initial (l : Link) (m : Mem) : (Store.initial l m).Wf where
  bound := fun hp ↦ by cases hp
  mem_ne_none := fun hp ↦ by cases hp
  apart := fun hp ↦ by cases hp

/-- After every run of calls `P` holds, or one of them was not legal: each call before it has
returned, and has done what its contract says. -/
def AfterEveryRun (l : Link) (fuel : ℕ) (m : Mem) (P : Store → Heap → Prop) : Prop :=
  ∀ calls : List Call,
    (∃ rs h σ, runCalls (Call.exec l fuel) (Heap.initial l m) calls = some (rs, h) ∧
        heapContract.Runs (Store.initial l m) calls rs σ ∧ P σ h) ∨
      ∃ calls₁ c calls₂ rs h σ, calls = calls₁ ++ c :: calls₂ ∧
        runCalls (Call.exec l fuel) (Heap.initial l m) calls₁ = some (rs, h) ∧
        heapContract.Runs (Store.initial l m) calls₁ rs σ ∧ ¬ σ.Legal c

theorem afterEveryRun {P : Store → Heap → Prop} (hfuel : 2 ^ 15 < fuel)
    (hm : loadWord m l.mallocFreeList = 0) (hP : ∀ σ h, σ.Wf → Represents l σ h → P σ h) :
    AfterEveryRun l fuel m P := by
  intro calls
  rcases (exec_refines l hfuel).runCalls (represents_initial hm) calls with
    ⟨rs, h, σ, hrun, hruns, hr⟩ | hstuck
  · exact .inl ⟨rs, h, σ, hrun, hruns,
      hP σ h (hruns.invariant Store.Wf.served (wf_initial l m)) hr⟩
  · exact .inr hstuck

theorem AfterEveryRun.of_legal {P : Store → Heap → Prop} (h : AfterEveryRun l fuel m P)
    (calls : List Call) (hlegal : ∀ c ∈ calls, ∀ σ : Store, σ.Legal c) :
    ∃ rs h σ, runCalls (Call.exec l fuel) (Heap.initial l m) calls = some (rs, h) ∧
      heapContract.Runs (Store.initial l m) calls rs σ ∧ P σ h := by
  rcases h calls with hrun | ⟨calls₁, c, calls₂, rs, h, σ, rfl, -, -, hn⟩
  · exact hrun
  · exact absurd (hlegal c (by simp) σ) hn

def smallLink : Link where
  toSramLayout := Stub.smallProgram
  mallocFreeList := 0x40803ff0
  freeList_le := by decide

/-- Blocks never overlap, and no byte of the program's changes that it did not write. -/
theorem blocks_apart (l : Link) (hfuel : 2 ^ 15 < fuel) (m : Mem)
    (hm : loadWord m l.mallocFreeList = 0) :
    AfterEveryRun l fuel m fun σ h ↦ σ.Wf ∧ ∀ a b, σ.mem a = some b → h.mem a = b :=
  afterEveryRun hfuel hm fun _ _ hwf ⟨_, _, _, hrel, _⟩ ↦ ⟨hwf, fun _ _ ↦ hrel.mem⟩

theorem small_blocks_apart : ∃ rs h σ,
    runCalls (Call.exec smallLink 32769) (Heap.initial smallLink fun _ ↦ 0)
      [.malloc 100, .calloc 3 4] = some (rs, h) ∧
    heapContract.Runs (Store.initial smallLink fun _ ↦ 0) [.malloc 100, .calloc 3 4] rs σ ∧
    σ.Wf ∧ ∀ a b, σ.mem a = some b → h.mem a = b :=
  (blocks_apart smallLink (by decide) (fun _ ↦ 0) (by decide)).of_legal _
    (by simp [Store.Legal])

section Freeing

/-- `malloc` finds room where there is some: in the heap that `sbrk` has left, and where a
block that is freed has been. -/
def RoomIsFound (l : Link) (fuel : ℕ) (σ : Store) (h : Heap) : Prop :=
  (∀ n : Word, n ≤ mallocAllocMax → h.brk.toNat + sizeFor n.toNat + 16 ≤ l.top →
    ∃ p h', malloc l fuel h n = some (p, h') ∧ p ≠ 0) ∧
  ∀ p k (n : Word), σ.block p = some k → n.toNat ≤ k →
    ∃ h₁ p' h₂, Picolibc.free l fuel h p = some h₁ ∧ malloc l fuel h₁ n = some (p', h₂) ∧ p' ≠ 0

theorem Given.ne_zero {h' : Heap} {u : Extent} {free' : List Extent} {hi' : ℕ} {foreign : Set ℕ}
    (hg : Given l h h' p k u free free' live foreign hi') : p ≠ 0 := by
  rw [Ne, ← BitVec.toNat_inj, hg.at_p]
  exact Nat.succ_ne_zero _

theorem malloc_finds_room (l : Link) (hfuel : 2 ^ 15 < fuel) (m : Mem)
    (hm : loadWord m l.mallocFreeList = 0) : AfterEveryRun l fuel m (RoomIsFound l fuel) := by
  refine afterEveryRun hfuel hm fun σ h _ hr ↦ ⟨fun n hn hroom ↦ ?_, fun p k n hp hn ↦ ?_⟩
  · obtain ⟨free, live, hi, hrel, -⟩ := hr
    obtain ⟨p, h', hmalloc, ⟨-, hfull⟩ | ⟨u, free', hi', hg⟩⟩ :=
      malloc_spec hrel.inv n (hrel.inv.length_lt hfuel)
    · exact absurd hroom (Nat.not_le_of_lt (hfull hn).2)
    · exact ⟨p, h', hmalloc, hg.ne_zero⟩
  obtain ⟨free, s, live, hi, hrel, hps, hk, -⟩ := hr.uncons hp
  obtain ⟨m', hfree, inv, -, -⟩ := free_spec hrel.inv hps (hrel.inv.length_lt hfuel)
  obtain ⟨p', h₂, hmalloc, ⟨-, hnone⟩ | ⟨u, free', hi', hg⟩⟩ :=
    malloc_spec inv n (inv.length_lt hfuel)
  · have hs := hrel.inv.live_chunk s (by simp)
    have hfin := hs.fin_le
    have hal := hs.size_aligned
    have hmin := hs.min_le
    have hhi := hrel.inv.hi_le_31
    obtain ⟨t, ht, hst⟩ := exists_le_insert s free
    have hle : sizeFor n.toNat ≤ s.size := by
      rw [sizeFor]
      omega
    simp only [fin] at hfin
    have hmax : n ≤ mallocAllocMax := by
      rw [BitVec.le_def, toNat_mallocAllocMax]
      omega
    have hlt := take_eq_none_iff.mp (hnone hmax).1 t ht
    omega
  · exact ⟨_, p', h₂, hfree, hmalloc, hg.ne_zero⟩

theorem small_malloc_finds_room :
    AfterEveryRun smallLink 32769 (fun _ ↦ 0) (RoomIsFound smallLink 32769) :=
  malloc_finds_room smallLink (by decide) (fun _ ↦ 0) (by decide)

/-- A block that has just been freed cannot be freed again, whatever chunk it has become part
of. -/
def FreedOnce (l : Link) (fuel : ℕ) (σ : Store) (h : Heap) : Prop :=
  ∀ p k, σ.block p = some k → ∃ h₁, Picolibc.free l fuel h p = some h₁ ∧
    Picolibc.free l fuel h₁ p = some (h₁.fail enomem)

theorem free_twice (l : Link) (hfuel : 2 ^ 15 < fuel) (m : Mem)
    (hm : loadWord m l.mallocFreeList = 0) : AfterEveryRun l fuel m (FreedOnce l fuel) := by
  refine afterEveryRun hfuel hm fun σ h _ hr p k hp ↦ ?_
  obtain ⟨m', hfree, hmark, hne, -⟩ := free_block hr hp hfuel
  exact ⟨_, hfree, free_marked hne hmark⟩

theorem small_free_twice :
    AfterEveryRun smallLink 32769 (fun _ ↦ 0) (FreedOnce smallLink 32769) :=
  free_twice smallLink (by decide) (fun _ ↦ 0) (by decide)

end Freeing

/-- A block is made larger in place only if its chunk ends at the top: that the chunk behind
it is free does not help. -/
def MovesBelowTop (l : Link) (fuel : ℕ) (σ : Store) (h : Heap) : Prop :=
  ∀ p k n, σ.block p = some k → n ≠ 0 → (size h.mem p).toNat < sizeFor n.toNat →
    chunkEnd h.mem p ≠ h.mallocSbrkTop → ∃ p' h', realloc l fuel h p n = some (p', h') ∧ p' ≠ p

theorem realloc_moves (l : Link) (hfuel : 2 ^ 15 < fuel) (m : Mem)
    (hm : loadWord m l.mallocFreeList = 0) : AfterEveryRun l fuel m (MovesBelowTop l fuel) := by
  refine afterEveryRun hfuel hm fun σ h _ hr p k n hp hn hlt htop ↦ ?_
  obtain ⟨free, s, live, hi, hrel, hps, -, -⟩ := hr.uncons hp
  obtain ⟨-, hs, hhead⟩ := hrel.inv.uncons
  have hal := hs.chunk.size_aligned
  have hne : p ≠ 0 := by
    rw [Ne, ← BitVec.toNat_inj, hps]
    exact Nat.succ_ne_zero _
  rw [realloc, if_neg hne, if_neg hn]
  by_cases hmax : mallocAllocMax < n
  · rw [if_pos hmax]
    exact ⟨0, _, rfl, hne.symm⟩
  have hbusy : ¬ isFree h.mem p := by
    rw [hhead.isFree_iff hps]
    omega
  have hold : (size h.mem p).toNat = s.size := by
    rw [hhead.size hps]
    omega
  have hnle : ¬ chunkSize n ≤ size h.mem p := by
    rw [BitVec.le_def, toNat_chunkSize (BitVec.not_lt.mp hmax)]
    exact Nat.not_le_of_lt hlt
  have hgrow : reallocGrow l fuel h p (size h.mem p) (chunkSize n) = some (size h.mem p, h) :=
    reallocGrow_none hrel.inv hps htop (hrel.inv.length_lt hfuel)
  rw [hold] at hlt
  obtain ⟨p', h', hmove, hmoved⟩ := reallocMove_spec hrel.inv hps hold hlt hfuel
  refine ⟨p', h', ?_, ?_⟩
  · rw [if_neg hmax, if_neg hbusy]
    simp only [hgrow, ite_self, Option.bind_eq_bind, Option.bind_some, if_neg hnle, hmove]
  · rcases hmoved with hfailed | ⟨hmoved, -⟩
    · rw [hfailed.null]
      exact hne.symm
    · exact hmoved

theorem small_realloc_moves :
    AfterEveryRun smallLink 32769 (fun _ ↦ 0) (MovesBelowTop smallLink 32769) :=
  realloc_moves smallLink (by decide) (fun _ ↦ 0) (by decide)

section Accounts

def payload (s : Extent) : Addr := BitVec.ofNat 32 (s.start + 4)

theorem Related.blocks (hr : Related l σ h free live hi) :
    ∃ blocks : Finset Addr, (∀ p, p ∈ blocks ↔ σ.block p ≠ none) ∧ blocks.card = live.length ∧
      ∑ p ∈ blocks, (size h.mem p).toNat = total live := by
  have hat {s : Extent} (hs : s ∈ live) : (payload s).toNat = s.start + 4 := by
    have hb := (hr.inv.live_chunk s hs).toNat_add hr.inv.hi_le_31
    exact Nat.mod_eq_of_lt (by omega)
  have hnodup : (live.map payload).Nodup := by
    rw [List.Nodup, List.pairwise_map]
    refine hr.inv.live_apart.imp_of_mem fun {s t} hs ht hd he ↦ ?_
    have hst : s.start + 4 = t.start + 4 := by rw [← hat hs, ← hat ht, he]
    have hpos := (hr.inv.live_chunk s hs).pos
    have htpos := (hr.inv.live_chunk t ht).pos
    rw [disjoint_range hpos htpos] at hd
    simp only [fin] at hd
    omega
  refine ⟨(live.map payload).toFinset, fun p ↦ ?_, ?_, ?_⟩
  · rw [List.mem_toFinset, List.mem_map]
    refine ⟨?_, fun hp ↦ ?_⟩
    · rintro ⟨s, hs, rfl⟩
      obtain ⟨q, k, hq, hqs⟩ := hr.live s hs
      have he : payload s = q := BitVec.toNat_inj.mp ((hat hs).trans hqs.symm)
      rw [he, hq]
      exact Option.some_ne_none _
    · obtain ⟨k, hk⟩ := Option.ne_none_iff_exists'.mp hp
      obtain ⟨s, hs, hps, -⟩ := hr.block hk
      exact ⟨s, hs, BitVec.toNat_inj.mp ((hat hs).trans hps.symm)⟩
  · rw [List.toFinset_card_of_nodup hnodup, List.length_map]
  · have hsize : ∀ s ∈ live, (size h.mem (payload s)).toNat = s.size := fun s hs ↦ by
      have hal := (hr.inv.live_chunk s hs).size_aligned
      rw [(hr.inv.headed s hs).size (hat hs)]
      omega
    rw [List.sum_toFinset _ hnodup, List.map_map]
    exact congrArg List.sum (List.map_congr_left hsize)

end Accounts

end Esp32c6Fw.Picolibc
