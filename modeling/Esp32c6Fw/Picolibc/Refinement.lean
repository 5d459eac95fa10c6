import Esp32c6Fw.Picolibc.Related

namespace Esp32c6Fw.Picolibc

open Soc Rv32 Extent

/-- What a call returns, with `errno`: a function without a result returns 0. -/
def Call.exec (l : Link) (fuel : ℕ) (h : Heap) (c : Call) : Option ((Addr × Word) × Heap) :=
  let r := match c with
    | .malloc s => Picolibc.malloc l fuel h s
    | .calloc n elem => Picolibc.calloc l fuel h n elem
    | .free freeP => (Picolibc.free l fuel h freeP).map (0, ·)
    | .realloc ptr size => Picolibc.realloc l fuel h ptr size
    | .reallocarray optr nmemb size => Picolibc.reallocarray l fuel h optr nmemb size
    | .reallocf ptr size => Picolibc.reallocf l fuel h ptr size
    | .memalign align s => Picolibc.memalign l fuel h align s
    | .valloc s => Picolibc.valloc l fuel h s
    | .pvalloc s => Picolibc.pvalloc l fuel h s
    | .mallocUsableSize ptr => some (Picolibc.mallocUsableSize h ptr, h)
    | .sbrk incr => some (h.sbrk l incr)
    | .store a b => some (0, { h with mem := Function.update h.mem a b })
  r.map fun r ↦ ((r.1, r.2.errno), r.2)

variable {l : Link} {σ : Store} {h : Heap} {fuel k : ℕ} {p : Addr} {n size : Word}

def Serves (l : Link) (σ : Store) (c : Call) (r : Option (Addr × Heap)) : Prop :=
  ∃ p h' σ', r = some (p, h') ∧ Served σ c (p, h'.errno) σ' ∧ Represents l σ' h'

theorem serves_noMemory {c : Call} (hr : Represents l σ h) (hc : c.Allocates)
    (he : h.errno = enomem) : Serves l σ c (some (0, h)) :=
  ⟨0, h, σ, rfl, he ▸ .noMemory hc, hr⟩

theorem Represents.fail (hr : Represents l σ h) (e : Word) : Represents l σ (h.fail e) := by
  obtain ⟨free, live, hi, hrel, ht⟩ := hr
  have hk : Kept l h (h.fail e) free free live σ.got hi :=
    hrel.inv.kept ⟨rfl, le_rfl, hrel.inv.brk_le, .inl ⟨rfl, rfl⟩⟩
  exact ⟨free, live, hi, hrel.keep hk.inv hk.frame, fun hgot ↦ hk.tidy (ht hgot)⟩

theorem malloc_cleared (hr : Represents l σ h) (n : Word) (hfuel : 2 ^ 15 < fuel) :
    ∃ p h', malloc l fuel h n = some (p, h') ∧
      (p = 0 ∧ h'.errno = enomem ∧ Represents l σ h' ∨
        σ.New p n.toNat ∧ Represents l (σ.put p n.toNat fun _ ↦ 0) h') := by
  obtain ⟨free, live, hi, hrel, ht⟩ := hr
  obtain ⟨p, h', hmalloc, ⟨hfail, -⟩ | ⟨u, free', hi', hg⟩⟩ :=
    malloc_spec hrel.inv n (hrel.inv.length_lt hfuel)
  · have hk := hrel.inv.kept hfail.refused
    exact ⟨p, h', hmalloc, .inl ⟨hfail.null, hfail.errno, free, live, hi,
      hrel.keep hk.inv hk.frame, fun hgot ↦ hk.tidy (ht hgot)⟩⟩
  · obtain ⟨hnew, hrel'⟩ := hrel.put hg.toHanded fun a ha ↦ hg.zero a ha.1 ha.2
    exact ⟨p, h', hmalloc, .inr ⟨hnew, free', u :: live, hi', hrel',
      fun hgot ↦ hg.tidy (ht hgot)⟩⟩

theorem malloc_serves (hr : Represents l σ h) (n : Word) (hfuel : 2 ^ 15 < fuel) :
    Serves l σ (.malloc n) (malloc l fuel h n) := by
  obtain ⟨p, h', hmalloc, ⟨rfl, he, hr'⟩ | ⟨hnew, hr'⟩⟩ := malloc_cleared hr n hfuel
  · rw [hmalloc]
    exact serves_noMemory hr' trivial he
  · exact ⟨p, h', _, hmalloc, .malloc hnew, hr'⟩

theorem mulOverflow_iff (a b : Word) : mulOverflow a b ↔ 2 ^ 32 ≤ a.toNat * b.toNat := by
  have hmax : (-1 : Word).toNat = 2 ^ 32 - 1 := by decide
  have hgt {a b : Word} (hb : b ≠ 0) : a > -1 / b ↔ 2 ^ 32 ≤ a.toNat * b.toNat := by
    have hpos : 0 < b.toNat := Nat.pos_of_ne_zero fun h0 ↦ hb (BitVec.toNat_inj.mp h0)
    rw [gt_iff_lt, BitVec.lt_def, BitVec.toNat_udiv, hmax, Nat.div_lt_iff_lt_mul hpos]
    omega
  rw [mulOverflow]
  split
  next h =>
    have h0 : a.toNat * b.toNat = 0 := by
      rcases h with rfl | rfl
      · exact Nat.zero_mul _
      · exact Nat.mul_zero _
    simp [h0]
  next h =>
    rw [not_or] at h
    have h₁ := hgt (a := a) h.2
    have h₂ := hgt (a := b) h.1
    rw [Nat.mul_comm] at h₂
    simp only [Bool.or_eq_true, decide_eq_true_eq, h₁, h₂, or_self]

theorem toNat_mul_of_not_overflow {a b : Word} (h : ¬ mulOverflow a b) :
    (a * b).toNat = a.toNat * b.toNat := by
  rw [mulOverflow_iff, not_le] at h
  rw [BitVec.toNat_mul, Nat.mod_eq_of_lt h]

theorem calloc_serves (hr : Represents l σ h) (n elem : Word) (hfuel : 2 ^ 15 < fuel) :
    Serves l σ (.calloc n elem) (calloc l fuel h n elem) := by
  rw [calloc]
  split
  · exact serves_noMemory (hr.fail enomem) trivial rfl
  next hmul =>
    have hsize := toNat_mul_of_not_overflow hmul
    obtain ⟨p, h', hmalloc, ⟨rfl, he, hr'⟩ | ⟨hnew, hr'⟩⟩ := malloc_cleared hr (n * elem) hfuel
    · rw [hmalloc]
      exact serves_noMemory hr' trivial he
    · rw [hsize] at hnew hr'
      exact ⟨p, h', _, hmalloc, .calloc hnew, hr'⟩

theorem free_block (hr : Represents l σ h) (hp : σ.block p = some k) (hfuel : 2 ^ 15 < fuel) :
    ∃ m, free l fuel h p = some { h with mem := m } ∧ isFree m p ∧ p ≠ 0 ∧
      Represents l (σ.drop p k) { h with mem := m } := by
  obtain ⟨free, s, live, hi, hrel, hps, hk, ht⟩ := hr.uncons hp
  obtain ⟨m, hfree, inv, hmark, hs⟩ := free_spec hrel.inv hps (hrel.inv.length_lt hfuel)
  refine ⟨m, hfree, hmark, ?_, _, live, hi, (hrel.drop hps hp).keep inv hs, fun hgot ↦ ?_⟩
  · rw [Ne, ← BitVec.toNat_inj, hps]
    exact Nat.succ_ne_zero _
  · refine (ht hgot).regroup ?_ (fun b hb ↦ ?_) m
    · simp only [total_append, total_insert, total_cons]
      omega
    · obtain ⟨hfree, hlive⟩ := List.forall_mem_append.mp hb
      obtain ⟨hsb, hlive⟩ := List.forall_mem_cons.mp hlive
      exact List.forall_mem_append.mpr ⟨forall_insert (fun _ _ hs _ _ ↦ hs) hsb hfree, hlive⟩

theorem free_serves (hr : Represents l σ h) (hl : p = 0 ∨ σ.block p ≠ none)
    (hfuel : 2 ^ 15 < fuel) : Serves l σ (.free p) ((free l fuel h p).map (0, ·)) := by
  by_cases h0 : p = 0
  · rw [free, if_pos h0, h0]
    exact ⟨0, h, σ, rfl, .freeNull, hr⟩
  · obtain ⟨k, hk⟩ := Option.ne_none_iff_exists'.mp (hl.resolve_left h0)
    obtain ⟨m, hfree, -, -, hr'⟩ := free_block hr hk hfuel
    rw [hfree]
    exact ⟨0, _, _, rfl, .free hk, hr'⟩

theorem realloc_block (hr : Represents l σ h) (hp : σ.block p = some k) (hsize : size ≠ 0)
    (hfuel : 2 ^ 15 < fuel) :
    ∃ p' h', realloc l fuel h p size = some (p', h') ∧
      (p' = 0 ∧ h'.errno = enomem ∧ Represents l σ h' ∨
        p' ≠ 0 ∧ ∃ σ', Served σ (.realloc p size) (p', h'.errno) σ' ∧ Represents l σ' h') := by
  obtain ⟨free, s, live, hi, hrel, hps, hk, ht⟩ := hr.uncons hp
  obtain ⟨p', h', hrealloc, ⟨hnull, he, free', hi', hkept⟩ | ⟨t, free', hi', hres⟩⟩ :=
    realloc_spec hrel.inv hps hsize hfuel
  · exact ⟨p', h', hrealloc, .inl ⟨hnull, he, free', s :: live, hi',
      hrel.keep hkept.inv hkept.frame, fun hgot ↦ hkept.tidy (ht hgot)⟩⟩
  · obtain ⟨hnew, hrel'⟩ := (hrel.drop hps hp).put hres.toHanded (v := h'.mem) fun _ _ ↦ rfl
    refine ⟨p', h', hrealloc, .inr ⟨hnew.ne_zero, _, .realloc hsize hp hnew fun i hi b hb ↦ ?_,
      free', t :: live, hi', hrel', fun hgot ↦ hres.tidy (ht hgot)⟩⟩
    rw [hres.copied i (by omega)]
    exact hrel.mem hb

theorem realloc_serves (hr : Represents l σ h) (hl : p = 0 ∨ σ.block p ≠ none) (size : Word)
    (hfuel : 2 ^ 15 < fuel) : Serves l σ (.realloc p size) (realloc l fuel h p size) := by
  by_cases h0 : p = 0
  · obtain ⟨p', h', σ', hmalloc, hs, hr'⟩ := malloc_serves hr size hfuel
    rw [realloc, if_pos h0, h0]
    exact ⟨p', h', σ', hmalloc, .reallocNull hs, hr'⟩
  by_cases hsize : size = 0
  · obtain ⟨p', h', σ', hfree, hs, hr'⟩ := free_serves hr hl hfuel
    rw [realloc, if_neg h0, if_pos hsize, hsize]
    exact ⟨p', h', σ', hfree, .reallocFree h0 hs, hr'⟩
  · obtain ⟨k, hk⟩ := Option.ne_none_iff_exists'.mp (hl.resolve_left h0)
    obtain ⟨p', h', hrealloc, ⟨rfl, he, hr'⟩ | ⟨-, σ', hs, hr'⟩⟩ := realloc_block hr hk hsize hfuel
    · rw [hrealloc]
      exact serves_noMemory hr' trivial he
    · exact ⟨p', h', σ', hrealloc, hs, hr'⟩

theorem reallocarray_serves (hr : Represents l σ h) (hl : p = 0 ∨ σ.block p ≠ none)
    (nmemb size : Word) (hfuel : 2 ^ 15 < fuel) :
    Serves l σ (.reallocarray p nmemb size) (reallocarray l fuel h p nmemb size) := by
  rw [reallocarray]
  split
  · exact serves_noMemory (hr.fail enomem) trivial rfl
  next hmul =>
    obtain ⟨p', h', σ', hrealloc, hs, hr'⟩ := realloc_serves hr hl (nmemb * size) hfuel
    rw [mulOverflow_iff, not_le] at hmul
    exact ⟨p', h', σ', hrealloc, .reallocarray hmul hs, hr'⟩

theorem reallocf_eq {p' : Addr} {h' : Heap} (hrealloc : realloc l fuel h p size = some (p', h')) :
    reallocf l fuel h p size =
      if p' = 0 ∧ p ≠ 0 then (free l fuel h' p).map (p', ·) else some (p', h') := by
  simp only [reallocf, hrealloc, Option.bind_eq_bind, Option.bind_some]

/-- `realloc` to no size has freed the block, which the second `free` sees. -/
theorem reallocf_serves (hr : Represents l σ h) (hl : p = 0 ∨ σ.block p ≠ none) (size : Word)
    (hfuel : 2 ^ 15 < fuel) : Serves l σ (.reallocf p size) (reallocf l fuel h p size) := by
  by_cases h0 : p = 0
  · obtain ⟨p', h', σ', hrealloc, hs, hr'⟩ := realloc_serves hr hl size hfuel
    rw [reallocf_eq hrealloc, if_neg fun hn ↦ hn.2 h0]
    exact ⟨p', h', σ', rfl, .reallocf (.inr h0) hs, hr'⟩
  obtain ⟨k, hk⟩ := Option.ne_none_iff_exists'.mp (hl.resolve_left h0)
  by_cases hsize : size = 0
  · obtain ⟨m, hfree, hmark, hne, hr'⟩ := free_block hr hk hfuel
    have hrealloc : realloc l fuel h p size = some (0, { h with mem := m }) := by
      rw [realloc, if_neg h0, if_pos hsize, hfree, Option.map_some]
    have htwice : Picolibc.free l fuel { h with mem := m } p =
        some (Heap.fail { h with mem := m } enomem) := free_marked hne hmark
    rw [reallocf_eq hrealloc, if_pos ⟨rfl, h0⟩, htwice, Option.map_some]
    exact ⟨0, _, _, rfl, .reallocfFree hne hk, hr'.fail enomem⟩
  · obtain ⟨p', h', hrealloc, ⟨rfl, he, hr'⟩ | ⟨hne, σ', hs, hr'⟩⟩ :=
      realloc_block hr hk hsize hfuel
    · obtain ⟨m, hfree, -, -, hr''⟩ := free_block hr' hk hfuel
      rw [reallocf_eq hrealloc, if_pos ⟨rfl, h0⟩, hfree, Option.map_some]
      exact ⟨0, _, _, rfl, he ▸ .reallocfFree h0 hk, hr''⟩
    · rw [reallocf_eq hrealloc, if_neg fun hn ↦ hne hn.1]
      exact ⟨p', h', σ', rfl, .reallocf (.inl hne) hs, hr'⟩

theorem memalign_aligned (hr : Represents l σ h) (align n : Word) (hfuel : 2 ^ 15 < fuel) :
    ∃ p h', memalign l fuel h align n = some (p, h') ∧
      (p = 0 ∧ (h'.errno = enomem ∨ h'.errno = einval ∧ align &&& (align - 1) ≠ 0) ∧
          Represents l σ h' ∨
        ∃ v, σ.New p n.toNat ∧ p.toNat % max align.toNat 16 = 0 ∧
          Represents l (σ.put p n.toNat v) h') := by
  obtain ⟨free, live, hi, hrel, ht⟩ := hr
  obtain ⟨p, h', hmem, ⟨hnull, he, hkept⟩ | ⟨t, free', hi', hh, htidy, hal⟩⟩ :=
    memalign_spec hrel.inv align n hfuel
  · exact ⟨p, h', hmem, .inl ⟨hnull, he, free, live, hi, hrel.keep hkept.inv hkept.frame,
      fun hgot ↦ hkept.tidy (ht hgot)⟩⟩
  · obtain ⟨hnew, hrel'⟩ := hrel.put hh (v := h'.mem) fun _ _ ↦ rfl
    exact ⟨p, h', hmem, .inr ⟨h'.mem, hnew, hal, free', t :: live, hi', hrel',
      fun hgot ↦ htidy (ht hgot)⟩⟩

theorem memalign_serves (hr : Represents l σ h) (align n : Word) (hfuel : 2 ^ 15 < fuel) :
    Serves l σ (.memalign align n) (memalign l fuel h align n) := by
  obtain ⟨p, h', hmem, ⟨rfl, he | ⟨he, hpow⟩, hr'⟩ | ⟨v, hnew, hal, hr'⟩⟩ :=
    memalign_aligned hr align n hfuel
  · rw [hmem]
    exact serves_noMemory hr' trivial he
  · exact ⟨0, h', σ, hmem, he ▸ .notPower hpow, hr'⟩
  · exact ⟨p, h', _, hmem, .memalign hnew hal, hr'⟩

theorem valloc_aligned (hr : Represents l σ h) (n : Word) (hfuel : 2 ^ 15 < fuel) :
    ∃ p h', valloc l fuel h n = some (p, h') ∧
      (p = 0 ∧ h'.errno = enomem ∧ Represents l σ h' ∨
        ∃ v, σ.New p n.toNat ∧ p.toNat % 4096 = 0 ∧ Represents l (σ.put p n.toNat v) h') := by
  obtain ⟨p, h', hmem, ⟨hnull, he | ⟨-, hpow⟩, hr'⟩ | ⟨v, hnew, hal, hr'⟩⟩ :=
    memalign_aligned hr mallocPageAlign n hfuel
  · exact ⟨p, h', hmem, .inl ⟨hnull, he, hr'⟩⟩
  · exact absurd (by decide) hpow
  · exact ⟨p, h', hmem, .inr ⟨v, hnew, hal, hr'⟩⟩

theorem valloc_serves (hr : Represents l σ h) (n : Word) (hfuel : 2 ^ 15 < fuel) :
    Serves l σ (.valloc n) (valloc l fuel h n) := by
  obtain ⟨p, h', hmem, ⟨rfl, he, hr'⟩ | ⟨v, hnew, hal, hr'⟩⟩ := valloc_aligned hr n hfuel
  · rw [hmem]
    exact serves_noMemory hr' trivial he
  · exact ⟨p, h', _, hmem, .valloc hnew hal, hr'⟩

theorem pvalloc_serves (hr : Represents l σ h) (n : Word) (hfuel : 2 ^ 15 < fuel) :
    Serves l σ (.pvalloc n) (pvalloc l fuel h n) := by
  rw [pvalloc]
  split
  · exact serves_noMemory (hr.fail enomem) trivial rfl
  next hmax =>
    have hlim : (mallocAllocMax - mallocPageAlign).toNat = 2 ^ 32 - 37 - 4096 := by decide
    rw [BitVec.not_lt, BitVec.le_def, hlim] at hmax
    have hup : (alignUp n mallocPageAlign).toNat = (n.toNat + 2 ^ 12 - 1) / 2 ^ 12 * 2 ^ 12 :=
      toNat_alignUp (k := 12) rfl (by omega)
    obtain ⟨p, h', hmem, ⟨rfl, he, hr'⟩ | ⟨v, hnew, hal, hr'⟩⟩ :=
      valloc_aligned hr (alignUp n mallocPageAlign) hfuel
    · rw [hmem]
      exact serves_noMemory hr' trivial he
    · exact ⟨p, h', _, hmem, .pvalloc hnew hal (by omega) (by omega), hr'⟩

theorem mallocUsableSize_serves (hr : Represents l σ h) (hl : σ.block p ≠ none) :
    Serves l σ (.mallocUsableSize p) (some (mallocUsableSize h p, h)) := by
  obtain ⟨k, hk⟩ := Option.ne_none_iff_exists'.mp hl
  obtain ⟨free, s, live, hi, hrel, hps, hks, ht⟩ := hr.uncons hk
  obtain ⟨-, hs, hhead⟩ := hrel.inv.uncons
  have husable : (mallocUsableSize h p).toNat = s.size - 4 := by
    have h₁ := hs.chunk.size_aligned
    have h₂ := hs.chunk.min_le
    have h₃ := hhead.size hps
    rw [mallocUsableSize, mallocSize, BitVec.toNat_sub, toNat_mallocHeadSize]
    omega
  have hh : Handed l h h p (mallocUsableSize h p).toNat s free live σ.got hi :=
    ⟨hrel.inv, hps, by omega, le_rfl, .refl _ _⟩
  obtain ⟨hnew, hrel'⟩ := (hrel.drop hps hk).put hh (v := h.mem) fun _ _ ↦ rfl
  exact ⟨_, h, _, rfl, .mallocUsableSize hk (by omega) hnew fun i _ b hb ↦ hrel.mem hb,
    free, s :: live, hi, hrel', ht⟩

theorem sbrk_serves (hr : Represents l σ h) {incr : Word} (hl : 0 ≤ incr.toInt) :
    Serves l σ (.sbrk incr) (some (h.sbrk l incr)) := by
  obtain ⟨free, live, hi, hrel, ht⟩ := hr
  have hlt : incr.toNat < 2 ^ 31 := by
    rw [BitVec.toInt_eq_toNat_cond] at hl
    split at hl <;> omega
  rcases Nat.lt_or_ge l.top (h.brk.toNat + incr.toNat) with hgt | hle
  · rw [sbrk_refused hrel.inv.brk_le hlt hgt]
    exact ⟨_, _, σ, rfl, .sbrkRefused, Represents.fail ⟨free, live, hi, hrel, ht⟩ enomem⟩
  · obtain ⟨hserved, hadd⟩ := sbrk_served hle
    obtain ⟨hvacant, hrel'⟩ := hrel.grow h.errno hle hadd
    rw [hserved]
    refine ⟨_, _, _, rfl, .sbrk hvacant, free, live, hi, hrel', fun hgot ↦ ?_⟩
    obtain ⟨hgot, hblock⟩ := Set.union_empty_iff.mp hgot
    have hincr : incr = 0 := by
      rw [Stub.block, Set.Ico_eq_empty_iff] at hblock
      rw [← BitVec.toNat_inj]
      change incr.toNat = 0
      omega
    have hbrk : h.brk + incr = h.brk := by
      rw [hincr]
      exact BitVec.add_zero _
    rw [hbrk]
    exact ht hgot

theorem store_serves (hr : Represents l σ h) {a : Addr} (hl : σ.mem a ≠ none) (b : BitVec 8) :
    Serves l σ (.store a b) (some (0, { h with mem := Function.update h.mem a b })) := by
  obtain ⟨free, live, hi, hrel, ht⟩ := hr
  exact ⟨_, _, _, rfl, .store, free, live, hi, hrel.store hl b,
    fun hgot ↦ (ht hgot).regroup rfl (fun _ hb ↦ hb) _⟩

theorem exec_refines (l : Link) (hfuel : 2 ^ 15 < fuel) :
    Refines (Call.exec l fuel) heapContract (Represents l) := by
  intro σ h c hr hl
  have hexec {r : Option (Addr × Heap)} (hs : Serves l σ c r) :
      ∃ r' h' σ', (r.map fun r ↦ ((r.1, r.2.errno), r.2)) = some (r', h') ∧ Served σ c r' σ' ∧
        Represents l σ' h' := by
    obtain ⟨p, h', σ', rfl, hs, hr'⟩ := hs
    exact ⟨_, h', σ', rfl, hs, hr'⟩
  cases c with
  | malloc s => exact hexec (malloc_serves hr s hfuel)
  | calloc n elem => exact hexec (calloc_serves hr n elem hfuel)
  | free p => exact hexec (free_serves hr hl hfuel)
  | realloc p size => exact hexec (realloc_serves hr hl size hfuel)
  | reallocarray p nmemb size => exact hexec (reallocarray_serves hr hl nmemb size hfuel)
  | reallocf p size => exact hexec (reallocf_serves hr hl size hfuel)
  | memalign align s => exact hexec (memalign_serves hr align s hfuel)
  | valloc s => exact hexec (valloc_serves hr s hfuel)
  | pvalloc s => exact hexec (pvalloc_serves hr s hfuel)
  | mallocUsableSize p => exact hexec (mallocUsableSize_serves hr hl)
  | sbrk incr => exact hexec (sbrk_serves hr hl)
  | store a b => exact hexec (store_serves hr hl b)

end Esp32c6Fw.Picolibc
