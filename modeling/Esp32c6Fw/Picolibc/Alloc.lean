import Esp32c6Fw.Picolibc.Sbrk

namespace Esp32c6Fw.Picolibc

open Soc Rv32 Extent

variable {l : Link} {h h' : Heap} {m m' : Mem} {c p : Addr} {n : Word} {s t u : Extent}
  {L L' free live : List Extent} {foreign : Set ℕ} {lo hi fuel : ℕ}

/-- The chunk `u` has been taken from the list at `p`, and is at `c`. Its header may still be
marked free. -/
structure Found (m m' : Mem) (p c : Addr) (L : List Extent) (u : Extent) (L' : List Extent) :
    Prop where
  at_c : c.toNat = u.start + 4
  headed : ∃ k, Headed m' u k ∧ k - k % 2 = u.size
  chain : FreeChain m' (loadWord m' p) L'
  frame : SameOutside (word p ∪ cover L) m m'

theorem mallocSplit_found (hhi : hi ≤ 2 ^ 31) (hl : FreeList lo hi m p (t :: L))
    (hn : n.toNat ≤ t.size) (hal : n.toNat % 16 = 0) (h16 : 16 ≤ n.toNat)
    (htake : take n.toNat 16 (t :: L) = some (u, L')) :
    Found m (mallocSplit m p (loadWord m p) n) p (loadWord m p) (t :: L) u L' := by
  obtain ⟨hc, hhead, hrest⟩ := hl.chain
  obtain ⟨ht, hL⟩ := List.forall_mem_cons.mp hl.chunks
  have hword := hl.word_apart
  rw [cover_cons, Set.disjoint_union_right] at hword
  have hb := ht.toNat_add hhi
  have htal := ht.size_aligned
  have hsize := hhead.size hc
  have hrem : (size m (loadWord m p) - n).toNat = t.size - n.toNat := by
    rw [BitVec.toNat_sub, hsize]
    have hlt := n.isLt
    omega
  have hsub : word p ∪ t.range ⊆ word p ∪ cover (t :: L) := by
    rw [cover_cons]
    exact Set.union_subset_union_right _ Set.subset_union_left
  rw [mallocSplit]
  by_cases hk : 16 ≤ t.size - n.toNat
  · have hle : mallocChunkMin ≤ size m (loadWord m p) - n := by
      rw [BitVec.le_def, hrem]
      exact hk
    rw [take_cons_of_le hn hk] at htake
    cases htake
    rw [if_pos hle]
    have hA := ht.front hn hal h16
    have hB := ht.back hal hk
    have hrange := range_eq_front_back hn
    have hAB : Disjoint (t.front n.toNat).range (t.back n.toNat).range := disjoint_front_back
    have hApd := hword.1.symm.mono_left (hrange ▸ Set.subset_union_left)
    have hBpd := hword.1.symm.mono_left (hrange ▸ Set.subset_union_right)
    let c := loadWord m p
    have hcA : c.toNat = (t.front n.toNat).start + 4 := hc
    have hcB : (c + n).toNat = (t.back n.toNat).start + 4 := by
      have hfin := ht.fin_le
      simp only [fin] at hfin
      rw [BitVec.toNat_add, hc, start_back, Nat.mod_eq_of_lt (by omega)]
      omega
    have hbA := hA.toNat_add hhi
    have hbB := hB.toNat_add hhi
    let m₁ := setSize m c n
    let m₂ := setSize m₁ (c + n) (size m c - n)
    let m₃ := markFree m₂ (c + n)
    let m₄ := setNext m₃ (c + n) (next m₃ c)
    let m₅ := storeWord m₄ p (c + n)
    have hs₁ : SameOutside (t.front n.toNat).range m m₁ := sameOutside_sizeRef hcA hbA hA.min_le
    have hs₂ : SameOutside (t.back n.toNat).range m₁ m₂ := sameOutside_sizeRef hcB hbB hB.min_le
    have hs₃ : SameOutside (t.back n.toNat).range m₂ m₃ := sameOutside_sizeRef hcB hbB hB.min_le
    have hs₄ : SameOutside (t.back n.toNat).range m₃ m₄ := sameOutside_setNext hcB hbB hB.min_le
    have hs₅ : SameOutside (word p) m₄ m₅ := sameOutside_storeWord m₄ hl.word_le _
    have hs₂₄ := (hs₂.trans hs₃).trans hs₄
    have hheadA : Headed m₁ (t.front n.toNat) n.toNat := headed_storeWord hcA
    have hheadB₂ : Headed m₂ (t.back n.toNat) (t.size - n.toNat) := hrem ▸ headed_storeWord hcB
    have hheadB : Headed m₃ (t.back n.toNat) (t.size - n.toNat + 1) := by
      have hw : (loadWord m₂ (sizeRef (c + n)) ||| 1).toNat = t.size - n.toNat + 1 := by
        rw [toNat_or_one] <;> rw [hheadB₂.sizeRef hcB]
        omega
      exact hw ▸ headed_storeWord hcB
    have hnext : next m₃ c = next m c :=
      (next_frame hcA hbA (hs₂.trans hs₃) hAB hA.min_le).trans (next_sizeRef hcA hbA)
    have hnextB : next m₅ (c + n) = next m c :=
      (next_frame hcB hbB hs₅ hBpd hB.min_le).trans ((loadWord_storeWord _ _ _).trans hnext)
    have hsT : SameOutside t.range m m₄ := by
      rw [hrange]
      exact hs₁.union hs₂₄
    refine ⟨hcA, ⟨n.toNat, ?_, ?_⟩, ?_, ?_⟩
    · exact (hheadA.frame hs₂₄ (hAB.mono_left (header_subset hA.min_le)) hbA).frame hs₅
        (hApd.mono_left (header_subset hA.min_le)) hbA
    · rw [size_front]
      omega
    · rw [loadWord_storeWord]
      refine ⟨hcB, ?_, ?_⟩
      · exact (hheadB.setNext hcB hbB).frame hs₅
          (hBpd.mono_left (header_subset hB.min_le)) hbB
      · change FreeChain m₅ (next m₅ (c + n)) L
        rw [hnextB]
        exact (hrest.frame hsT hl.separated.disjoint hL hhi).frame hs₅ hword.2 hL hhi
    · exact ((hsT.mono Set.subset_union_right).trans (hs₅.mono Set.subset_union_left)).mono hsub
  · have hnle : ¬ mallocChunkMin ≤ size m (loadWord m p) - n := by
      rw [BitVec.le_def, hrem]
      exact hk
    rw [take_cons_whole hn hk] at htake
    cases htake
    rw [if_neg hnle]
    have hs : SameOutside (word p) m (storeWord m p (next m (loadWord m p))) :=
      sameOutside_storeWord m hl.word_le _
    have hheader := hword.1.symm.mono_left (header_subset ht.min_le)
    refine ⟨hc, ⟨_, hhead.frame hs hheader hb, by omega⟩, ?_, hs.mono Set.subset_union_left⟩
    rw [loadWord_storeWord]
    exact hrest.frame hs hword.2 hL hhi

/-- No free chunk can be made larger: its mark makes it seem to end one byte late. -/
theorem mallocGrowChunk_free (hc : c.toNat = t.start + 4) (hhead : Headed h.mem t (t.size + 1))
    (ht : Chunk lo hi t) (hhi : hi ≤ 2 ^ 31) (htop : t.fin + 1 ≠ h.mallocSbrkTop.toNat) :
    mallocGrowChunk l fuel h c n = some (false, h) := by
  have hne : chunkEnd h.mem c ≠ h.mallocSbrkTop := by
    have hfin := ht.fin_le
    simp only [fin] at hfin htop
    rw [Ne, ← BitVec.toNat_inj, chunkEnd, BitVec.toNat_add, toNat_sizeRef hc, hhead.sizeRef hc,
      Nat.mod_eq_of_lt (by omega)]
    omega
  rw [mallocGrowChunk, if_pos hne]

theorem mallocLoop_cons (hhi : hi ≤ 2 ^ 31) (hl : FreeList lo hi h.mem p (t :: L))
    (htop : t.fin + 1 ≠ h.mallocSbrkTop.toNat) (hlt : ¬ n.toNat ≤ t.size) :
    mallocLoop l n (fuel + 1) h p = mallocLoop l n fuel h (loadWord h.mem p) := by
  obtain ⟨hc, hhead, -⟩ := hl.chain
  have ht := hl.chunks t (by simp)
  have hne : loadWord h.mem p ≠ 0 := by
    rw [Ne, ← BitVec.toNat_inj, hc]
    exact Nat.succ_ne_zero _
  have hsize : ¬ n ≤ size h.mem (loadWord h.mem p) := by
    have hal := ht.size_aligned
    rw [BitVec.le_def, hhead.size hc]
    omega
  rw [mallocLoop, if_neg hne, if_neg hsize, mallocGrowChunk_free hc hhead ht hhi htop]
  split <;> rfl

theorem mallocLoop_none (hhi : hi ≤ 2 ^ 31) (hl : FreeList lo hi h.mem p L)
    (htop : ∀ t ∈ L, t.fin + 1 ≠ h.mallocSbrkTop.toNat) (hfuel : L.length < fuel)
    (htake : take n.toNat 16 L = none) : mallocLoop l n fuel h p = some (0, h) := by
  induction fuel generalizing p L with
  | zero => exact absurd hfuel (Nat.not_lt_zero _)
  | succ fuel ih =>
  cases L with
  | nil =>
    have h0 : loadWord h.mem p = 0 := hl.chain
    rw [mallocLoop, if_pos h0]
  | cons t L =>
    obtain ⟨htop, htops⟩ := List.forall_mem_cons.mp htop
    have hlt : ¬ n.toNat ≤ t.size := by
      intro hle
      rw [take, if_pos hle] at htake
      split at htake <;> cases htake
    rw [take_cons_of_lt hlt, Option.map_eq_none_iff] at htake
    rw [mallocLoop_cons hhi hl htop hlt]
    exact ih (hl.tail hhi) htops (Nat.lt_of_succ_lt_succ hfuel) htake

theorem mallocLoop_found (hhi : hi ≤ 2 ^ 31) (hl : FreeList lo hi h.mem p L)
    (htop : ∀ t ∈ L, t.fin + 1 ≠ h.mallocSbrkTop.toNat) (hfuel : L.length < fuel)
    (hal : n.toNat % 16 = 0) (h16 : 16 ≤ n.toNat) (htake : take n.toNat 16 L = some (u, L')) :
    ∃ c m, mallocLoop l n fuel h p = some (c, { h with mem := m }) ∧
      Found h.mem m p c L u L' := by
  induction fuel generalizing p L L' with
  | zero => exact absurd hfuel (Nat.not_lt_zero _)
  | succ fuel ih =>
  cases L with
  | nil => cases htake
  | cons t L =>
    obtain ⟨htop, htops⟩ := List.forall_mem_cons.mp htop
    obtain ⟨hc, hhead, hrest⟩ := hl.chain
    obtain ⟨ht, hL⟩ := List.forall_mem_cons.mp hl.chunks
    by_cases hle : n.toNat ≤ t.size
    · have hne : loadWord h.mem p ≠ 0 := by
        rw [Ne, ← BitVec.toNat_inj, hc]
        exact Nat.succ_ne_zero _
      have hsize : n ≤ size h.mem (loadWord h.mem p) := by
        have htal := ht.size_aligned
        rw [BitVec.le_def, hhead.size hc]
        omega
      refine ⟨loadWord h.mem p, _, ?_, mallocSplit_found hhi hl hle hal h16 htake⟩
      rw [mallocLoop, if_neg hne, if_pos hsize]
    · rw [take_cons_of_lt hle] at htake
      obtain ⟨⟨u', M⟩, htake', he⟩ := Option.map_eq_some_iff.mp htake
      cases he
      obtain ⟨c, m, hloop, hf⟩ := ih (hl.tail hhi) htops (Nat.lt_of_succ_lt_succ hfuel) htake'
      have hword := hl.word_apart
      rw [cover_cons] at hword
      refine ⟨c, m, (mallocLoop_cons hhi hl htop hle).trans hloop, hf.at_c, hf.headed, ?_, ?_⟩
      · exact FreeChain.past hc hhead ht hhi hl.word_le hf.frame hl.separated.disjoint hword
          hf.chain
      · refine hf.frame.mono fun x hx ↦ ?_
        have hsub := @word_subset _ _ hc ht.min_le x
        simp only [cover_cons, Set.mem_union] at hx ⊢
        tauto

theorem HeapInv.take (inv : HeapInv l h free live foreign hi) {free' : List Extent} {n : ℕ}
    (htake : Extent.take n 16 free = some (u, free')) (hal : n % 16 = 0) (h16 : 16 ≤ n)
    (hf : Found h.mem m l.mallocFreeList c free u free') :
    HeapInv l { h with mem := m } free' live foreign hi ∧ Loose l u free' live foreign hi := by
  have hcover := (taken_of_take htake).cover_eq
  obtain ⟨hchunk, hchunks⟩ := forall_take (P := Chunk l.heapEnd.toNat hi)
    (fun t ht hn _ ↦ ht.front hn hal h16) (fun t ht _ hk ↦ ht.back hal hk) inv.free_chunk htake
  obtain ⟨hsep, hd⟩ := separated_take inv.separated htake
  have happ := inv.apart
  have hfor := inv.foreign_free
  rw [hcover] at hfor happ
  have hword : Disjoint (word l.mallocFreeList) (cover live) :=
    disjoint_cover.mpr fun t ht ↦ HeapInv.disjoint_word l (inv.live_chunk t ht)
  have hlive : Disjoint (word l.mallocFreeList ∪ cover free) (cover live) :=
    Set.disjoint_union_left.mpr ⟨hword, inv.apart⟩
  rw [Set.disjoint_union_left] at happ
  rw [Set.disjoint_union_right] at hfor
  refine ⟨?_, hchunk, hd, happ.1, hfor.1.symm⟩
  exact { inv with
    chain := hf.chain
    headed := fun t ht ↦ by
      have hc := inv.live_chunk t ht
      refine (inv.headed t ht).frame hf.frame ?_ (hc.toNat_add inv.hi_le_31)
      exact ((disjoint_cover.mp hlive t ht).mono_right (header_subset hc.min_le)).symm
    free_chunk := hchunks
    separated := hsep
    apart := happ.2
    foreign_free := hfor.2 }

theorem mallocGive_spec {n : Word} {k : ℕ} (hc : c.toNat = u.start + 4) (hu : Chunk lo hi u)
    (hhi : hi ≤ 2 ^ 31) (hhead : Headed h.mem u k) (hk : k - k % 2 = u.size) (h4 : 4 ≤ n.toNat)
    (hn : n.toNat ≤ u.size) :
    ∃ m, mallocGive h c n = (c, { h with mem := m }) ∧ Headed m u u.size ∧
      SameOutside u.range h.mem m ∧
      ∀ a : Addr, c.toNat ≤ a.toNat → a.toNat + 4 < c.toNat + n.toNat → m a = 0 := by
  have hb := hu.toNat_add hhi
  have hfin := hu.fin_le
  have hlen : (n - mallocHeadSize).toNat = n.toNat - 4 := by
    rw [BitVec.toNat_sub, toNat_mallocHeadSize]
    omega
  simp only [fin] at hfin
  have hle : c.toNat + (n - mallocHeadSize).toNat ≤ 2 ^ 32 := by omega
  let m₁ := markBusy h.mem c
  have hs₁ : SameOutside u.range h.mem m₁ := sameOutside_sizeRef hc hb hu.min_le
  have hs₂ := sameOutside_memset m₁ hle 0
  have hhead₁ : Headed m₁ u u.size := by
    have hw : (loadWord h.mem (sizeRef c) &&& ~~~1).toNat = u.size := by
      rw [toNat_clear, hhead.sizeRef hc, hk]
    exact hw ▸ headed_storeWord hc
  have hdis : Disjoint (header u)
      (Set.Ico c.toNat (c.toNat + (n - mallocHeadSize).toNat)) := by
    rw [header, Set.Ico_disjoint_Ico]
    omega
  refine ⟨_, rfl, hhead₁.frame hs₂ hdis hb, hs₁.trans (hs₂.mono fun x hx ↦ ?_), fun a ha ha' ↦ ?_⟩
  · rw [Set.mem_Ico] at hx
    rw [mem_range, fin]
    omega
  · exact if_pos ((toNat_sub_lt_iff hle).mpr ⟨ha, by omega⟩)

/-- Where the chunk for a request of `n` bytes comes from. -/
inductive Source (l : Link) (h h' : Heap) (n : ℕ) (u : Extent) (free : List Extent) :
    List Extent → Prop
  | listed (free' : List Extent) : Extent.take (sizeFor n) 16 free = some (u, free') →
      h' = { h with mem := h'.mem } → Source l h h' n u free free'
  | fresh (blob : Addr) : Extent.take (sizeFor n) 16 free = none →
      Fresh l h { h' with mem := h.mem } (sizeFor n) blob u → Source l h h' n u free free

structure Handed (l : Link) (h h' : Heap) (p : Addr) (n : ℕ) (u : Extent)
    (free' live : List Extent) (foreign : Set ℕ) (hi : ℕ) : Prop where
  inv : HeapInv l h' free' (u :: live) foreign hi
  at_p : p.toNat = u.start + 4
  size_le : n + 4 ≤ u.size
  brk_le : h.brk.toNat ≤ h'.brk.toNat
  frame : SameOutside (own l h'.brk.toNat live foreign) h.mem h'.mem

structure Given (l : Link) (h h' : Heap) (p : Addr) (n : ℕ) (u : Extent)
    (free free' live : List Extent) (foreign : Set ℕ) (hi : ℕ) : Prop
    extends Handed l h h' p n u free' live foreign hi where
  zero : ∀ a : Addr, p.toNat ≤ a.toNat → a.toNat < p.toNat + n → h'.mem a = 0
  source : Source l h h' n u free free'

structure Failed (l : Link) (h h' : Heap) (p : Addr) : Prop where
  null : p = 0
  errno : h'.errno = enomem
  refused : Refused l h h'

theorem mallocNew_spec (inv : HeapInv l h free live foreign hi) {n : Word}
    (hal : n.toNat % 16 = 0) (h16 : 16 ≤ n.toNat) :
    ∃ p h', mallocNew l h n = (p, h') ∧
      (Failed l h h' p ∧ l.top < h.brk.toNat + n.toNat + 16 ∨
        ∃ u blob, Fresh l h { h' with mem := h.mem } n.toNat blob u ∧
        HeapInv l h' free (u :: live) foreign u.fin ∧ p.toNat = u.start + 4 ∧
        SameOutside (own l h'.brk.toNat live foreign) h.mem h'.mem ∧
        ∀ a : Addr, p.toNat ≤ a.toNat → a.toNat + 4 < p.toNat + n.toNat → h'.mem a = 0) := by
  obtain ⟨blob, h', hsbrk, ⟨hret, href, hfull⟩ | ⟨u, hfresh⟩⟩ :=
    mallocSbrkAligned_spec inv.brk_le hal h16
  · rw [mallocNew, hsbrk]
    dsimp only
    rw [if_pos hret]
    exact ⟨_, _, rfl, .inl ⟨⟨rfl, rfl, { href with heap_eq := by rw [href.heap_eq]; rfl }⟩, hfull⟩⟩
  · obtain ⟨inv', hloose⟩ := inv.fresh hal h16 hfresh
    have hmem : h'.mem = h.mem := by rw [hfresh.heap_eq]
    have hhi := inv'.hi_le_31
    have hc := hfresh.toNat_chunk
    have hsize := hfresh.size_eq
    let m₁ := setSize h'.mem (blobToChunk blob) n
    have hs₁ : SameOutside u.range h.mem m₁ :=
      hmem ▸ sameOutside_sizeRef hc (hloose.chunk.toNat_add hhi) hloose.chunk.min_le
    have hhead : Headed m₁ u n.toNat := headed_storeWord hc
    obtain ⟨m, hgive, hhead', hs₂, hzero⟩ := mallocGive_spec (n := n) (h := { h' with mem := m₁ })
      hc hloose.chunk hhi hhead (by omega) (by omega) hsize.ge
    have inv'' := inv'.frame (hmem ▸ hs₁.trans hs₂) (HeapInv.disjoint_word l hloose.chunk)
      hloose.free hloose.live
    rw [mallocNew, hsbrk]
    dsimp only
    rw [if_neg hfresh.blob_ne, hgive]
    refine ⟨_, _, rfl, .inr ⟨u, blob, ?_, inv''.cons hloose hhead', hc,
      (hs₁.trans hs₂).mono (hloose.subset inv'.hi_le), hzero⟩⟩
    rw [← hmem]
    exact hfresh

theorem malloc_eq {n : Word} (hn : ¬ mallocAllocMax < n)
    (hloop : mallocLoop l (chunkSize n) fuel h l.mallocFreeList = some (c, h')) :
    malloc l fuel h n =
      some (if c = 0 then mallocNew l h' (chunkSize n) else mallocGive h' c (chunkSize n)) := by
  rw [malloc, if_neg hn]
  simp only [hloop, Option.bind_eq_bind, Option.bind_some]

theorem malloc_spec (inv : HeapInv l h free live foreign hi) (n : Word)
    (hfuel : free.length < fuel) :
    ∃ p h', malloc l fuel h n = some (p, h') ∧
      (Failed l h h' p ∧
          (n ≤ mallocAllocMax → Extent.take (sizeFor n.toNat) 16 free = none ∧
            l.top < h.brk.toNat + sizeFor n.toNat + 16) ∨
        ∃ u free' hi', Given l h h' p n.toNat u free free' live foreign hi') := by
  by_cases hmax : mallocAllocMax < n
  · rw [malloc, if_pos hmax]
    exact ⟨_, _, rfl, .inl ⟨⟨rfl, rfl, rfl, le_rfl, inv.brk_le, .inl ⟨rfl, rfl⟩⟩,
      fun hle ↦ absurd hmax (BitVec.not_lt.mpr hle)⟩⟩
  have hsize := toNat_chunkSize (BitVec.not_lt.mp hmax)
  obtain ⟨hspec, hal, h16, -⟩ := sizeFor_spec n.toNat
  rw [← hsize] at hal h16
  have htop : ∀ t ∈ free, t.fin + 1 ≠ h.mallocSbrkTop.toNat := by
    intro t ht
    have hchunk := inv.free_chunk t ht
    have h₁ := hchunk.fin_le
    have h₂ := hchunk.aligned
    have h₃ := hchunk.size_aligned
    have h₄ := inv.top
    simp only [fin] at h₁ ⊢
    omega
  cases htake : Extent.take (chunkSize n).toNat 16 free with
  | none =>
    rw [malloc_eq hmax (mallocLoop_none inv.hi_le_31 inv.freeList htop hfuel htake), if_pos rfl]
    obtain ⟨p, h', hnew, ⟨hfail, hfull⟩ | ⟨u, blob, hfresh, inv', hp, hs, hzero⟩⟩ :=
      mallocNew_spec inv hal h16
    · exact ⟨p, h', congrArg some hnew, .inl ⟨hfail, fun _ ↦ ⟨hsize ▸ htake, hsize ▸ hfull⟩⟩⟩
    · have huse := hfresh.size_eq
      refine ⟨p, h', congrArg some hnew, .inr ⟨u, free, u.fin, ?_⟩⟩
      exact {
        inv := inv'
        at_p := hp
        size_le := by omega
        brk_le := (hfresh.brk_le.trans (Nat.le_add_right _ _)).trans hfresh.brk_eq.ge
        zero := fun a ha ha' ↦ hzero a ha (by omega)
        frame := hs
        source := .fresh blob (hsize ▸ htake) (hsize ▸ hfresh) }
  | some r =>
    obtain ⟨u, free'⟩ := r
    obtain ⟨c, m, hloop, hf⟩ :=
      mallocLoop_found (l := l) inv.hi_le_31 inv.freeList htop hfuel hal h16 htake
    obtain ⟨inv', hloose⟩ := inv.take htake hal h16 hf
    obtain ⟨k, hhead, hk⟩ := hf.headed
    have hle := (taken_of_take htake).size_le
    have hne : c ≠ 0 := by
      rw [Ne, ← BitVec.toNat_inj, hf.at_c]
      exact Nat.succ_ne_zero _
    obtain ⟨m', hgive, hhead', hs, hzero⟩ := mallocGive_spec (h := { h with mem := m }) hf.at_c
      hloose.chunk inv.hi_le_31 hhead hk (by omega) hle
    have inv'' := inv'.frame hs (HeapInv.disjoint_word l hloose.chunk) hloose.free hloose.live
    rw [malloc_eq hmax hloop, if_neg hne]
    refine ⟨c, _, congrArg some hgive, .inr ⟨u, free', hi, ?_⟩⟩
    exact {
      inv := inv''.cons hloose hhead'
      at_p := hf.at_c
      size_le := by omega
      brk_le := le_rfl
      zero := fun a ha ha' ↦ hzero a ha (by omega)
      frame := (hf.frame.mono inv.listed_subset).trans (hs.mono (hloose.subset inv.hi_le))
      source := .listed free' (hsize ▸ htake) rfl }

namespace Given

variable {free' : List Extent} {hi' k : ℕ}

theorem sizeFor_le (hg : Given l h h' p k u free free' live foreign hi') : sizeFor k ≤ u.size := by
  rcases hg.source with ⟨_, htake, -⟩ | ⟨blob, -, hfresh⟩
  · exact (taken_of_take htake).size_le
  · exact hfresh.size_eq.ge

theorem tidy (hg : Given l h h' p k u free free' live foreign hi') (ht : Tidy h (free ++ live)) :
    Tidy h' (free' ++ u :: live) := by
  rcases hg.source with ⟨_, htake, heq⟩ | ⟨blob, -, hfresh⟩
  · rw [heq]
    have htotal := (taken_of_take htake).total_eq
    refine ht.regroup ?_ (fun b hb ↦ ?_) _
    · simp only [total_append, total_cons]
      omega
    · obtain ⟨hfree, hlive⟩ := List.forall_mem_append.mp hb
      obtain ⟨hu, hfree'⟩ := forall_take (P := fun s ↦ b ≤ s.start) (fun _ ht _ _ ↦ ht)
        (fun _ ht _ _ ↦ ht.trans (Nat.le_add_right _ _)) hfree htake
      exact List.forall_mem_append.mpr ⟨hfree', List.forall_mem_cons.mpr ⟨hu, hlive⟩⟩
  · have ht' := ht.fresh hfresh (sizeFor_spec k).2.1
    refine ht'.regroup ?_ (fun b hb ↦ ?_) h'.mem
    · simp only [total_append, total_cons]
      omega
    · obtain ⟨hu, hb⟩ := List.forall_mem_cons.mp hb
      obtain ⟨hfree, hlive⟩ := List.forall_mem_append.mp hb
      exact List.forall_mem_append.mpr ⟨hfree, List.forall_mem_cons.mpr ⟨hu, hlive⟩⟩

end Given

end Esp32c6Fw.Picolibc
