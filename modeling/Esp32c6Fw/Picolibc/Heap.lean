import Esp32c6Fw.Picolibc.Free

namespace Esp32c6Fw.Picolibc

open Soc Rv32 Extent

/-- The chunks of a heap: those on the list, those handed out, and what the program has got
from `sbrk` itself. No chunk ends after `hi`. -/
structure HeapInv (l : Link) (h : Heap) (free live : List Extent) (foreign : Set ℕ) (hi : ℕ) :
    Prop where
  chain : FreeChain h.mem (loadWord h.mem l.mallocFreeList) free
  headed : ∀ s ∈ live, Headed h.mem s s.size
  free_chunk : ∀ s ∈ free, Chunk l.heapEnd.toNat hi s
  live_chunk : ∀ s ∈ live, Chunk l.heapEnd.toNat hi s
  separated : Separated free
  live_apart : live.Pairwise fun s t ↦ Disjoint s.range t.range
  apart : Disjoint (cover free) (cover live)
  foreign_free : Disjoint foreign (cover free)
  foreign_live : Disjoint foreign (cover live)
  foreign_subset : foreign ⊆ Set.Ico l.heapEnd.toNat h.brk.toNat
  hi_le : hi ≤ h.brk.toNat
  heapEnd_le : l.heapEnd.toNat ≤ h.brk.toNat
  brk_le : h.brk.toNat ≤ l.top
  /-- A header marked free makes no chunk seem to end at the top. -/
  top : h.mallocSbrkTop.toNat % 2 = 0 ∨ hi + 1 < h.mallocSbrkTop.toNat

structure Loose (l : Link) (s : Extent) (free live : List Extent) (foreign : Set ℕ) (hi : ℕ) :
    Prop where
  chunk : Chunk l.heapEnd.toNat hi s
  free : Disjoint s.range (cover free)
  live : Disjoint s.range (cover live)
  foreign : Disjoint s.range foreign

/-- The memory of the allocator: its list and what it has got from `sbrk`, without what is in
use. -/
def own (l : Link) (brk : ℕ) (live : List Extent) (foreign : Set ℕ) : Set ℕ :=
  (word l.mallocFreeList ∪ Set.Ico l.heapEnd.toNat brk) \ (cover live ∪ foreign)

theorem own_mono {l : Link} {brk brk' : ℕ} {live : List Extent} {foreign : Set ℕ}
    (h : brk ≤ brk') : own l brk live foreign ⊆ own l brk' live foreign :=
  Set.sdiff_subset_sdiff_left (Set.union_subset_union_right _ (Set.Ico_subset_Ico_right h))

variable {l : Link} {h : Heap} {free live : List Extent} {foreign F : Set ℕ} {hi fuel : ℕ}
  {s t : Extent} {c p : Addr} {m : Mem}

namespace HeapInv

theorem hi_le_31 (inv : HeapInv l h free live foreign hi) : hi ≤ 2 ^ 31 := by
  have h₁ := inv.hi_le
  have h₂ := inv.brk_le
  have h₃ := Stub.top_le l.toSramLayout
  omega

theorem length_lt (inv : HeapInv l h free live foreign hi) (hfuel : 2 ^ 15 < fuel) :
    free.length < fuel := by
  have h₁ := inv.hi_le
  have h₂ := inv.brk_le
  have h₃ := Stub.top_le l.toSramLayout
  have h₄ := l.sram_le
  have h₅ := length_mul_le_total (k := 16) fun s hs ↦ (inv.free_chunk s hs).min_le
  have h₆ := inv.separated.add_total_le (fun s hs ↦ (inv.free_chunk s hs).lo_le)
    (fun s hs ↦ (inv.free_chunk s hs).fin_le.trans h₁) inv.heapEnd_le
  omega

theorem word_le (inv : HeapInv l h free live foreign hi) : l.mallocFreeList.toNat + 4 ≤ 2 ^ 32 := by
  have h₁ := l.freeList_le
  have h₂ := inv.heapEnd_le
  have h₃ := inv.brk_le
  have h₄ := Stub.top_le l.toSramLayout
  omega

theorem disjoint_word (l : Link) (h : Chunk l.heapEnd.toNat hi s) :
    Disjoint (word l.mallocFreeList) s.range := by
  rw [word, range, Set.Ico_disjoint_Ico]
  have h₁ := l.freeList_le
  have h₂ := h.lo_le
  simp only [fin]
  omega

theorem freeList (inv : HeapInv l h free live foreign hi) :
    FreeList l.heapEnd.toNat hi h.mem l.mallocFreeList free where
  chain := inv.chain
  chunks := inv.free_chunk
  separated := inv.separated
  word_le := inv.word_le
  word_apart := disjoint_cover.mpr fun t ht ↦ HeapInv.disjoint_word l (inv.free_chunk t ht)

theorem frame_header (inv : HeapInv l h free live foreign hi) (hs : SameOutside F h.mem m)
    (hw : Disjoint (word l.mallocFreeList) F) (hf : Disjoint F (cover free))
    (hl : ∀ s ∈ live, Disjoint (header s) F) :
    HeapInv l { h with mem := m } free live foreign hi :=
  { inv with
    chain := by
      rw [hs.loadWord inv.word_le hw]
      exact inv.chain.frame hs hf inv.free_chunk inv.hi_le_31
    headed := fun s hmem ↦ (inv.headed s hmem).frame hs (hl s hmem)
      ((inv.live_chunk s hmem).toNat_add inv.hi_le_31) }

theorem frame (inv : HeapInv l h free live foreign hi) (hs : SameOutside F h.mem m)
    (hw : Disjoint (word l.mallocFreeList) F) (hf : Disjoint F (cover free))
    (hl : Disjoint F (cover live)) :
    HeapInv l { h with mem := m } free live foreign hi :=
  inv.frame_header hs hw hf fun s hmem ↦
    ((disjoint_cover.mp hl s hmem).mono_right (header_subset (inv.live_chunk s hmem).min_le)).symm

theorem perm {live' : List Extent} (inv : HeapInv l h free live foreign hi) (hp : live.Perm live') :
    HeapInv l h free live' foreign hi := by
  have hcover := cover_perm hp.symm
  exact { inv with
    headed := fun s hs ↦ inv.headed s (hp.mem_iff.mpr hs)
    live_chunk := fun s hs ↦ inv.live_chunk s (hp.mem_iff.mpr hs)
    live_apart := (hp.pairwise_iff fun h ↦ h.symm).mp inv.live_apart
    apart := hcover ▸ inv.apart
    foreign_live := hcover ▸ inv.foreign_live }

theorem moved (inv : HeapInv l h free live foreign hi) {brk : Addr} (errno : Word)
    (hle : h.brk.toNat ≤ brk.toNat) (htop : brk.toNat ≤ l.top) :
    HeapInv l { h with brk, errno } free live (foreign ∪ Set.Ico h.brk.toNat brk.toNat) hi := by
  have hbelow {L : List Extent} (hL : ∀ s ∈ L, Chunk l.heapEnd.toNat hi s) :
      Disjoint (Set.Ico h.brk.toNat brk.toNat) (cover L) := by
    refine disjoint_cover.mpr fun s hs ↦ Set.disjoint_left.mpr fun x hx hx' ↦ ?_
    exact absurd (hx'.2.trans_le ((hL s hs).fin_le.trans inv.hi_le)) (not_lt_of_ge hx.1)
  exact { inv with
    foreign_free := Set.disjoint_union_left.mpr ⟨inv.foreign_free, hbelow inv.free_chunk⟩
    foreign_live := Set.disjoint_union_left.mpr ⟨inv.foreign_live, hbelow inv.live_chunk⟩
    foreign_subset := Set.union_subset
      (inv.foreign_subset.trans (Set.Ico_subset_Ico_right hle))
      (Set.Ico_subset_Ico_left inv.heapEnd_le)
    hi_le := inv.hi_le.trans hle
    heapEnd_le := inv.heapEnd_le.trans hle
    brk_le := htop }

theorem uncons (inv : HeapInv l h free (s :: live) foreign hi) :
    HeapInv l h free live foreign hi ∧ Loose l s free live foreign hi ∧ Headed h.mem s s.size := by
  obtain ⟨hs, hl⟩ := List.forall_mem_cons.mp inv.live_chunk
  obtain ⟨hhead, hheads⟩ := List.forall_mem_cons.mp inv.headed
  have happ := inv.apart
  have hfor := inv.foreign_live
  rw [cover_cons, Set.disjoint_union_right] at happ hfor
  obtain ⟨hsl, hll⟩ := List.pairwise_cons.mp inv.live_apart
  exact ⟨{ inv with
    headed := hheads
    live_chunk := hl
    live_apart := hll
    apart := happ.2
    foreign_live := hfor.2 }, ⟨hs, happ.1.symm, disjoint_cover.mpr hsl, hfor.1.symm⟩, hhead⟩

theorem cons (inv : HeapInv l h free live foreign hi) (hs : Loose l s free live foreign hi)
    (hhead : Headed h.mem s s.size) : HeapInv l h free (s :: live) foreign hi :=
  { inv with
    headed := List.forall_mem_cons.mpr ⟨hhead, inv.headed⟩
    live_chunk := List.forall_mem_cons.mpr ⟨hs.chunk, inv.live_chunk⟩
    live_apart := List.pairwise_cons.mpr ⟨disjoint_cover.mp hs.live, inv.live_apart⟩
    apart := by
      rw [cover_cons]
      exact Set.disjoint_union_right.mpr ⟨hs.free.symm, inv.apart⟩
    foreign_live := by
      rw [cover_cons]
      exact Set.disjoint_union_right.mpr ⟨hs.foreign.symm, inv.foreign_live⟩ }

theorem listed_subset (inv : HeapInv l h free live foreign hi) :
    word l.mallocFreeList ∪ cover free ⊆ own l h.brk.toNat live foreign := by
  have hword : Disjoint (word l.mallocFreeList) (cover live ∪ foreign) := by
    refine Set.disjoint_union_right.mpr ⟨?_, Set.disjoint_left.mpr fun x hx hx' ↦ ?_⟩
    · exact disjoint_cover.mpr fun t ht ↦ disjoint_word l (inv.live_chunk t ht)
    · have hlo := (inv.foreign_subset hx').1
      have hle := l.freeList_le
      rw [mem_word] at hx
      omega
  have hfree : Disjoint (cover free) (cover live ∪ foreign) :=
    Set.disjoint_union_right.mpr ⟨inv.apart, inv.foreign_free.symm⟩
  refine Set.subset_sdiff.mpr ⟨Set.union_subset_union_right _ (cover_subset.mpr fun t ht ↦ ?_),
    Set.disjoint_union_left.mpr ⟨hword, hfree⟩⟩
  have hc := inv.free_chunk t ht
  exact Set.Ico_subset_Ico hc.lo_le (hc.fin_le.trans inv.hi_le)

end HeapInv

theorem Loose.subset (hs : Loose l s free live foreign hi) {brk : ℕ} (hhi : hi ≤ brk) :
    s.range ⊆ own l brk live foreign :=
  Set.subset_sdiff.mpr
    ⟨(Set.Ico_subset_Ico hs.chunk.lo_le (hs.chunk.fin_le.trans hhi)).trans
      Set.subset_union_right, Set.disjoint_union_right.mpr ⟨hs.live, hs.foreign⟩⟩

theorem free_loose (inv : HeapInv l h free live foreign hi) (hs : Loose l s free live foreign hi)
    (hc : c.toNat = s.start + 4) (hhead : Headed h.mem s s.size) (hfuel : free.length < fuel) :
    ∃ m, Picolibc.free l fuel h c = some { h with mem := m } ∧
      HeapInv l { h with mem := m } (Extent.insert s free) live foreign hi ∧ isFree m c ∧
      SameOutside (own l h.brk.toNat live foreign) h.mem m := by
  have hhi := inv.hi_le_31
  have hb := hs.chunk.toNat_add hhi
  have h16 := hs.chunk.min_le
  have heven := hs.chunk.size_aligned
  have hne : c ≠ 0 := by
    rw [Ne, ← BitVec.toNat_inj, hc]
    exact Nat.succ_ne_zero _
  have hbusy : ¬ isFree h.mem c := by
    rw [hhead.isFree_iff hc]
    omega
  let m₁ := setNext h.mem c 0
  let m₂ := markFree m₁ c
  have hs₁ : SameOutside s.range h.mem m₁ := sameOutside_setNext hc hb h16
  have hs₂ : SameOutside s.range m₁ m₂ := sameOutside_sizeRef hc hb h16
  have hhead₁ : Headed m₁ s s.size := hhead.setNext hc hb
  have hhead₂ : Headed m₂ s (s.size + 1) := by
    have hw : (loadWord m₁ (sizeRef c) ||| 1).toNat = s.size + 1 := by
      rw [toNat_or_one] <;> rw [hhead₁.sizeRef hc]
      omega
    exact hw ▸ headed_storeWord hc
  have hword := HeapInv.disjoint_word l hs.chunk
  have hs₁₂ := hs₁.trans hs₂
  have inv₂ := inv.frame hs₁₂ hword hs.free hs.live
  have hent : Entering l.heapEnd.toNat hi m₂ c l.mallocFreeList s free :=
    { inv₂.freeList with
      at_c := hc
      headed := hhead₂
      chunk := hs.chunk
      apart := hs.free
      word_chunk := hword }
  obtain ⟨m₃, hloop, hchain, hmark, hs₃⟩ := freeLoop_insert h hhi hent hfuel
  have hcover := cover_insert s free
  have hlive : Disjoint (word l.mallocFreeList ∪ (s.range ∪ cover free)) (cover live) := by
    refine Set.disjoint_union_left.mpr ⟨?_, Set.disjoint_union_left.mpr ⟨hs.live, inv.apart⟩⟩
    exact disjoint_cover.mpr fun t ht ↦ HeapInv.disjoint_word l (inv.live_chunk t ht)
  refine ⟨m₃, ?_, ?_, hmark, ?_⟩
  · rw [Picolibc.free, if_neg hne, if_neg hbusy]
    exact hloop
  · exact { inv with
      chain := hchain
      headed := fun t ht ↦ by
        have hc := inv.live_chunk t ht
        refine (inv₂.headed t ht).frame hs₃ ?_ (hc.toNat_add hhi)
        exact ((disjoint_cover.mp hlive t ht).mono_right (header_subset hc.min_le)).symm
      free_chunk := forall_insert (fun _ _ ↦ Chunk.join) hs.chunk inv.free_chunk
      separated := separated_insert inv.separated hs.chunk.pos
        (fun t ht ↦ (inv.free_chunk t ht).pos) hs.free
      apart := hcover ▸ Set.disjoint_union_left.mpr ⟨hs.live, inv.apart⟩
      foreign_free := hcover ▸ Set.disjoint_union_right.mpr ⟨hs.foreign.symm, inv.foreign_free⟩ }
  · have hown := hs.subset inv.hi_le
    refine (hs₁₂.mono hown).trans (hs₃.mono ?_)
    rw [Set.union_left_comm]
    exact Set.union_subset hown inv.listed_subset

theorem free_spec (inv : HeapInv l h free (s :: live) foreign hi) (hc : c.toNat = s.start + 4)
    (hfuel : free.length < fuel) :
    ∃ m, Picolibc.free l fuel h c = some { h with mem := m } ∧
      HeapInv l { h with mem := m } (Extent.insert s free) live foreign hi ∧ isFree m c ∧
      SameOutside (own l h.brk.toNat live foreign) h.mem m := by
  obtain ⟨inv', hs, hhead⟩ := inv.uncons
  exact free_loose inv' hs hc hhead hfuel

/-- The mark of a chunk that has just been freed stays, in whatever chunk it is now. -/
theorem free_marked (hne : c ≠ 0) (hmark : isFree h.mem c) :
    Picolibc.free l fuel h c = some (h.fail enomem) := by
  rw [Picolibc.free, if_neg hne, if_pos hmark]

theorem makeFreeChunk_spec {size : Word} (inv : HeapInv l h free live foreign hi)
    (hs : Loose l s free live foreign hi) (hc : c.toNat = s.start + 4)
    (hsize : size.toNat = s.size) (hfuel : free.length < fuel) :
    ∃ m, makeFreeChunk l fuel h c size = some { h with mem := m } ∧
      HeapInv l { h with mem := m } (Extent.insert s free) live foreign hi ∧
      SameOutside (own l h.brk.toNat live foreign) h.mem m := by
  have hs₁ : SameOutside s.range h.mem (setSize h.mem c size) :=
    sameOutside_sizeRef hc (hs.chunk.toNat_add inv.hi_le_31) hs.chunk.min_le
  have hhead : Headed (setSize h.mem c size) s s.size := hsize ▸ headed_storeWord hc
  have inv₁ := inv.frame hs₁ (HeapInv.disjoint_word l hs.chunk) hs.free hs.live
  obtain ⟨m, hfree, inv₂, -, hs₂⟩ := free_loose inv₁ hs hc hhead hfuel
  exact ⟨m, hfree, inv₂, (hs₁.mono (hs.subset inv.hi_le)).trans hs₂⟩

end Esp32c6Fw.Picolibc
