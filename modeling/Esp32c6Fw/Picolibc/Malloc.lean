import Esp32c6Fw.Picolibc.LocalMalloc

namespace Esp32c6Fw.Picolibc

open Soc Rv32

/-- How the loop of `free` over the list ends. -/
inductive FreeSpot
  | doubleFree
  /-- before the chunk `c` that is at `p` -/
  | before (p c : Addr)
  /-- right after the chunk `c` -/
  | after (c : Addr)

/-- The loops run for at most `fuel` turns. -/
def freeLoop (m : Mem) (pToFree : Addr) : ℕ → Addr → Option FreeSpot
  | 0, _ => none
  | fuel + 1, p =>
    let c := loadWord m p
    if c = 0 then some (.before p c)
    else if pToFree ≤ c then
      if pToFree = c then some .doubleFree else some (.before p c)
    else if chunkAfter m c = pToFree then some (.after c)
    else freeLoop m pToFree fuel c

/-- `no_insert` -/
def noInsert (m : Mem) (pToFree c : Addr) : Mem :=
  if chunkAfter m pToFree = c then
    let m := storeWord m (sizeRef pToFree) (loadWord m (sizeRef pToFree) + size m c)
    setNext m pToFree (next m c)
  else m

def freeInto (h : Heap) (m : Mem) (pToFree : Addr) : FreeSpot → Heap
  | .doubleFree => { h with mem := m, errno := enomem }
  | .before p c =>
    let m := storeWord (setNext m pToFree c) p pToFree
    { h with mem := noInsert m pToFree c }
  | .after c =>
    let m := storeWord m (sizeRef c) (loadWord m (sizeRef c) + size m pToFree)
    { h with mem := noInsert m c (next m c) }

def free (l : Link) (fuel : ℕ) (h : Heap) (freeP : Addr) : Option Heap :=
  if freeP = 0 then some h
  else if isFree h.mem freeP then some (h.fail enomem)
  else
    let m := markFree (setNext h.mem freeP 0) freeP
    (freeLoop m freeP fuel l.mallocFreeList).map (freeInto h m freeP)

def makeFreeChunk (l : Link) (fuel : ℕ) (h : Heap) (c : Addr) (size : Word) : Option Heap :=
  free l fuel { h with mem := setSize h.mem c size } c

/-- The last lines of `__malloc_sbrk_aligned`. -/
def setSbrkStart (h : Heap) (alignP : Addr) : Addr × Heap :=
  (alignP, if h.mallocSbrkStart = 0 then { h with mallocSbrkStart := alignP } else h)

def mallocSbrkAligned (l : Link) (h : Heap) (s : Word) : Addr × Heap :=
  if s.toInt < 0 then (-1, h)
  else
    let (p, h) := h.sbrk l s
    if p = -1 then (p, h)
    else
      let h := { h with mallocSbrkTop := p + s }
      let c := alignUp (p + mallocHeadSize) mallocChunkAlign
      let alignP := chunkToBlob c
      if alignP ≠ p then
        let adjust := alignP - p
        let (extra, h) := h.sbrk l adjust
        if extra ≠ p + s then (-1, h)
        else setSbrkStart { h with mallocSbrkTop := extra + adjust } alignP
      else setSbrkStart h alignP

def mallocGrowChunk (l : Link) (fuel : ℕ) (h : Heap) (c : Addr) (newSize : Word) :
    Option (Bool × Heap) :=
  let chunkE := chunkEnd h.mem c
  if chunkE ≠ h.mallocSbrkTop then some (false, h)
  else
    let addSize := maxOf mallocChunkMin (newSize - size h.mem c)
    let (heap, h) := mallocSbrkAligned l h addSize
    if heap = chunkE then
      let m := storeWord h.mem (sizeRef c) (loadWord h.mem (sizeRef c) + addSize)
      some (true, { h with mem := m })
    else if heap ≠ -1 then
      -- `sbrk` has moved on since: what it gave goes to the list
      (makeFreeChunk l fuel h (blobToChunk heap) addSize).map (false, ·)
    else some (false, h)

/-- Unlink the chunk `c` at `p`, or as much of it as is asked for. -/
def mallocSplit (m : Mem) (p c : Addr) (allocSize : Word) : Mem :=
  let rem := size m c - allocSize
  if mallocChunkMin ≤ rem then
    let s := c + allocSize
    let m := setSize m c allocSize
    let m := setSize m s rem
    let m := markFree m s
    let m := setNext m s (next m c)
    storeWord m p s
  else storeWord m p (next m c)

/-- The chunk is NULL if no one is large enough. -/
def mallocLoop (l : Link) (allocSize : Word) : ℕ → Heap → Addr → Option (Addr × Heap)
  | 0, _, _ => none
  | fuel + 1, h, p =>
    let c := loadWord h.mem p
    if c = 0 then some (0, h)
    else if allocSize ≤ size h.mem c then
      some (c, { h with mem := mallocSplit h.mem p c allocSize })
    else if next h.mem c = 0 then do
      let (grown, h) ← mallocGrowChunk l fuel h c allocSize
      if grown then some (c, { h with mem := storeWord h.mem p (next h.mem c) })
      else mallocLoop l allocSize fuel h c
    else mallocLoop l allocSize fuel h c

def mallocGive (h : Heap) (c : Addr) (allocSize : Word) : Addr × Heap :=
  (c, { h with mem := memset (markBusy h.mem c) c 0 (allocSize - mallocHeadSize) })

/-- No chunk of the list will do: ask for more memory. -/
def mallocNew (l : Link) (h : Heap) (allocSize : Word) : Addr × Heap :=
  let (blob, h) := mallocSbrkAligned l h allocSize
  if blob = -1 then (0, h.fail enomem)
  else
    let c := blobToChunk blob
    mallocGive { h with mem := setSize h.mem c allocSize } c allocSize

def malloc (l : Link) (fuel : ℕ) (h : Heap) (s : Word) : Option (Addr × Heap) :=
  if mallocAllocMax < s then some (0, h.fail enomem)
  else do
    let allocSize := chunkSize s
    let (c, h) ← mallocLoop l allocSize fuel h l.mallocFreeList
    some (if c = 0 then mallocNew l h allocSize else mallocGive h c allocSize)

/-- `mul_overflow`, without its result -/
def mulOverflow (a b : Word) : Bool :=
  if a = 0 ∨ b = 0 then false else decide (a > -1 / b) || decide (b > -1 / a)

def calloc (l : Link) (fuel : ℕ) (h : Heap) (n elem : Word) : Option (Addr × Heap) :=
  if mulOverflow n elem then some (0, h.fail enomem)
  else malloc l fuel h (n * elem)

/-- Looks for a free chunk right after the one to realloc. -/
def reallocLoop (pToRealloc chunkE : Addr) (oldSize : Word) : ℕ → Mem → Addr → Option (Word × Mem)
  | 0, _, _ => none
  | fuel + 1, m, p =>
    let r := loadWord m p
    if r = 0 then some (oldSize, m)
    else if r = chunkE then
      let rSize := size m r
      let m := storeWord m p (next m r)
      let m := memset m r 0 rSize
      let oldSize := oldSize + rSize
      some (oldSize, setSize m pToRealloc oldSize)
    else if pToRealloc < r then some (oldSize, m)
    else reallocLoop pToRealloc chunkE oldSize fuel m r

/-- Try to make the chunk larger where it is. -/
def reallocGrow (l : Link) (fuel : ℕ) (h : Heap) (pToRealloc : Addr) (oldSize newSize : Word) :
    Option (Word × Heap) := do
  let chunkE := chunkEnd h.mem pToRealloc
  let (grown, h) ← mallocGrowChunk l fuel h pToRealloc newSize
  if grown then
    some (newSize, { h with mem := memset h.mem chunkE 0 (newSize - oldSize) })
  else
    let (oldSize, m) ← reallocLoop pToRealloc chunkE oldSize fuel h.mem l.mallocFreeList
    some (oldSize, { h with mem := m })

/-- Keep the chunk, and free what it does not need. -/
def reallocShrink (l : Link) (fuel : ℕ) (h : Heap) (ptr : Addr) (oldSize newSize : Word) :
    Option (Addr × Heap) :=
  let extra := oldSize - newSize
  if mallocChunkMin ≤ extra then
    let m := setSize h.mem ptr newSize
    (makeFreeChunk l fuel { h with mem := m } (chunkAfter m ptr) extra).map (ptr, ·)
  else some (ptr, h)

/-- Allocate new memory and copy. -/
def reallocMove (l : Link) (fuel : ℕ) (h : Heap) (ptr : Addr) (oldSize size : Word) :
    Option (Addr × Heap) := do
  let (mem, h) ← malloc l fuel h size
  if mem = 0 then some (0, h)
  else
    let m := memcpy h.mem mem ptr (mallocSize oldSize)
    let h ← free l fuel { h with mem := m } ptr
    some (mem, h)

def realloc (l : Link) (fuel : ℕ) (h : Heap) (ptr : Addr) (size : Word) : Option (Addr × Heap) :=
  if ptr = 0 then malloc l fuel h size
  else if size = 0 then (free l fuel h ptr).map (0, ·)
  else if mallocAllocMax < size then some (0, h.fail enomem)
  else if isFree h.mem ptr then some (0, h.fail enomem)
  else do
    let newSize := chunkSize size
    let oldSize := Picolibc.size h.mem ptr
    let (oldSize, h) ←
      if oldSize < newSize then reallocGrow l fuel h ptr oldSize newSize else some (oldSize, h)
    if newSize ≤ oldSize then reallocShrink l fuel h ptr oldSize newSize
    else reallocMove l fuel h ptr oldSize size

def reallocarray (l : Link) (fuel : ℕ) (h : Heap) (optr : Addr) (nmemb size : Word) :
    Option (Addr × Heap) :=
  if mulOverflow nmemb size then some (0, h.fail enomem)
  else realloc l fuel h optr (nmemb * size)

def reallocf (l : Link) (fuel : ℕ) (h : Heap) (ptr : Addr) (size : Word) :
    Option (Addr × Heap) := do
  let (nptr, h) ← realloc l fuel h ptr size
  if nptr = 0 ∧ ptr ≠ 0 then (free l fuel h ptr).map (nptr, ·) else some (nptr, h)

/-- `UP_POT`: the exponent of the power of two, at least 4, that a small number goes up to. -/
def upPot (x : Word) : Word :=
  if x ≤ 1 <<< 4 then 4 else if x ≤ 1 <<< 5 then 5 else if x ≤ 1 <<< 6 then 6
  else if x ≤ 1 <<< 7 then 7 else if x ≤ 1 <<< 8 then 8 else if x ≤ 1 <<< 9 then 9
  else if x ≤ 1 <<< 10 then 10 else 0

/-- Split off the front piece if necessary. -/
def memalignFront (l : Link) (fuel : ℕ) (h : Heap) (chunkP alignedP : Addr) (align : Word) :
    Option (Addr × Heap) :=
  let offset := alignedP - chunkP
  if offset = 0 then some (chunkP, h)
  else
    let (alignedP, offset) :=
      if offset < mallocChunkMin then (alignedP + align, offset + align) else (alignedP, offset)
    let m := setSize h.mem alignedP (size h.mem chunkP - offset)
    (makeFreeChunk l fuel { h with mem := m } chunkP offset).map (alignedP, ·)

/-- Split off the back piece if large enough. -/
def memalignBack (l : Link) (fuel : ℕ) (h : Heap) (chunkP : Addr) (s : Word) :
    Option (Addr × Heap) :=
  let offset := size h.mem chunkP - s
  if mallocChunkMin ≤ offset then
    let m := storeWord h.mem (sizeRef chunkP) (loadWord h.mem (sizeRef chunkP) - offset)
    (makeFreeChunk l fuel { h with mem := m } (chunkAfter m chunkP) offset).map (chunkP, ·)
  else some (chunkP, h)

def memalign (l : Link) (fuel : ℕ) (h : Heap) (align s : Word) : Option (Addr × Heap) :=
  if align &&& (align - 1) ≠ 0 then some (0, h.fail einval)
  else
    let align := maxOf align (upPot mallocChunkMin)
    if mallocAllocMax < align ∨ mallocAllocMax - align < s then some (0, h.fail enomem)
    else do
      let s := chunkSize s
      let sizeWithPadding := s + align + mallocChunkMin
      let (allocated, h) ← malloc l fuel h sizeWithPadding
      if allocated = 0 then some (0, h)
      else
        let alignedP := alignUp allocated align
        let (chunkP, h) ← memalignFront l fuel h allocated alignedP align
        memalignBack l fuel h chunkP s

def mallocPageAlign : Word := 0x1000

def valloc (l : Link) (fuel : ℕ) (h : Heap) (s : Word) : Option (Addr × Heap) :=
  memalign l fuel h mallocPageAlign s

def pvalloc (l : Link) (fuel : ℕ) (h : Heap) (s : Word) : Option (Addr × Heap) :=
  if mallocAllocMax - mallocPageAlign < s then some (0, h.fail enomem)
  else valloc l fuel h (alignUp s mallocPageAlign)

def mallocUsableSize (h : Heap) (ptr : Addr) : Word := mallocSize (size h.mem ptr)

end Esp32c6Fw.Picolibc
