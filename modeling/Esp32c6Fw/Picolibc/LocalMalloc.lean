import Esp32c6Fw.Lib.Memory
import Esp32c6Fw.Stub.Sbrk

namespace Esp32c6Fw.Picolibc

open Soc Rv32

/-- `__builtin_align_up` -/
def alignUp (x y : Word) : Word := (x + (y - 1)) &&& ~~~(y - 1)

/-- `MAX` -/
def maxOf (a b : Word) : Word := if a > b then a else b

/-- The alignment of `max_align_t`, which has a `long double` of 16 bytes. -/
def mallocChunkAlign : Word := 16

def mallocHeadSize : Word := 4
def mallocChunkSize : Word := 4
def mallocChunkMin : Word := alignUp (mallocChunkSize + mallocHeadSize) mallocChunkAlign
def mallocChunkMax : Word := -1 - 2 * maxOf mallocChunkSize mallocChunkAlign
def mallocAllocMax : Word := mallocChunkMax - mallocHeadSize

def enomem : Word := 12
def einval : Word := 22

def errnoCode : Stub.Errno → Word
  | .eio => 5
  | .enosys => 88
  | .enomem => enomem

def sizeRef (chunk : Addr) : Addr := chunk - mallocHeadSize

def markFree (m : Mem) (c : Addr) : Mem :=
  storeWord m (sizeRef c) (loadWord m (sizeRef c) ||| 1)

def markBusy (m : Mem) (c : Addr) : Mem :=
  storeWord m (sizeRef c) (loadWord m (sizeRef c) &&& ~~~1)

def isFree (m : Mem) (c : Addr) : Prop := loadWord m (sizeRef c) &&& 1 ≠ 0

instance (m : Mem) (c : Addr) : Decidable (isFree m c) := inferInstanceAs (Decidable (_ ≠ _))

def size (m : Mem) (chunk : Addr) : Word := loadWord m (sizeRef chunk) &&& ~~~1

def setSize (m : Mem) (chunk : Addr) (size : Word) : Mem := storeWord m (sizeRef chunk) size

def next (m : Mem) (c : Addr) : Addr := loadWord m c

def setNext (m : Mem) (c next : Addr) : Mem := storeWord m c next

def blobToChunk (blob : Addr) : Addr := blob + mallocHeadSize

def chunkToBlob (c : Addr) : Addr := c - mallocHeadSize

def chunkEnd (m : Mem) (c : Addr) : Addr := sizeRef c + loadWord m (sizeRef c)

def chunkAfter (m : Mem) (c : Addr) : Addr := c + size m c

def chunkSize (mallocSize : Word) : Word :=
  maxOf mallocChunkMin (alignUp (mallocSize + mallocHeadSize) mallocChunkAlign)

def mallocSize (chunkSize : Word) : Word := chunkSize - mallocHeadSize

/-- The symbols of a program with a heap: `__malloc_free_list` is in its `.bss`. -/
structure Link extends Stub.SramLayout where
  mallocFreeList : Addr
  freeList_le : mallocFreeList.toNat + 4 ≤ heapEnd.toNat

/-- The memory, and the variables of the allocator, of `sbrk` and of the program it is
linked with that are not in it. -/
structure Heap where
  mem : Mem
  mallocSbrkStart : Addr
  mallocSbrkTop : Addr
  brk : Addr
  errno : Word

def Heap.fail (h : Heap) (errno : Word) : Heap := { h with errno }

def Heap.sbrk (l : Link) (h : Heap) (incr : Word) : Addr × Heap :=
  let r := Stub.sbrk l.toLayout h.brk incr
  (r.1.ret, { h with brk := r.2, errno := (r.1.errno.map errnoCode).getD h.errno })

end Esp32c6Fw.Picolibc
