import TomatoOs.Lib.Bytes
import TomatoOs.Lib.Words

/-!
# The kernel heap

`kmalloc.c`, `kfree.c` and `krealloc.c` over a byte memory. A block is a
`struct meta_block` header followed by its data; headers are read and written
in memory, field by field, so a store that went astray would be seen by every
later load. The allocator's list walks are loops without a bound of their
own: here they take fuel and give `none` when it runs out.

`log` is not in the source. It records the byte range of every header store,
newest first, for statements about what a call writes.
-/

namespace TomatoOs.Kmem

open Lib

def heapSize : Nat := 16 * 1024 * 1024

def metaBlockSize : Nat := 40

/-- `struct meta_block` without its data: an `int`, padding, then 8-byte
members. -/
inductive Field
  | free
  | size
  | next
  | prev
  | ptr
  deriving DecidableEq, Repr

def Field.offset : Field → Nat
  | .free => 0
  | .size => 8
  | .next => 16
  | .prev => 24
  | .ptr => 32

def Field.width : Field → Nat
  | .free => 4
  | .size | .next | .prev | .ptr => 8

structure Heap where
  mem : Mem
  brk : Nat
  endp : Nat
  base : Nat
  log : List (Nat × Nat)

def Heap.get (h : Heap) (block : Nat) (f : Field) : Nat := h.mem.load (block + f.offset) f.width

def Heap.set (h : Heap) (block : Nat) (f : Field) (v : Nat) : Heap :=
  { h with mem := h.mem.store (block + f.offset) f.width v,
           log := (block + f.offset, f.width) :: h.log }

def sbrkFailed : Nat := 2 ^ 64 - 1

/-- `align4(x)`: `((((x) - 1) >> 2) << 2) + 4` in `size_t`. -/
def align4 (x : Nat) : Nat := wadd 64 (wsub 64 x 1 / 4 * 4) 4

-- ---------------------------------------------------------------------------
-- kmalloc.c
-- ---------------------------------------------------------------------------

/-- Enough for any list of blocks inside the heap. -/
def walkFuel : Nat := heapSize

/-- The loop of `find_block`: the last block passed, and the block found. -/
def Heap.findLoop (h : Heap) (size : Nat) : Nat → Nat → Nat → Option (Nat × Nat)
  | 0, _, _ => none
  | fuel + 1, last, b =>
    if b ≠ 0 ∧ (h.get b .free = 0 ∨ h.get b .size < size) then
      h.findLoop size fuel b (h.get b .next)
    else some (last, b)

def Heap.findBlock (h : Heap) (last size : Nat) : Option (Nat × Nat) :=
  h.findLoop size walkFuel last h.base

def kmemInit (mem : Mem) (heap : Nat) : Heap :=
  { mem, brk := heap, endp := wadd 64 heap heapSize, base := 0, log := [] }

def Heap.sbrk (h : Heap) (size : Nat) : Heap × Nat :=
  if size = 0 then (h, h.brk)
  else if wadd 64 h.brk size > h.endp then (h, sbrkFailed)
  else ({ h with brk := wadd 64 h.brk size }, h.brk)

/-- `if (block->next) block->next->prev = block`, which `split`,
`merge_blocks` and `krealloc` end with. -/
def Heap.linkBack (h : Heap) (block : Nat) : Heap :=
  if h.get block .next ≠ 0 then h.set (h.get block .next) .prev block else h

def Heap.split (h : Heap) (block size : Nat) : Heap :=
  let newblock := wadd 64 (wadd 64 block metaBlockSize) size
  let h := h.set newblock .size (wsub 64 (wsub 64 (h.get block .size) size) metaBlockSize)
  let h := h.set newblock .next (h.get block .next)
  let h := h.set newblock .free 1
  let h := h.set newblock .ptr (wadd 64 newblock metaBlockSize)
  let h := h.set newblock .prev block
  let h := h.set block .next newblock
  let h := h.set block .size size
  h.linkBack newblock

/-- `if (block->size - s >= (META_BLOCK_SIZE + 4)) split(block, s)`, which
`kmalloc` has once and `krealloc` twice. -/
def Heap.splitIfRoom (h : Heap) (block s : Nat) : Heap :=
  if metaBlockSize + 4 ≤ wsub 64 (h.get block .size) s then h.split block s else h

def Heap.extendHeap (h : Heap) (last size : Nat) : Heap × Nat :=
  let oldBreak := (h.sbrk 0).2
  let r := (h.sbrk 0).1.sbrk (wadd 64 metaBlockSize size)
  if r.2 = sbrkFailed then (r.1, 0)
  else
    let h := r.1.set oldBreak .size size
    let h := h.set oldBreak .free 0
    let h := h.set oldBreak .next 0
    let h := h.set oldBreak .prev 0
    let h := h.set oldBreak .ptr (wadd 64 oldBreak metaBlockSize)
    if last ≠ 0 then (h.set last .next oldBreak, oldBreak) else (h, oldBreak)

def Heap.kmalloc (h : Heap) (size : Nat) : Option (Heap × Nat) :=
  let s := align4 size
  if h.base ≠ 0 then
    (h.findBlock h.base s).map fun (last, block) =>
      if block ≠ 0 then
        ((h.splitIfRoom block s).set block .free 0, wadd 64 block metaBlockSize)
      else
        let r := h.extendHeap last s
        if r.2 = 0 then (r.1, 0) else (r.1, wadd 64 r.2 metaBlockSize)
  else
    let r := h.extendHeap 0 s
    if r.2 = 0 then some (r.1, 0)
    else some ({ r.1 with base := r.2 }, wadd 64 r.2 metaBlockSize)

-- ---------------------------------------------------------------------------
-- kfree.c
-- ---------------------------------------------------------------------------

def Heap.mergeBlocks (h : Heap) (block : Nat) : Heap :=
  let next := h.get block .next
  let h :=
    if next ≠ 0 ∧ h.get next .free ≠ 0 then
      let h := h.set block .size
        (wadd 64 (h.get block .size) (wadd 64 metaBlockSize (h.get next .size)))
      h.set block .next (h.get next .next)
    else h
  h.linkBack block

def Heap.lastLoop (h : Heap) : Nat → Nat → Option Nat
  | 0, _ => none
  | fuel + 1, current =>
    if current ≠ 0 ∧ h.get current .next ≠ 0 then h.lastLoop fuel (h.get current .next)
    else some current

def Heap.getLastBlock (h : Heap) : Option Nat := h.lastLoop walkFuel h.base

def getBlockAddr (p : Nat) : Nat := wsub 64 p metaBlockSize

def Heap.isAddrValid (h : Heap) (p : Nat) : Bool :=
  h.base ≠ 0 && p > h.base && p < h.brk && p == h.get (getBlockAddr p) .ptr

def Heap.cbrk (h : Heap) (addr : Nat) : Heap :=
  if addr ≥ h.endp ∨ addr < h.brk then h else { h with brk := addr }

/-- The branch of `kfree` for a block with no successor. -/
def Heap.releaseTail (h : Heap) (block : Nat) : Option Heap :=
  let h := if h.get block .prev ≠ 0 then h.set (h.get block .prev) .next 0 else { h with base := 0 }
  h.getLastBlock.map fun last => if block = last then h.cbrk block else h

def Heap.mergeBack (h : Heap) (block : Nat) : Heap × Nat :=
  let prev := h.get block .prev
  if prev ≠ 0 ∧ h.get prev .free ≠ 0 then (h.mergeBlocks prev, prev) else (h, block)

def Heap.kfree (h : Heap) (ptr : Nat) : Option Heap :=
  if h.isAddrValid ptr then
    let r := (h.set (getBlockAddr ptr) .free 1).mergeBack (getBlockAddr ptr)
    if r.1.get r.2 .next ≠ 0 then some (r.1.mergeBlocks r.2) else r.1.releaseTail r.2
  else some h

-- ---------------------------------------------------------------------------
-- krealloc.c
-- ---------------------------------------------------------------------------

def Heap.combined (h : Heap) (block : Nat) : Nat :=
  wadd 64 (wadd 64 (h.get block .size) metaBlockSize) (h.get (h.get block .next) .size)

def Heap.absorbNext (h : Heap) (block : Nat) : Heap :=
  let next := h.get block .next
  let h := h.set block .size (h.combined block)
  let h := h.set block .next (h.get next .next)
  h.linkBack block

def Heap.move (h : Heap) (ptr size : Nat) : Option (Heap × Nat) := do
  let block := wsub 64 ptr metaBlockSize
  let (h, newptr) ← h.kmalloc size
  if newptr = 0 then some (h, 0)
  else
    let newblock := wsub 64 newptr metaBlockSize
    let copySize :=
      if h.get block .size < h.get newblock .size then h.get block .size else h.get newblock .size
    let h := { h with mem := h.mem.copy newptr ptr copySize }
    let h ← h.kfree ptr
    some (h, newptr)

def Heap.krealloc (h : Heap) (ptr size : Nat) : Option (Heap × Nat) :=
  if ptr = 0 then h.kmalloc size
  else if size = 0 then (h.kfree ptr).map fun h => (h, 0)
  else
    let s := align4 size
    let block := wsub 64 ptr metaBlockSize
    let next := h.get block .next
    if s ≤ h.get block .size then some (h.splitIfRoom block s, ptr)
    else if next ≠ 0 ∧ h.get next .free ≠ 0 ∧ s ≤ h.combined block then
      some ((h.absorbNext block).splitIfRoom block s, ptr)
    else h.move ptr size

end TomatoOs.Kmem
