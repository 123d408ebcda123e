import TomatoOs.Fs.Ext2.Layout
import TomatoOs.Kmem.Allocator
import TomatoOs.Lib.Programs
import TomatoOs.Lib.Sectors
import TomatoOs.Mem.Pmm

/-!
# The kernel under the storage code

Pages from the page allocator, blocks from the heap, sectors of a disk, and the
spinlock of a partition. An `Env` says which calls succeed. A page is named by
its physical address; a heap block by the number of the `kmalloc` call that
returned it, so that no two blocks share a name and none is 0. No block is longer
than the heap, unless the sum in `sbrk` wraps, and memory ends where the kernel's
image ends.
-/

namespace TomatoOs.Fs.Ext2

open Lib Memory
open Kmem (heapSize metaBlockSize align4)

-- ---------------------------------------------------------------------------
-- State
-- ---------------------------------------------------------------------------

/-- The part of `struct ext2_partition` that the code uses. -/
structure Partition where
  sb : Superblock
  lbaStart : Nat
  layout : Layout
  groups : Nat
  sbDirty : Bool
  lock : Bool
  ioBuf : Nat

def Partition.setLock (p : Partition) (b : Bool) : Partition := { p with lock := b }

inductive PageSite
  | selftest
  | diskType
  | tryLinux
  | mbrLinux
  | gpt
  | mbr
  | ioBuf
  | groupDescs
deriving DecidableEq

theorem heap_in_image : heapSize ≤ heapSize ∧ heapSize ≤ 2 ^ 31 := by decide

/-- Which calls succeed. Calls are numbered from 0; those of `pmm_alloc_page`
at each place, and a call that may succeed still needs a free page. The image is
linked into the last 2 GiB of the address space. -/
structure Env where
  lbaSize : Nat
  readOk : Nat → Bool
  writeOk : Nat → Bool
  pageOk : PageSite → Nat → Bool
  kmallocOk : Nat → Bool
  /-- whether `brk + size` wraps in `sbrk`, for a block that does not fit into the heap -/
  sbrkWraps : Nat → Bool := fun _ => false
  /-- how far memory goes from a heap block on -/
  reach : Nat := heapSize
  image : heapSize ≤ reach ∧ reach ≤ 2 ^ 31 := by exact heap_in_image

def Env.grants (E : Env) (n size : Nat) : Bool :=
  E.kmallocOk n && (decide (metaBlockSize + align4 size ≤ heapSize) || E.sbrkWraps n)

theorem Env.grants_small (E : Env) (n : Nat) (h : metaBlockSize + align4 size ≤ heapSize) :
    E.grants n size = E.kmallocOk n := by
  simp [Env.grants, h]

/-- A call of `disk->read`, with the pages that were handed out then. -/
structure Transfer where
  buffer : Nat
  lba : Nat
  len : Nat
  held : List Nat
deriving DecidableEq

structure HeapBlock where
  addr : Nat
  size : Nat
deriving DecidableEq

/-- `fsAt` and `tableAt` are the heap blocks that hold a `struct ext2_partition`
and an array of descriptors. The lists record what the code did. -/
structure Kern where
  pmm : Pmm
  ram : Mem
  sectors : Nat → Mem
  fsAt : Nat → Partition
  tableAt : Nat → Mem
  partitions : Nat → Nat
  partitionCount : Nat
  rootFs : Nat
  pageCalls : PageSite → Nat
  kmallocCalls : Nat
  held : List Nat
  mallocs : List HeapBlock
  frees : List Nat
  transfers : List Transfer
  /-- how often `disk->write` was called -/
  writes : Nat
  /-- the start of every partition that was looked at -/
  linuxCalls : List Nat

-- ---------------------------------------------------------------------------
-- Sectors of a byte range
-- ---------------------------------------------------------------------------

structure BlockRange where
  lba : Nat
  sizeInBlocks : Nat
  offset : Nat
deriving DecidableEq

def alignDown (x align : Nat) : Nat := x - x % align

def alignUp (x align : Nat) : Nat :=
  if x % align = 0 then x else wadd 64 x (align - x % align)

def bytesToBlocks (start size lbaSize : Nat) : BlockRange :=
  { lba := alignDown start lbaSize / lbaSize
    sizeInBlocks :=
      if alignUp size lbaSize / lbaSize = 0 then 1 else alignUp size lbaSize / lbaSize
    offset := start - alignDown start lbaSize }

/-- The byte at `off` from sector `lba` on. Sector numbers have 64 bits. -/
def Kern.diskByte (s : Kern) (lbaSize lba : Nat) : Mem := fun off =>
  s.sectors ((lba + off / lbaSize) % 2 ^ 64) (off % lbaSize)

def Kern.withSectors (sectors : Nat → Mem) (s : Kern) : Kern := { s with sectors := sectors }

-- ---------------------------------------------------------------------------
-- Calls
-- ---------------------------------------------------------------------------

section
variable (E : Env)

def allocPage (site : PageSite) : Prog Kern Nat := fun s =>
  let r := if E.pageOk site (s.pageCalls site) then pmmAllocPage s.pmm 4096 else (s.pmm, 0)
  (some r.2, { s with
    pmm := r.1
    pageCalls := Function.update s.pageCalls site (s.pageCalls site + 1)
    held := if r.2 = 0 then s.held else r.2 :: s.held })

def freePage (addr : Nat) : Prog Kern Unit := fun s =>
  (some (), { s with pmm := pmmFree s.pmm addr 1, held := s.held.erase addr })

def kmalloc (size : Nat) : Prog Kern Nat := fun s =>
  if E.grants s.kmallocCalls size then
    (some (s.kmallocCalls + 1), { s with
      kmallocCalls := s.kmallocCalls + 1
      mallocs := s.mallocs ++ [⟨s.kmallocCalls + 1, size⟩] })
  else (some 0, { s with kmallocCalls := s.kmallocCalls + 1 })

def kfree (p : Nat) : Prog Kern Unit := fun s => (some (), { s with frees := s.frees ++ [p] })

def diskRead (buffer lba len : Nat) : Prog Kern Bool := fun s =>
  let ok := E.readOk s.transfers.length
  (some ok, { s with
    transfers := s.transfers ++ [⟨buffer, lba, len, s.held⟩]
    ram :=
      if ok then s.ram.paste buffer (s.diskByte E.lbaSize lba) 0 (len * E.lbaSize) else s.ram })

/-- `disk->write(disk->arg, hhdm + buffer, lba, len)`. A write that fails has no
effect. -/
def diskWrite (buffer lba len : Nat) : Prog Kern Bool := fun s =>
  let ok := E.writeOk s.writes
  (some ok, { s with
    writes := s.writes + 1
    sectors := if ok then overwrite E.lbaSize s.sectors s.ram buffer lba len else s.sectors })

end

def getFs (fs : Nat) : Prog Kern Partition := fun s => (some (s.fsAt fs), s)

def Kern.putFs (s : Kern) (fs : Nat) (p : Partition) : Kern :=
  { s with fsAt := Function.update s.fsAt fs p }

@[simp] theorem Kern.putFs_fs (s : Kern) (fs : Nat) (p : Partition) : (s.putFs fs p).fsAt fs = p :=
  Function.update_self ..

def setFs (fs : Nat) (f : Partition → Partition) : Prog Kern Unit := fun s =>
  (some (), s.putFs fs (f (s.fsAt fs)))

/-- The loop of `spinlock_aquire` does not end while the lock is held. -/
def spinlockAquire (fs : Nat) : Prog Kern Unit := fun s =>
  if (s.fsAt fs).lock then (none, s)
  else (some (), s.putFs fs ((s.fsAt fs).setLock true))

def spinlockRelease (fs : Nat) : Prog Kern Unit := setFs fs fun p => p.setLock false

end TomatoOs.Fs.Ext2
