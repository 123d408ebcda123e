import TomatoOs.Fs.Ext2.Inode

/-!
# Mounting

`super.c` and `ext2.c`: the superblock is read and checked, the descriptors are
loaded block by block and checked, and the root inode is looked at. Every step
has its own exit.
-/

namespace TomatoOs.Fs.Ext2

open Lib Memory
open Kmem (heapSize)

-- ---------------------------------------------------------------------------
-- Group descriptors
-- ---------------------------------------------------------------------------

structure GroupDesc where
  bgBlockBitmap : Nat
  bgInodeBitmap : Nat
  bgInodeTable : Nat
deriving DecidableEq

def groupDesc (table : Mem) (g : Nat) : GroupDesc :=
  { bgBlockBitmap := table.load (sizeofGroupDesc * g) 4
    bgInodeBitmap := table.load (sizeofGroupDesc * g + 4) 4
    bgInodeTable := table.load (sizeofGroupDesc * g + 8) 4 }

section
variable (p : Partition)

def itableBlocks : Nat :=
  wsub 32 (wadd 32 (wmul 32 p.sb.sInodesPerGroup p.layout.inodeSize) p.layout.blockSize) 1 /
    p.layout.blockSize

def groupFirst (g : Nat) : Nat :=
  wadd 32 p.sb.sFirstDataBlock (wmul 32 g p.sb.sBlocksPerGroup)

def groupLast (g : Nat) : Nat :=
  let last := wsub 32 (wadd 32 (groupFirst p g) p.sb.sBlocksPerGroup) 1
  if last ≥ p.sb.sBlocksCount then wsub 32 p.sb.sBlocksCount 1 else last

def groupOk (g : Nat) (gd : GroupDesc) : Bool :=
  !decide (gd.bgBlockBitmap < groupFirst p g ∨ gd.bgBlockBitmap > groupLast p g ∨
    gd.bgInodeBitmap < groupFirst p g ∨ gd.bgInodeBitmap > groupLast p g ∨
    gd.bgInodeTable < groupFirst p g ∨
    wsub 32 (wadd 32 gd.bgInodeTable (itableBlocks p)) 1 > groupLast p g)

/-- The loop over the groups, `n` of them from `g` on. It reads the three blocks of
each, and `none` says that it faults there: the table may be longer than its heap
block. -/
def checkGroups (reach : Nat) (table : Mem) : Nat → Nat → Option Bool
  | 0, _ => some true
  | n + 1, g =>
    if sizeofGroupDesc * g + 12 ≤ reach then
      if groupOk p g (groupDesc table g) then checkGroups reach table n (g + 1) else some false
    else none

end

section
variable (E : Env)

def loadBlocks (fs buf firstBlock tableBytes : Nat) : Nat → Nat → Prog Kern Bool
  | 0, _ => pure true
  | n + 1, i => do
    let ok ← ext2ReadBlocks E fs (wadd 32 firstBlock i) buf
    if ok then
      let p ← getFs fs
      let done := wmul 32 i p.layout.blockSize
      let chunk := wsub 32 tableBytes done
      copyToTable p.groups done buf (if chunk > p.layout.blockSize then p.layout.blockSize else chunk)
      loadBlocks fs buf firstBlock tableBytes n (i + 1)
    else return false
where
  /-- `memcpy((char *)groups + done, buf, n)`, not followed behind the heap -/
  copyToTable (groups done buf n : Nat) : Prog Kern Unit := fun s =>
    if done + n ≤ heapSize then
      (some (), { s with
        tableAt := Function.update s.tableAt groups ((s.tableAt groups).paste done s.ram buf n) })
    else (none, s)

def dropGroups (fs : Nat) : Prog Kern Unit := do
  kfree (← getFs fs).groups
  setFs fs fun p => { p with groups := 0 }

def tableBytes (p : Partition) : Nat := wmul 32 p.layout.groupCount sizeofGroupDesc

def tableBlocks (p : Partition) : Nat :=
  wsub 32 (wadd 32 (tableBytes p) p.layout.blockSize) 1 / p.layout.blockSize

def loadGroupDescs (fs : Nat) : Prog Kern Bool := do
  let p ← getFs fs
  let groups ← kmalloc E (tableBytes p)
  setFs fs fun p => { p with groups := groups }
  if groups = 0 then return false
  else
    let phys ← allocPage E .groupDescs
    if phys = 0 then
      dropGroups fs
      return false
    else
      let ok ← loadBlocks E fs phys (wadd 32 p.sb.sFirstDataBlock 1) (tableBytes p) (tableBlocks p) 0
      freePage phys
      if ok then return true
      else
        dropGroups fs
        return false

def getTable (groups : Nat) : Prog Kern Mem := fun s => (some (s.tableAt groups), s)

def ext2ReadGroupDescs (fs : Nat) : Prog Kern Bool := do
  let ok ← loadGroupDescs E fs
  if ok then
    let p ← getFs fs
    let table ← getTable p.groups
    match checkGroups p E.reach table p.layout.groupCount 0 with
    | some true => return true
    | some false =>
      dropGroups fs
      return false
    | none => Prog.stop
  else return false

def ext2FreeGroupDescs (fs : Nat) : Prog Kern Unit := do
  let p ← getFs fs
  if p.groups = 0 then return () else dropGroups fs

-- ---------------------------------------------------------------------------
-- The superblock
-- ---------------------------------------------------------------------------

def ext2ReadSuperblock (fs : Nat) : Prog Kern Bool := do
  let p ← getFs fs
  let r := bytesToBlocks 1024 1024 E.lbaSize
  let ok ← diskRead E p.ioBuf (wadd 64 p.lbaStart r.lba) r.sizeInBlocks
  if ok then
    let ram ← getRam
    let sb : Superblock := ⟨p.sb.bytes.paste 0 ram (p.ioBuf + r.offset) sizeofSuperblock⟩
    setFs fs fun p => { p with sb := sb }
    return sb.sMagic == ext2Magic
  else return false

def storeLayout (fs : Nat) : Prog Kern Unit :=
  setFs fs fun p => { p with layout := ext2ComputeLayout wrapping p.sb E.lbaSize }

def ext2RootIno : Nat := 2

/-- What the three calls of `ext2_bmap` find is only printed. -/
def ext2CheckRoot (fs : Nat) : Prog Kern Bool := do
  let (ok, root) ← ext2ReadInode E fs ext2RootIno fun _ => 0
  if ok then
    if root.load 0 2 &&& 0xF000 ≠ 0x4000 ∨ root.load 4 4 = 0 ∨ root.load 26 2 = 0 then return false
    else
      let _ ← ext2Bmap E fs root 0
      let _ ← ext2Bmap E fs root 1
      let _ ← ext2Bmap E fs root 2
      return true
  else return false

def fillGroups (fs : Nat) : Prog Kern Bool := do
  let ok ← ext2ReadGroupDescs E fs
  if ok then
    let ok ← ext2CheckRoot E fs
    if ok then return true
    else
      ext2FreeGroupDescs fs
      return false
  else return false

def ext2FillSuper (fs : Nat) : Prog Kern Bool := do
  let ok ← ext2ReadSuperblock E fs
  if ok then
    match ext2ValidateSb (← getFs fs).sb E.lbaSize with
    | .error _ => return false
    | .ok () =>
      storeLayout E fs
      fillGroups E fs
  else return false

-- ---------------------------------------------------------------------------
-- Mounting
-- ---------------------------------------------------------------------------

def Partition.zero : Partition :=
  { sb := ⟨fun _ => 0⟩
    lbaStart := 0
    layout := ⟨0, 0, 0, 0, 0, false, 0, 0, 0, 0⟩
    groups := 0
    sbDirty := false
    lock := false
    ioBuf := 0 }

def maxPartitions : Nat := 8

def getPartitionCount : Prog Kern Nat := fun s => (some s.partitionCount, s)

def registerPartition (fs : Nat) : Prog Kern Unit := fun s =>
  (some (), { s with
    partitions := Function.update s.partitions s.partitionCount fs
    partitionCount := s.partitionCount + 1
    rootFs := if s.rootFs = 0 then fs else s.rootFs })

def mountWith (fs phys : Nat) : Prog Kern Bool := do
  setFs fs fun p => { p with ioBuf := phys }
  let ok ← ext2FillSuper E fs
  if ok then
    registerPartition fs
    return true
  else
    freePage phys
    return false

/-- A null pointer faults at the first access. -/
def ext2Init (fs lbaStart : Nat) : Prog Kern Bool := do
  if fs = 0 then Prog.stop
  else
    setFs fs fun _ => { Partition.zero with lbaStart := lbaStart }
    if (← getPartitionCount) ≥ maxPartitions then return false
    else
      let phys ← allocPage E .ioBuf
      if phys = 0 then return false else mountWith E fs phys

end

-- ---------------------------------------------------------------------------
-- A small disk
-- ---------------------------------------------------------------------------

def diskImage (fields : List (Nat × Nat × Nat)) : Mem :=
  fields.foldl (fun m f => Mem.store m f.1 f.2.1 f.2.2) fun _ => 0

def smallImage (inodeTable : Nat) : Mem :=
  diskImage [(1024, 4, 128), (1028, 4, 1024), (1044, 4, 1), (1056, 4, 8192), (1064, 4, 128),
    (1080, 2, ext2Magic), (2048, 4, 3), (2052, 4, 4), (2056, 4, inodeTable), (5248, 2, 0x41ED),
    (5252, 4, 1024), (5274, 2, 2), (5288, 4, 21)]

def freshKern (image : Mem) : Kern :=
  { pmm := { base := 4096, totalPages := 8, bitmap := fun _ => 0 }
    ram := fun _ => 0
    sectors := fun k j => image (512 * k + j)
    fsAt := fun _ => Partition.zero
    tableAt := fun _ _ => 0
    partitions := fun _ => 0
    partitionCount := 0
    rootFs := 0
    pageCalls := fun _ => 0
    kmallocCalls := 0
    held := []
    mallocs := []
    frees := []
    transfers := []
    writes := 0
    linuxCalls := [] }

def allOk : Env :=
  { lbaSize := 512
    readOk := fun _ => true
    writeOk := fun _ => true
    pageOk := fun _ _ => true
    kmallocOk := fun _ => true }

end TomatoOs.Fs.Ext2
