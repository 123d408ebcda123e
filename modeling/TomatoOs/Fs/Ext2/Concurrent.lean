import TomatoOs.Lib.Interleaving
import TomatoOs.Fs.Ext2.Lock

/-!
# Calls on a partition at the same time

The calls on a partition take turns at every lock, transfer and copy. Those that use the
partition's own page hold its lock meanwhile, and the others go past both. The result is
that of the calls made one after the other, and no call keeps the others from returning.
-/

namespace TomatoOs.Fs.Ext2

open Lib Memory

-- ---------------------------------------------------------------------------
-- The calls by their steps
-- ---------------------------------------------------------------------------

namespace Steps

def spinlockAquire (fs : Nat) : Code Kern Unit :=
  .await (fun s => (s.fsAt fs).lock) (fun s => s.putFs fs ((s.fsAt fs).setLock true)) (.done ())

def locked (fs : Nat) (c : Code Kern α) : Code Kern α := do
  spinlockAquire fs
  let r ← c
  .prim (spinlockRelease fs)
  return r

section
variable (E : Env)

def ext2ReadBlocks (fs block buf : Nat) : Code Kern Bool := do
  let p ← .prim (getFs fs)
  if block ≥ p.sb.sBlocksCount then return false
  else
    let r := bytesToBlocks (wmul 64 block p.layout.blockSize) p.layout.blockSize E.lbaSize
    let lba := wadd 64 p.lbaStart r.lba
    if p.layout.blockSize ≥ E.lbaSize then .prim (diskRead E buf lba r.sizeInBlocks)
    else
      locked fs do
        let ok ← .prim (diskRead E p.ioBuf lba 1)
        .prim (Prog.when ok (memcpyPage buf (p.ioBuf + r.offset) p.layout.blockSize))
        return ok

def ext2WriteBlocks (fs block buf : Nat) : Code Kern Bool := do
  let p ← .prim (getFs fs)
  if p.layout.readOnly then return false
  else if block ≥ p.sb.sBlocksCount then return false
  else
    let r := bytesToBlocks (wmul 64 block p.layout.blockSize) p.layout.blockSize E.lbaSize
    let lba := wadd 64 p.lbaStart r.lba
    if p.layout.blockSize ≥ E.lbaSize then .prim (diskWrite E buf lba r.sizeInBlocks)
    else
      locked fs do
        let ok ← .prim (diskRead E p.ioBuf lba 1)
        if ok then
          .prim (memcpyPage (p.ioBuf + r.offset) buf p.layout.blockSize)
          .prim (diskWrite E p.ioBuf lba 1)
        else return false

def ext2ReadPtr (fs blk idx out : Nat) : Code Kern (Bool × Nat) := do
  let p ← .prim (getFs fs)
  if blk < p.sb.sFirstDataBlock ∨ blk ≥ p.sb.sBlocksCount then return (false, out)
  else
    locked fs do
      let ok ← ext2ReadBlocks E fs blk p.ioBuf
      let ram ← .prim getRam
      return (ok, if ok then ram.load (p.ioBuf + 4 * idx) 4 else out)

def ext2ReadInode (fs ino : Nat) (out : Mem) : Code Kern (Bool × Mem) := do
  let p ← .prim (getFs fs)
  if ino = 0 ∨ ino > p.sb.sInodesCount then return (false, out)
  else
    match ext2GetGroupDesc p ((ino - 1) / p.sb.sInodesPerGroup) with
    | none => return (false, out)
    | some gd =>
      let inodeTable ← .prim (tableLoad p.groups (gd + 8) 4)
      let byte := (ino - 1) % p.sb.sInodesPerGroup * p.layout.inodeSize
      let block := inodeTable + byte / p.layout.blockSize
      let off := byte % p.layout.blockSize
      if block ≥ p.sb.sBlocksCount then return (false, out)
      else
        locked fs do
          let ok ← ext2ReadBlocks E fs block p.ioBuf
          let ram ← .prim getRam
          let inode := Mem.paste (fun _ => 0) 0 ram (p.ioBuf + off)
            (if p.layout.inodeSize < sizeofInode then p.layout.inodeSize else sizeofInode)
          return (ok, if ok then inode else out)

def ext2WriteSuperblock (fs : Nat) : Code Kern Bool := do
  let p ← .prim (getFs fs)
  if p.layout.readOnly then return false
  else
    let r := bytesToBlocks 1024 1024 E.lbaSize
    let lba := wadd 64 p.lbaStart r.lba
    let ok ← locked fs do
      let ok ← .prim (diskRead E p.ioBuf lba r.sizeInBlocks)
      if ok then
        .prim (memcpySuperblock (p.ioBuf + r.offset) p.sb)
        .prim (diskWrite E p.ioBuf lba r.sizeInBlocks)
      else return false
    if ok then
      .prim (setFs fs fun p => { p with sbDirty := false })
      return true
    else return false

end

-- Without another call between its steps each of them is the call itself.

section
variable {E : Env}

@[simp] theorem locked_whole (fs : Nat) (c : Code Kern α) :
    (locked fs c).whole = Ext2.locked fs c.whole := by
  simp only [locked, Ext2.locked, Code.whole_bind, Code.whole_prim, Code.whole_pure]
  rfl

theorem readBlocks_whole (fs block buf : Nat) :
    (ext2ReadBlocks E fs block buf).whole = Ext2.ext2ReadBlocks E fs block buf := by
  simp only [ext2ReadBlocks, Ext2.ext2ReadBlocks, locked_whole, Code.whole_bind, Code.whole_prim,
    Code.whole_pure, Code.whole_ite]

theorem writeBlocks_whole (fs block buf : Nat) :
    (ext2WriteBlocks E fs block buf).whole = Ext2.ext2WriteBlocks E fs block buf := by
  simp only [ext2WriteBlocks, Ext2.ext2WriteBlocks, locked_whole, Code.whole_bind, Code.whole_prim,
    Code.whole_pure, Code.whole_ite]

theorem readPtr_whole (fs blk idx out : Nat) :
    (ext2ReadPtr E fs blk idx out).whole = Ext2.ext2ReadPtr E fs blk idx out := by
  simp only [ext2ReadPtr, Ext2.ext2ReadPtr, readBlocks_whole, locked_whole, Code.whole_bind,
    Code.whole_prim, Code.whole_pure, Code.whole_ite]

theorem readInode_whole (fs ino : Nat) (out : Mem) :
    (ext2ReadInode E fs ino out).whole = Ext2.ext2ReadInode E fs ino out := by
  rw [ext2ReadInode, Ext2.ext2ReadInode, Code.whole_bind, Code.whole_prim]
  congr 1
  funext p
  rw [Code.whole_ite, Code.whole_pure]
  cases ext2GetGroupDesc p ((ino - 1) / p.sb.sInodesPerGroup) with
  | none => simp only [Code.whole_pure]
  | some gd =>
    simp only [readBlocks_whole, locked_whole, Code.whole_bind, Code.whole_prim, Code.whole_pure,
      Code.whole_ite]

theorem writeSuperblock_whole (fs : Nat) :
    (ext2WriteSuperblock E fs).whole = Ext2.ext2WriteSuperblock E fs := by
  simp only [ext2WriteSuperblock, Ext2.ext2WriteSuperblock, locked_whole, Code.whole_bind,
    Code.whole_prim, Code.whole_pure, Code.whole_ite]

end

end Steps

-- ---------------------------------------------------------------------------
-- Calls
-- ---------------------------------------------------------------------------

inductive Outcome
  | flag (ok : Bool)
  | pointer (r : Bool × Nat)
  | inode (r : Bool × Mem)

inductive BlockCall
  | readPtr (blk idx out : Nat)
  | readInode (ino : Nat) (out : Mem)
  | readBlocks (block buf : Nat)
  | writeBlocks (block buf : Nat)
  | writeSuperblock

def BlockCall.run (E : Env) (fs : Nat) : BlockCall → Prog Kern Outcome
  | .readPtr blk idx out => do return .pointer (← ext2ReadPtr E fs blk idx out)
  | .readInode ino out => do return .inode (← ext2ReadInode E fs ino out)
  | .readBlocks block buf => do return .flag (← ext2ReadBlocks E fs block buf)
  | .writeBlocks block buf => do return .flag (← ext2WriteBlocks E fs block buf)
  | .writeSuperblock => do return .flag (← ext2WriteSuperblock E fs)

def BlockCall.steps (E : Env) (fs : Nat) : BlockCall → Code Kern Outcome
  | .readPtr blk idx out => do return .pointer (← Steps.ext2ReadPtr E fs blk idx out)
  | .readInode ino out => do return .inode (← Steps.ext2ReadInode E fs ino out)
  | .readBlocks block buf => do return .flag (← Steps.ext2ReadBlocks E fs block buf)
  | .writeBlocks block buf => do return .flag (← Steps.ext2WriteBlocks E fs block buf)
  | .writeSuperblock => do return .flag (← Steps.ext2WriteSuperblock E fs)

theorem BlockCall.steps_whole (E : Env) (fs : Nat) (c : BlockCall) :
    (c.steps E fs).whole = c.run E fs := by
  cases c <;>
    simp only [BlockCall.steps, BlockCall.run, Code.whole_bind, Code.whole_pure,
      Steps.readPtr_whole, Steps.readInode_whole, Steps.readBlocks_whole, Steps.writeBlocks_whole,
      Steps.writeSuperblock_whole]

def superRange (l : Nat) : BlockRange := bytesToBlocks 1024 1024 l

/-- A pointer is one of its block, a buffer is not the partition's own page, and blocks
that are written are not under the superblock, which is written back from a copy. -/
def BlockCall.Proper (l : Nat) (p : Partition) : BlockCall → Prop
  | .readPtr _ idx _ => 4 * idx + 4 ≤ p.layout.blockSize
  | .readInode _ _ => True
  | .readBlocks _ buf => Apart buf p.layout.blockSize p.ioBuf 4096
  | .writeBlocks block buf => Apart buf p.layout.blockSize p.ioBuf 4096 ∧
    Apart (block * p.layout.blockSize) p.layout.blockSize ((superRange l).lba * l)
      ((superRange l).sizeInBlocks * l)
  | .writeSuperblock => True

-- ---------------------------------------------------------------------------
-- Codes on the way
-- ---------------------------------------------------------------------------

section
variable (E : Env) (fs : Nat)

def releaseWith (out : Outcome) : Code Kern Outcome := do
  .prim (spinlockRelease fs)
  return out

def copyOut (take : Bool → Mem → Outcome) (ok : Bool) : Code Kern Outcome := do
  let ram ← .prim getRam
  releaseWith fs (take ok ram)

def fetchHeld (blk ioBuf : Nat) (take : Bool → Mem → Outcome) : Code Kern Outcome := do
  let ok ← Steps.ext2ReadBlocks E fs blk ioBuf
  copyOut fs take ok

def fetch (blk ioBuf : Nat) (take : Bool → Mem → Outcome) : Code Kern Outcome := do
  Steps.spinlockAquire fs
  fetchHeld E fs blk ioBuf take

def takePtr (p : Partition) (idx out : Nat) (ok : Bool) (ram : Mem) : Outcome :=
  .pointer (ok, if ok then ram.load (p.ioBuf + 4 * idx) 4 else out)

def takeInode (p : Partition) (ino : Nat) (out : Mem) (ok : Bool) (ram : Mem) : Outcome :=
  let byte := (ino - 1) % p.sb.sInodesPerGroup * p.layout.inodeSize
  let off := byte % p.layout.blockSize
  .inode (ok, if ok then Mem.paste (fun _ => 0) 0 ram (p.ioBuf + off)
    (if p.layout.inodeSize < sizeofInode then p.layout.inodeSize else sizeofInode) else out)

def inodeBlock (p : Partition) (ino inodeTable : Nat) : Nat :=
  inodeTable + (ino - 1) % p.sb.sInodesPerGroup * p.layout.inodeSize / p.layout.blockSize

def inodeFetch (p : Partition) (ino : Nat) (out : Mem) (inodeTable : Nat) : Code Kern Outcome :=
  if inodeBlock p ino inodeTable ≥ p.sb.sBlocksCount then return .inode (false, out)
  else fetch E fs (inodeBlock p ino inodeTable) p.ioBuf (takeInode p ino out)

def superClean (ok : Bool) : Code Kern Outcome :=
  if ok then do
    .prim (setFs fs fun p => { p with sbDirty := false })
    return .flag true
  else return .flag false

def superRelease (ok : Bool) : Code Kern Outcome := do
  .prim (spinlockRelease fs)
  superClean fs ok

def superLba (l : Nat) (p : Partition) : Nat := wadd 64 p.lbaStart (superRange l).lba

def superPut (p : Partition) : Code Kern Outcome := do
  let ok ← .prim (diskWrite E p.ioBuf (superLba E.lbaSize p) (superRange E.lbaSize).sizeInBlocks)
  superRelease fs ok

def superCopy (p : Partition) : Code Kern Outcome := do
  .prim (memcpySuperblock (p.ioBuf + (superRange E.lbaSize).offset) p.sb)
  superPut E fs p

def superHeld (p : Partition) : Code Kern Outcome := do
  let ok ← .prim (diskRead E p.ioBuf (superLba E.lbaSize p) (superRange E.lbaSize).sizeInBlocks)
  if ok then superCopy E fs p else superRelease fs false

end

section
variable {E : Env} {fs : Nat}

theorem steps_readPtr (blk idx out : Nat) : (BlockCall.readPtr blk idx out).steps E fs = (do
    let p ← .prim (getFs fs)
    if blk < p.sb.sFirstDataBlock ∨ blk ≥ p.sb.sBlocksCount then return .pointer (false, out)
    else fetch E fs blk p.ioBuf (takePtr p idx out)) := by
  simp only [BlockCall.steps, Steps.ext2ReadPtr, Steps.locked, fetch, fetchHeld, copyOut, releaseWith,
    takePtr, bind_assoc]
  congr 1
  funext p
  split <;> simp only [bind_assoc, pure_bind]

theorem steps_readInode (ino : Nat) (out : Mem) : (BlockCall.readInode ino out).steps E fs = (do
    let p ← .prim (getFs fs)
    if ino = 0 ∨ ino > p.sb.sInodesCount then return .inode (false, out)
    else
      match ext2GetGroupDesc p ((ino - 1) / p.sb.sInodesPerGroup) with
      | none => return .inode (false, out)
      | some gd =>
        let inodeTable ← .prim (tableLoad p.groups (gd + 8) 4)
        inodeFetch E fs p ino out inodeTable) := by
  simp only [BlockCall.steps, Steps.ext2ReadInode, bind_assoc]
  congr 1
  funext p
  split
  · rw [pure_bind]
  cases ext2GetGroupDesc p ((ino - 1) / p.sb.sInodesPerGroup) with
  | none => simp only [pure_bind]
  | some gd =>
    simp only [bind_assoc]
    congr 1
    funext inodeTable
    rw [inodeFetch, inodeBlock]
    split <;> simp only [Steps.locked, fetch, fetchHeld, copyOut, releaseWith, takeInode, bind_assoc,
      pure_bind]

theorem steps_writeSuperblock : BlockCall.writeSuperblock.steps E fs = (do
    let p ← .prim (getFs fs)
    if p.layout.readOnly then return .flag false
    else do
      Steps.spinlockAquire fs
      superHeld E fs p) := by
  simp only [BlockCall.steps, Steps.ext2WriteSuperblock, Steps.locked, bind_assoc]
  congr 1
  funext p
  split
  · rw [pure_bind]
  have hclean (ok : Bool) : ((if ok = true then do
        Code.prim (setFs fs fun p => { p with sbDirty := false })
        pure true
      else pure false) >>= fun r => (pure (Outcome.flag r) : Code Kern Outcome)) =
      superClean fs ok := by
    cases ok <;> rfl
  simp only [superHeld, superCopy, superPut, superRelease, bind_assoc, pure_bind, hclean]
  congr 1
  funext _
  congr 1
  funext ok
  cases ok with
  | false => rfl
  | true => simp only [if_true, bind_assoc]; rfl

end

-- ---------------------------------------------------------------------------
-- What the calls share
-- ---------------------------------------------------------------------------

/-- Nothing of the partition changes but its lock and the mark on its superblock. -/
structure Steady (fs : Nat) (P : Partition) (T : Nat → Mem) (s : Kern) : Prop where
  fields : ∃ dirty lock, s.fsAt fs = { P with sbDirty := dirty, lock := lock }
  tables : s.tableAt = T

/-- The calls that took effect, made one after the other, left the partition as it is now,
but for the page that belongs to whoever holds the lock. -/
structure InRow (fs : Nat) (P : Partition) (T : Nat → Mem) (s u : Kern) : Prop where
  now : Steady fs P T s
  row : Steady fs P T u
  free : (u.fsAt fs).lock = false
  sectors : u.sectors = s.sectors
  ram : ∀ x, ¬Within P.ioBuf 4096 x → u.ram x = s.ram x

/-- What the holder of the lock counts on. -/
structure Quiet (l : Nat) (P : Partition) (s s' : Kern) : Prop where
  page : ∀ x, Within P.ioBuf 4096 x → s'.ram x = s.ram x
  super : ∀ j < (superRange l).sizeInBlocks * l,
    byteAt l s'.sectors (superLba l P) j = byteAt l s.sectors (superLba l P) j

def blockLba (l : Nat) (p : Partition) (block : Nat) : Nat :=
  wadd 64 p.lbaStart (block * p.layout.blockSize / l)

def Env.always (l : Nat) (readOk writeOk : Bool) : Env :=
  { lbaSize := l, readOk := fun _ => readOk, writeOk := fun _ => writeOk
    pageOk := fun _ _ => true, kmallocOk := fun _ => true }

/-- Transfers end as a read and a write do in `E`. -/
def Env.Like (E e : Env) : Prop := ∃ n m, e = .always E.lbaSize (E.readOk n) (E.writeOk m)

theorem Env.like_always (E : Env) (n m : Nat) :
    E.Like (.always E.lbaSize (E.readOk n) (E.writeOk m)) := ⟨n, m, rfl⟩

theorem Env.Like.always {read write : Bool} (h : (Env.always l read write).Like e) :
    e = .always l read write := by
  obtain ⟨-, -, rfl⟩ := h
  rfl

def superImage (l : Nat) (P : Partition) (sectors : Nat → Mem) : Mem :=
  (byteAt l sectors (superLba l P)).paste (superRange l).offset P.sb.bytes 0 sizeofSuperblock

/-- The call comes down to a block that is read into the page: its result depends on
that block, and on no other byte of memory. -/
structure Wants (fs : Nat) (P : Partition) (T : Nat → Mem) (l : Nat) (c : BlockCall) (blk : Nat)
    (take : Bool → Mem → Outcome) : Prop where
  block : blk < P.sb.sBlocksCount
  inside : ∀ ok ram ram', (ok = true → ∀ j < P.layout.blockSize,
    ram (P.ioBuf + j) = ram' (P.ioBuf + j)) → take ok ram = take ok ram'
  runs : ∀ e v, e.lbaSize = l → Steady fs P T v →
    c.run e fs v = (fetch e fs blk P.ioBuf take).whole v

/-- Where a call is: its code, whether it holds the lock, and its outcome if it took effect. -/
inductive Stage (E : Env) (fs : Nat) (P : Partition) (T : Nat → Mem) (s : Kern) :
    BlockCall → Code Kern Outcome → Bool → Option Outcome → Prop
  | fresh (c : BlockCall) : Stage E fs P T s c (c.steps E fs) false none
  | lookup (ino : Nat) (out : Mem) (gd : Nat) (hino : ¬(ino = 0 ∨ ino > P.sb.sInodesCount))
      (hgd : ext2GetGroupDesc P ((ino - 1) / P.sb.sInodesPerGroup) = some gd) :
    Stage E fs P T s (.readInode ino out) (do
      let inodeTable ← .prim (tableLoad P.groups (gd + 8) 4)
      inodeFetch E fs P ino out inodeTable) false none
  | waiting (h : Wants fs P T E.lbaSize c blk take) :
    Stage E fs P T s c (fetch E fs blk P.ioBuf take) false none
  | held (h : Wants fs P T E.lbaSize c blk take) :
    Stage E fs P T s c (fetchHeld E fs blk P.ioBuf take) true none
  | reading (h : Wants fs P T E.lbaSize c blk take) :
    Stage E fs P T s c (do
      let ok ← .prim (diskRead E P.ioBuf (blockLba E.lbaSize P blk)
        (P.layout.blockSize / E.lbaSize))
      copyOut fs take ok) true none
  | fetched (h : Wants fs P T E.lbaSize c blk take) (ok : Bool) :
    Stage E fs P T s c (copyOut fs take ok) true (some (take ok s.ram))
  | releasing (out : Outcome) : Stage E fs P T s c (releaseWith fs out) true (some out)
  | finished (out : Outcome) : Stage E fs P T s c (.done out) false (some out)
  | readBlock (buf : Nat) (hb : block < P.sb.sBlocksCount) :
    Stage E fs P T s (.readBlocks block buf) (do
      let ok ← .prim (diskRead E buf (blockLba E.lbaSize P block)
        (P.layout.blockSize / E.lbaSize))
      return .flag ok) false none
  | writeBlock (buf : Nat) (hro : P.layout.readOnly = false) (hb : block < P.sb.sBlocksCount) :
    Stage E fs P T s (.writeBlocks block buf) (do
      let ok ← .prim (diskWrite E buf (blockLba E.lbaSize P block)
        (P.layout.blockSize / E.lbaSize))
      return .flag ok) false none
  | superWaiting (hro : P.layout.readOnly = false) :
    Stage E fs P T s .writeSuperblock (do
      Steps.spinlockAquire fs
      superHeld E fs P) false none
  | superHolding (hro : P.layout.readOnly = false) :
    Stage E fs P T s .writeSuperblock (superHeld E fs P) true none
  | superRead (hro : P.layout.readOnly = false) (hok : E.readOk n = true)
      (hpage : ∀ j < (superRange E.lbaSize).sizeInBlocks * E.lbaSize,
        s.ram (P.ioBuf + j) = byteAt E.lbaSize s.sectors (superLba E.lbaSize P) j) :
    Stage E fs P T s .writeSuperblock (superCopy E fs P) true none
  | superPatched (hro : P.layout.readOnly = false) (hok : E.readOk n = true)
      (hpage : ∀ j < (superRange E.lbaSize).sizeInBlocks * E.lbaSize,
        s.ram (P.ioBuf + j) = superImage E.lbaSize P s.sectors j) :
    Stage E fs P T s .writeSuperblock (superPut E fs P) true none
  | superReleasing (ok : Bool) :
    Stage E fs P T s .writeSuperblock (superRelease fs ok) true (some (.flag ok))
  | superCleaning :
    Stage E fs P T s .writeSuperblock (do
      .prim (setFs fs fun p => { p with sbDirty := false })
      return .flag true) false (some (.flag true))

inductive LockMove : Bool → Bool → Bool → Bool → Prop
  | keep (lock h : Bool) : LockMove lock lock h h
  | take : LockMove false true false true
  | release (lock : Bool) : LockMove lock false true false

/-- One step of a call: it goes on to the next stage, does not disturb the holder of the
lock unless it is the holder, and takes effect at most once. -/
def Advances (E : Env) (fs : Nat) (P : Partition) (T : Nat → Mem) (s u : Kern) (c : BlockCall)
    (h : Bool) (o : Option Outcome) (r : Code Kern Outcome × Kern) : Prop :=
  ∃ h' o' u', Stage E fs P T r.2 c r.1 h' o' ∧ InRow fs P T r.2 u' ∧
    LockMove (s.fsAt fs).lock (r.2.fsAt fs).lock h h' ∧ (h = false → Quiet E.lbaSize P s r.2) ∧
    (o' = o ∧ u' = u ∨ o = none ∧ ∃ e out, E.Like e ∧ o' = some out ∧
      c.run e fs u = (some out, u'))

section
variable {E : Env} {fs : Nat} {P : Partition} {T : Nat → Mem} {s s' u : Kern} {c : BlockCall}

theorem Quiet.refl (l : Nat) (P : Partition) (s : Kern) : Quiet l P s s :=
  ⟨fun _ _ => rfl, fun _ _ => rfl⟩

theorem Advances.look (hrow : InRow fs P T s u) (h : Stage E fs P T s c code k o) :
    Advances E fs P T s u c k o (code, s) :=
  ⟨k, o, u, h, hrow, .keep .., fun _ => .refl .., .inl ⟨rfl, rfl⟩⟩

theorem Advances.reject (hrow : InRow fs P T s u)
    (hrun : ∀ e, c.run e fs u = (some out, u)) :
    Advances E fs P T s u c false none (.done out, s) :=
  ⟨false, some out, u, .finished out, hrow, .keep .., fun _ => .refl ..,
    .inr ⟨rfl, _, out, E.like_always 0 0, rfl, hrun _⟩⟩

theorem Stage.quiet (h : Stage E fs P T s c code k o) (hq : Quiet E.lbaSize P s s')
    (hpage : P.layout.blockSize ≤ 4096)
    (hsuper : (superRange E.lbaSize).sizeInBlocks * E.lbaSize ≤ 4096) :
    Stage E fs P T s' c code k o := by
  have hram (j : Nat) (hj : j < 4096) : s'.ram (P.ioBuf + j) = s.ram (P.ioBuf + j) :=
    hq.page _ ⟨Nat.le_add_right .., by omega⟩
  cases h with
  | fresh => exact .fresh c
  | lookup ino out gd hino hgd => exact .lookup ino out gd hino hgd
  | waiting h => exact .waiting h
  | held h => exact .held h
  | reading h => exact .reading h
  | fetched h ok =>
    rename_i take
    have hsame : take ok s.ram = take ok s'.ram :=
      h.inside ok _ _ fun _ j hj => (hram j (by omega)).symm
    rw [hsame]
    exact .fetched h ok
  | releasing out => exact .releasing out
  | finished out => exact .finished out
  | readBlock buf hb => exact .readBlock buf hb
  | writeBlock buf hro hb => exact .writeBlock buf hro hb
  | superWaiting hro => exact .superWaiting hro
  | superHolding hro => exact .superHolding hro
  | superRead hro hok hpage =>
    refine .superRead hro hok fun j hj => ?_
    rw [hram j (by omega), hpage j hj, hq.super j hj]
  | superPatched hro hok hpage =>
    refine .superPatched hro hok fun j hj => ?_
    rw [hram j (by omega), hpage j hj]
    simp only [superImage, Mem.paste]
    split
    · rfl
    · exact (hq.super j hj).symm
  | superReleasing ok => exact .superReleasing ok
  | superCleaning => exact .superCleaning

theorem Stage.anywhere (h : Stage E fs P T s c code false o) (s' : Kern) :
    Stage E fs P T s' c code false o := by
  cases h with
  | fresh => exact .fresh c
  | lookup ino out gd hino hgd => exact .lookup ino out gd hino hgd
  | waiting h => exact .waiting h
  | finished out => exact .finished out
  | readBlock buf hb => exact .readBlock buf hb
  | writeBlock buf hro hb => exact .writeBlock buf hro hb
  | superWaiting hro => exact .superWaiting hro
  | superCleaning => exact .superCleaning

-- ---------------------------------------------------------------------------
-- Transfers, beside the calls and in the row
-- ---------------------------------------------------------------------------

theorem Steady.congr (h : Steady fs P T s) (hfs : s'.fsAt fs = s.fsAt fs)
    (htable : s'.tableAt = s.tableAt) : Steady fs P T s' :=
  ⟨hfs ▸ h.fields, htable.trans h.tables⟩

theorem Steady.setLock (h : Steady fs P T s) (b : Bool) :
    Steady fs P T (s.putFs fs ((s.fsAt fs).setLock b)) := by
  obtain ⟨dirty, lock, hfs⟩ := h.fields
  refine ⟨⟨dirty, b, ?_⟩, h.tables⟩
  rw [Kern.putFs_fs, hfs]
  rfl

theorem Steady.clean (h : Steady fs P T s) :
    Steady fs P T (s.putFs fs { s.fsAt fs with sbDirty := false }) := by
  obtain ⟨dirty, lock, hfs⟩ := h.fields
  refine ⟨⟨false, lock, ?_⟩, h.tables⟩
  rw [Kern.putFs_fs, hfs]

theorem Steady.getFs (h : Steady fs P T s) :
    ∃ dirty lock, getFs fs s = (some { P with sbDirty := dirty, lock := lock }, s) := by
  obtain ⟨dirty, lock, hfs⟩ := h.fields
  exact ⟨dirty, lock, by rw [Ext2.getFs, hfs]⟩

theorem Steady.sectored (h : Steady fs P T s) (hsec : Sectored l P) : Sectored l (s.fsAt fs) := by
  obtain ⟨dirty, lock, hfs⟩ := h.fields
  rw [hfs]
  exact ⟨hsec.dvd, hsec.pos, hsec.page⟩

theorem Steady.readBlocks (h : Steady fs P T s) (hsec : Sectored E.lbaSize P)
    (hb : block < P.sb.sBlocksCount) (buf : Nat) :
    ext2ReadBlocks E fs block buf s =
      diskRead E buf (blockLba E.lbaSize P block) (P.layout.blockSize / E.lbaSize) s := by
  have hsec' := h.sectored hsec
  obtain ⟨dirty, lock, hfs⟩ := h.fields
  rw [readBlocks_eq hsec' (by rw [hfs]; exact hb), hfs]
  rfl

theorem Steady.run (h : Steady fs P T s) {k : Partition → Code Kern Outcome}
    (hsteps : c.steps E fs = Code.prim (Ext2.getFs fs) >>= k) :
    ∃ dirty lock, c.run E fs s = (k { P with sbDirty := dirty, lock := lock }).whole s := by
  obtain ⟨dirty, lock, hfs⟩ := h.getFs
  refine ⟨dirty, lock, ?_⟩
  rw [← BlockCall.steps_whole, hsteps, Code.whole_bind, Code.whole_prim, Prog.bind_eq hfs]

theorem InRow.read (h : InRow fs P T s u) {e : Env} (hl : e.lbaSize = E.lbaSize)
    (hok : e.readOk u.transfers.length = E.readOk s.transfers.length) (buf lba len : Nat) :
    InRow fs P T (diskRead E buf lba len s).2 (diskRead e buf lba len u).2 := by
  refine ⟨h.now.congr rfl rfl, h.row.congr rfl rfl, h.free, h.sectors, fun x hx => ?_⟩
  have hbyte : u.diskByte E.lbaSize lba = s.diskByte E.lbaSize lba :=
    congrArg (byteAt E.lbaSize · lba) h.sectors
  simp only [diskRead, hok, hl, hbyte]
  split
  · simp only [Mem.paste]
    split
    · rfl
    · exact h.ram x hx
  · exact h.ram x hx

theorem InRow.write (h : InRow fs P T s u) {e : Env} (hl : e.lbaSize = E.lbaSize)
    (hok : e.writeOk u.writes = E.writeOk s.writes) {buf lba len : Nat}
    (hdata : ∀ j < len * E.lbaSize, u.ram (buf + j) = s.ram (buf + j)) :
    InRow fs P T (diskWrite E buf lba len s).2 (diskWrite e buf lba len u).2 := by
  refine ⟨h.now.congr rfl rfl, h.row.congr rfl rfl, h.free, ?_, h.ram⟩
  simp only [diskWrite, hok, hl, h.sectors, overwrite_congr hdata]

theorem aquire_whole (hfree : (u.fsAt fs).lock = false) :
    (Steps.spinlockAquire fs).whole u = (some (), u.putFs fs ((u.fsAt fs).setLock true)) := by
  simp only [Steps.spinlockAquire, Code.whole, hfree, Bool.false_eq_true, if_false]
  rfl

theorem fetch_row (h : Steady fs P T u) (hfree : (u.fsAt fs).lock = false) {e : Env}
    (hsec : Sectored e.lbaSize P) (hb : blk < P.sb.sBlocksCount) (take : Bool → Mem → Outcome) :
    (fetch e fs blk P.ioBuf take).whole u =
      (some (take (e.readOk u.transfers.length)
          (diskRead e P.ioBuf (blockLba e.lbaSize P blk) (P.layout.blockSize / e.lbaSize) u).2.ram),
        (diskRead e P.ioBuf (blockLba e.lbaSize P blk) (P.layout.blockSize / e.lbaSize) u).2) := by
  have hread : ext2ReadBlocks e fs blk P.ioBuf (u.putFs fs ((u.fsAt fs).setLock true)) =
      (some (e.readOk u.transfers.length), (diskRead e P.ioBuf (blockLba e.lbaSize P blk)
        (P.layout.blockSize / e.lbaSize) (u.putFs fs ((u.fsAt fs).setLock true))).2) :=
    (h.setLock true).readBlocks hsec hb P.ioBuf
  simp only [fetch, fetchHeld, copyOut, releaseWith, Code.whole_bind, Code.whole_prim, Code.whole_pure,
    Steps.readBlocks_whole]
  rw [Prog.bind_eq (aquire_whole hfree), Prog.bind_eq hread]
  refine Prod.ext rfl ?_
  exact Kern.unlocked hfree rfl

theorem super_row_failed (hfree : (u.fsAt fs).lock = false) (l : Nat) (w : Bool) :
    (Steps.spinlockAquire fs >>= fun _ => superHeld (.always l false w) fs P).whole u =
      (some (.flag false), (diskRead (.always l false w) P.ioBuf (superLba l P)
        (superRange l).sizeInBlocks u).2) := by
  simp only [superHeld, superRelease, superClean, Code.whole_bind, Code.whole_prim, Code.whole_pure,
    Code.whole_ite]
  rw [Prog.bind_eq (aquire_whole hfree)]
  refine Prod.ext rfl ?_
  exact Kern.unlocked hfree rfl

theorem super_row (h : Steady fs P T u) (hfree : (u.fsAt fs).lock = false) (l : Nat) (ok : Bool) :
    ∃ t, (Steps.spinlockAquire fs >>= fun _ => superHeld (.always l true ok) fs P).whole u =
        (some (.flag ok), t) ∧ Steady fs P T t ∧ (t.fsAt fs).lock = false ∧
      t.ram = (u.ram.paste P.ioBuf (byteAt l u.sectors (superLba l P)) 0
        ((superRange l).sizeInBlocks * l)).paste (P.ioBuf + (superRange l).offset) P.sb.bytes 0
          sizeofSuperblock ∧
      t.sectors = if ok then overwrite l u.sectors t.ram P.ioBuf (superLba l P)
        (superRange l).sizeInBlocks else u.sectors := by
  simp only [superHeld, superCopy, superPut, superRelease, superClean, Code.whole_bind,
    Code.whole_prim, Code.whole_pure, Code.whole_ite]
  rw [Prog.bind_eq (aquire_whole hfree)]
  -- in both cases the fields are those after the lock was taken and released
  have hback := (h.setLock true).setLock false
  cases ok with
  | false => exact ⟨_, rfl, hback.congr rfl rfl, by simp [Partition.setLock], rfl, rfl⟩
  | true => exact ⟨_, rfl, hback.clean.congr rfl rfl, by simp [Partition.setLock], rfl, rfl⟩

-- ---------------------------------------------------------------------------
-- The two calls that read a block under the lock
-- ---------------------------------------------------------------------------

theorem wants_readPtr (hidx : 4 * idx + 4 ≤ P.layout.blockSize)
    (hblk : ¬(blk < P.sb.sFirstDataBlock ∨ blk ≥ P.sb.sBlocksCount)) (l out : Nat) :
    Wants fs P T l (.readPtr blk idx out) blk (takePtr P idx out) := by
  refine ⟨by omega, fun ok ram ram' hram => ?_, fun e v _ hv => ?_⟩
  · cases ok with
    | false => rfl
    | true =>
      have hload : ram.load (P.ioBuf + 4 * idx) 4 = ram'.load (P.ioBuf + 4 * idx) 4 :=
        Mem.load_eq fun i hi => by
          rw [Nat.add_assoc]
          exact hram rfl (4 * idx + i) (by omega)
      simp only [takePtr, if_true, hload]
  · obtain ⟨dirty, lock, hrun⟩ := hv.run (steps_readPtr (E := e) blk idx out)
    rw [hrun, if_neg hblk]
    rfl

theorem wants_readInode (hv : Volume l P) (hino : ¬(ino = 0 ∨ ino > P.sb.sInodesCount))
    (hgd : ext2GetGroupDesc P ((ino - 1) / P.sb.sInodesPerGroup) = some gd)
    (hblk : inodeBlock P ino ((T P.groups).load (gd + 8) 4) < P.sb.sBlocksCount) (out : Mem) :
    Wants fs P T l (.readInode ino out) (inodeBlock P ino ((T P.groups).load (gd + 8) 4))
      (takeInode P ino out) := by
  refine ⟨hblk, fun ok ram ram' hram => ?_, fun e v _ hs => ?_⟩
  · cases ok with
    | false => rfl
    | true =>
      obtain ⟨hsize, hinside⟩ := hv.inode_inside ino
      rw [inodeOffset] at hinside
      simp only [takeInode, if_true, if_neg (Nat.not_lt.mpr hsize)]
      congr 2
      funext x
      simp only [Mem.paste]
      split
      · rename_i hx
        rw [Nat.add_assoc]
        exact hram rfl _ (by have := hx.2; omega)
      · rfl
  · obtain ⟨dirty, lock, hrun⟩ := hs.run (steps_readInode (E := e) ino out)
    have htable : tableLoad P.groups (gd + 8) 4 v = (some ((T P.groups).load (gd + 8) 4), v) := by
      rw [tableLoad, hs.tables]
    rw [hrun, if_neg hino]
    have hgd' : ext2GetGroupDesc { P with sbDirty := dirty, lock := lock }
      ((ino - 1) / P.sb.sInodesPerGroup) = some gd := hgd
    simp only [hgd', Code.whole_bind, Code.whole_prim]
    rw [Prog.bind_eq htable]
    show (inodeFetch e fs P ino out _).whole v = _
    rw [inodeFetch, if_neg (Nat.not_le.mpr hblk)]

-- ---------------------------------------------------------------------------
-- Steps
-- ---------------------------------------------------------------------------

/-- A partition that was accepted, on a disk with sectors of a usual size. -/
structure Setting (l : Nat) (P : Partition) : Prop where
  volume : Volume l P
  range : SuperblockRange l
  few : (superRange l).sizeInBlocks * l ≤ 4096

theorem Setting.of_volume (h : Volume l P) (hl : l = 512 ∨ l = 1024 ∨ l = 2048 ∨ l = 4096) :
    Setting l P := by
  refine ⟨h, superblockRange hl, ?_⟩
  rcases hl with rfl | rfl | rfl | rfl <;> decide

theorem advance_readPtr (hrow : InRow fs P T s u)
    (hc : (BlockCall.readPtr blk idx out).Proper E.lbaSize P) :
    Advances E fs P T s u (.readPtr blk idx out) false none
      (((BlockCall.readPtr blk idx out).steps E fs).advance s) := by
  obtain ⟨dirty, lock, hfs⟩ := hrow.now.getFs
  rw [steps_readPtr, Code.advance_prim hfs]
  by_cases hblk : blk < P.sb.sFirstDataBlock ∨ blk ≥ P.sb.sBlocksCount
  · rw [if_pos hblk]
    refine .reject hrow fun e => ?_
    obtain ⟨dirty, lock, hrun⟩ := hrow.row.run (steps_readPtr (E := e) blk idx out)
    rw [hrun, if_pos hblk]
    rfl
  · rw [if_neg hblk]
    exact .look hrow (.waiting (wants_readPtr hc hblk E.lbaSize out))

theorem advance_readInode (hrow : InRow fs P T s u) (ino : Nat) (out : Mem) :
    Advances E fs P T s u (.readInode ino out) false none
      (((BlockCall.readInode ino out).steps E fs).advance s) := by
  obtain ⟨dirty, lock, hfs⟩ := hrow.now.getFs
  rw [steps_readInode, Code.advance_prim hfs]
  by_cases hino : ino = 0 ∨ ino > P.sb.sInodesCount
  · rw [if_pos hino]
    refine .reject hrow fun e => ?_
    obtain ⟨dirty, lock, hrun⟩ := hrow.row.run (steps_readInode (E := e) ino out)
    rw [hrun, if_pos hino]
    rfl
  rw [if_neg hino]
  have hdesc (dirty lock : Bool) : ext2GetGroupDesc { P with sbDirty := dirty, lock := lock }
    ((ino - 1) / P.sb.sInodesPerGroup) =
      ext2GetGroupDesc P ((ino - 1) / P.sb.sInodesPerGroup) := rfl
  cases hgd : ext2GetGroupDesc P ((ino - 1) / P.sb.sInodesPerGroup) with
  | none =>
    simp only [hdesc, hgd]
    refine .reject hrow fun e => ?_
    obtain ⟨dirty, lock, hrun⟩ := hrow.row.run (steps_readInode (E := e) ino out)
    rw [hrun, if_neg hino]
    simp only [hdesc, hgd]
    rfl
  | some gd =>
    simp only [hdesc, hgd]
    exact .look hrow (.lookup ino out gd hino hgd)

theorem advance_lookup (hset : Setting E.lbaSize P) (hrow : InRow fs P T s u)
    (hino : ¬(ino = 0 ∨ ino > P.sb.sInodesCount))
    (hgd : ext2GetGroupDesc P ((ino - 1) / P.sb.sInodesPerGroup) = some gd) (out : Mem) :
    Advances E fs P T s u (.readInode ino out) false none
      (Code.advance s (do
        let inodeTable ← .prim (tableLoad P.groups (gd + 8) 4)
        inodeFetch E fs P ino out inodeTable)) := by
  have htable {v : Kern} (hv : Steady fs P T v) :
      tableLoad P.groups (gd + 8) 4 v = (some ((T P.groups).load (gd + 8) 4), v) := by
    rw [tableLoad, hv.tables]
  rw [Code.advance_prim (htable hrow.now), inodeFetch]
  split
  · rename_i hblk
    refine .reject hrow fun e => ?_
    obtain ⟨dirty, lock, hrun⟩ := hrow.row.run (steps_readInode (E := e) ino out)
    have hgd' : ext2GetGroupDesc { P with sbDirty := dirty, lock := lock }
      ((ino - 1) / P.sb.sInodesPerGroup) = some gd := hgd
    rw [hrun, if_neg hino]
    simp only [hgd', Code.whole_bind, Code.whole_prim]
    rw [Prog.bind_eq (htable hrow.row)]
    show (inodeFetch _ fs P ino out _).whole u = _
    rw [inodeFetch, if_pos hblk]
    rfl
  · rename_i hblk
    exact .look hrow (.waiting (wants_readInode hset.volume hino hgd (Nat.lt_of_not_le hblk) out))

theorem readBlocks_advance (hset : Setting E.lbaSize P) (hs : Steady fs P T s)
    (hb : block < P.sb.sBlocksCount) (buf : Nat) (k : Bool → Code Kern Outcome) :
    (Steps.ext2ReadBlocks E fs block buf >>= k).advance s =
      (Code.prim (diskRead E buf (blockLba E.lbaSize P block)
        (P.layout.blockSize / E.lbaSize)) >>= k, s) := by
  obtain ⟨dirty, lock, hfs⟩ := hs.getFs
  have hsec := hset.volume.sectored
  simp only [Steps.ext2ReadBlocks, bind_assoc]
  rw [Code.advance_prim hfs, if_neg (Nat.not_le.mpr hb)]
  simp only [hsec.range hb, if_pos hsec.le]
  rfl

theorem advance_readBlocks (hset : Setting E.lbaSize P) (hrow : InRow fs P T s u)
    (block buf : Nat) :
    Advances E fs P T s u (.readBlocks block buf) false none
      (((BlockCall.readBlocks block buf).steps E fs).advance s) := by
  rcases Nat.lt_or_ge block P.sb.sBlocksCount with hb | hb
  · rw [BlockCall.steps, readBlocks_advance hset hrow.now hb]
    exact .look hrow (.readBlock buf hb)
  · obtain ⟨dirty, lock, hfs⟩ := hrow.now.getFs
    simp only [BlockCall.steps, Steps.ext2ReadBlocks, bind_assoc]
    rw [Code.advance_prim hfs, if_pos hb]
    refine .reject hrow fun e => ?_
    obtain ⟨dirty, lock, hfs⟩ := hrow.row.fields
    exact Prog.bind_eq (readBlocks_out (by rw [hfs]; exact hb) buf)

theorem writeBlocks_refused
    (h : (u.fsAt fs).layout.readOnly = true ∨ (u.fsAt fs).sb.sBlocksCount ≤ block) (buf : Nat) :
    ext2WriteBlocks E fs block buf u = (some false, u) := by
  unfold ext2WriteBlocks
  rw [Prog.bind_eq (show getFs fs u = (some (u.fsAt fs), u) from rfl)]
  split
  · rfl
  · rename_i hro
    rw [if_pos (h.resolve_left hro)]
    rfl

theorem writeBlocks_eq (h : Sectored E.lbaSize (u.fsAt fs))
    (hro : (u.fsAt fs).layout.readOnly = false) (hb : block < (u.fsAt fs).sb.sBlocksCount)
    (buf : Nat) :
    ext2WriteBlocks E fs block buf u =
      diskWrite E buf (wadd 64 (u.fsAt fs).lbaStart
          (block * (u.fsAt fs).layout.blockSize / E.lbaSize))
        ((u.fsAt fs).layout.blockSize / E.lbaSize) u := by
  unfold ext2WriteBlocks
  rw [Prog.bind_eq (show getFs fs u = (some (u.fsAt fs), u) from rfl), if_neg (by simp [hro]),
    if_neg (by omega)]
  simp only [h.range hb, if_pos h.le]

theorem advance_writeBlocks (hset : Setting E.lbaSize P) (hrow : InRow fs P T s u)
    (block buf : Nat) :
    Advances E fs P T s u (.writeBlocks block buf) false none
      (((BlockCall.writeBlocks block buf).steps E fs).advance s) := by
  obtain ⟨dirty, lock, hfs⟩ := hrow.now.getFs
  have hsec := hset.volume.sectored
  have hrefused (h : P.layout.readOnly = true ∨ P.sb.sBlocksCount ≤ block) (e : Env) :
      (BlockCall.writeBlocks block buf).run e fs u = (some (.flag false), u) := by
    obtain ⟨dirty, lock, hfs⟩ := hrow.row.fields
    exact Prog.bind_eq (writeBlocks_refused (by rw [hfs]; exact h) buf)
  simp only [BlockCall.steps, Steps.ext2WriteBlocks, bind_assoc]
  rw [Code.advance_prim hfs]
  cases hro : P.layout.readOnly with
  | true =>
    simp only [if_true]
    exact .reject hrow (hrefused (.inl hro))
  | false =>
    simp only [Bool.false_eq_true, if_false]
    by_cases hb : block ≥ P.sb.sBlocksCount
    · rw [if_pos hb]
      exact .reject hrow (hrefused (.inr hb))
    · simp only [if_neg hb, hsec.range (Nat.lt_of_not_le hb), if_pos hsec.le]
      exact .look hrow (.writeBlock buf hro (Nat.lt_of_not_le hb))

theorem super_runs (h : Steady fs P T u) (hro : P.layout.readOnly = false) (e : Env) :
    BlockCall.writeSuperblock.run e fs u =
      (Steps.spinlockAquire fs >>= fun _ => superHeld e fs P).whole u := by
  obtain ⟨dirty, lock, hrun⟩ := h.run (steps_writeSuperblock (E := e))
  rw [hrun, if_neg (by simp [hro])]
  rfl

theorem advance_writeSuperblock (hrow : InRow fs P T s u) :
    Advances E fs P T s u .writeSuperblock false none
      ((BlockCall.writeSuperblock.steps E fs).advance s) := by
  obtain ⟨dirty, lock, hfs⟩ := hrow.now.getFs
  rw [steps_writeSuperblock, Code.advance_prim hfs]
  cases hro : P.layout.readOnly with
  | true =>
    simp only [if_true]
    refine .reject hrow fun e => ?_
    obtain ⟨dirty, lock, hrun⟩ := hrow.row.run (steps_writeSuperblock (E := e))
    rw [hrun, if_pos hro]
    rfl
  | false =>
    simp only [Bool.false_eq_true, if_false]
    exact .look hrow (.superWaiting hro)

-- ---------------------------------------------------------------------------
-- The lock
-- ---------------------------------------------------------------------------

theorem InRow.setLock (h : InRow fs P T s u) (b : Bool) :
    InRow fs P T (s.putFs fs ((s.fsAt fs).setLock b)) u :=
  ⟨h.now.setLock b, h.row, h.free, h.sectors, h.ram⟩

theorem advance_aquire (hrow : InRow fs P T s u) {k : Code Kern Outcome}
    (hwait : Stage E fs P T s c (Steps.spinlockAquire fs >>= fun _ => k) false none)
    (hheld : ∀ t, Stage E fs P T t c k true none) :
    Advances E fs P T s u c false none ((Steps.spinlockAquire fs >>= fun _ => k).advance s) := by
  have hstep : (Steps.spinlockAquire fs >>= fun _ => k).advance s =
      if (s.fsAt fs).lock then (Steps.spinlockAquire fs >>= fun _ => k, s)
      else (k, s.putFs fs ((s.fsAt fs).setLock true)) := rfl
  rw [hstep]
  cases hlock : (s.fsAt fs).lock with
  | true => exact .look hrow hwait
  | false =>
    refine ⟨true, none, u, hheld _, hrow.setLock true, ?_, fun _ => ⟨fun _ _ => rfl, fun _ _ => rfl⟩,
      .inl ⟨rfl, rfl⟩⟩
    simp only [hlock, Bool.false_eq_true, if_false, Kern.putFs_fs, Partition.setLock]
    exact .take

theorem advance_unlock (hrow : InRow fs P T s u) {k : Code Kern Outcome}
    (hnext : ∀ t, Stage E fs P T t c k false o) :
    Advances E fs P T s u c true o ((Code.prim (spinlockRelease fs) >>= fun _ => k).advance s) := by
  rw [Code.advance_prim (show spinlockRelease fs s =
    (some (), s.putFs fs ((s.fsAt fs).setLock false)) from rfl)]
  refine ⟨false, o, u, hnext _, hrow.setLock false, ?_, nofun, .inl ⟨rfl, rfl⟩⟩
  simp only [Kern.putFs_fs, Partition.setLock]
  exact .release _

-- ---------------------------------------------------------------------------
-- Transfers
-- ---------------------------------------------------------------------------

/-- The block arrives in the page: here the call takes effect. -/
theorem advance_reading (hset : Setting E.lbaSize P) (hrow : InRow fs P T s u)
    (h : Wants fs P T E.lbaSize c blk take) :
    Advances E fs P T s u c true none (Code.advance s (do
      let ok ← .prim (diskRead E P.ioBuf (blockLba E.lbaSize P blk)
        (P.layout.blockSize / E.lbaSize))
      copyOut fs take ok)) := by
  have hsec := hset.volume.sectored
  let ok := E.readOk s.transfers.length
  let e := Env.always E.lbaSize ok (E.writeOk 0)
  have hread := hrow.read (E := E) (e := e) rfl rfl P.ioBuf (blockLba E.lbaSize P blk)
    (P.layout.blockSize / E.lbaSize)
  have hsec' : Sectored e.lbaSize P := hsec
  have hstep : diskRead E P.ioBuf (blockLba E.lbaSize P blk) (P.layout.blockSize / E.lbaSize) s =
    (some ok, (diskRead E P.ioBuf (blockLba E.lbaSize P blk) (P.layout.blockSize / E.lbaSize) s).2) :=
      rfl
  rw [Code.advance_prim hstep]
  have hrun := (h.runs e u rfl hrow.row).trans (fetch_row hrow.row hrow.free hsec' h.block take)
  refine ⟨true, _, _, .fetched h ok, hread, .keep .., nofun,
    .inr ⟨rfl, e, _, E.like_always _ 0, rfl, hrun.trans ?_⟩⟩
  -- the result is made from the block, and that is the same in the row
  refine Prod.ext (congrArg some (h.inside ok _ _ fun hok j hj => ?_)) rfl
  have hj : j < P.layout.blockSize / E.lbaSize * E.lbaSize := by rwa [Nat.div_mul_cancel hsec.dvd]
  have hbyte : u.diskByte E.lbaSize (blockLba E.lbaSize P blk) =
      s.diskByte E.lbaSize (blockLba E.lbaSize P blk) :=
    congrArg (byteAt E.lbaSize · _) hrow.sectors
  have hnow : E.readOk s.transfers.length = true := hok
  simp only [diskRead, e, ok, Env.always, hnow, if_true, hbyte, Mem.paste_inside _ _ _ _ hj]

theorem advance_readBlock (hset : Setting E.lbaSize P) (hrow : InRow fs P T s u)
    (hc : (BlockCall.readBlocks block buf).Proper E.lbaSize P) (hb : block < P.sb.sBlocksCount) :
    Advances E fs P T s u (.readBlocks block buf) false none (Code.advance s (do
      let ok ← .prim (diskRead E buf (blockLba E.lbaSize P block)
        (P.layout.blockSize / E.lbaSize))
      return .flag ok)) := by
  have hsec := hset.volume.sectored
  let e := Env.always E.lbaSize (E.readOk s.transfers.length) (E.writeOk 0)
  have hread := hrow.read (E := E) (e := e) rfl rfl buf (blockLba E.lbaSize P block)
    (P.layout.blockSize / E.lbaSize)
  have hrun : ext2ReadBlocks e fs block buf u =
      diskRead e buf (blockLba E.lbaSize P block) (P.layout.blockSize / E.lbaSize) u :=
    hrow.row.readBlocks (E := e) hsec hb buf
  refine ⟨false, _, _, .finished _, hread, .keep .., fun _ => ⟨fun x hx => ?_, fun _ _ => rfl⟩,
    .inr ⟨rfl, e, _, E.like_always _ 0, rfl, Prog.bind_eq hrun⟩⟩
  have hout : ¬Within buf (P.layout.blockSize / E.lbaSize * E.lbaSize) x := by
    rw [Nat.div_mul_cancel hsec.dvd]
    exact Apart.not_within hc hx
  show (if E.readOk s.transfers.length then _ else s.ram) x = s.ram x
  split
  · exact Mem.paste_outside hout
  · rfl

theorem overwrite_super (hset : Setting l P) (hb : block < P.sb.sBlocksCount)
    (hapart : Apart (block * P.layout.blockSize) P.layout.blockSize ((superRange l).lba * l)
      ((superRange l).sizeInBlocks * l))
    (sectors : Nat → Mem) (ram : Mem) (buf : Nat) (hj : j < (superRange l).sizeInBlocks * l) :
    byteAt l (overwrite l sectors ram buf (blockLba l P block) (P.layout.blockSize / l))
      (superLba l P) j = byteAt l sectors (superLba l P) j := by
  have hsec := hset.volume.sectored
  have hq : block * P.layout.blockSize / l + P.layout.blockSize / l ≤ 2 ^ 64 := by
    have hlt := P.sb.block_lt hsec.page hb
    have h₁ := Nat.div_le_self (block * P.layout.blockSize) l
    have h₂ := Nat.div_le_self P.layout.blockSize l
    omega
  have hpatched : Patched l sectors _ P.lbaStart _ _ _ := overwrite_patched hsec.sector hq ram buf
  rw [Nat.div_mul_cancel (Dvd.dvd.mul_left hsec.dvd block), Nat.div_mul_cancel hsec.dvd] at hpatched
  have hoff : (superRange l).lba * l + j < 2 ^ 64 * l := by
    have hfew := Nat.mul_le_mul_right l hset.range.few
    rw [Nat.add_mul] at hfew
    simp only [superRange] at hj ⊢
    omega
  rw [superLba, byteAt_later hsec.sector, byteAt_later hsec.sector]
  exact hpatched.outside hoff (hapart.not_within ⟨Nat.le_add_right .., by omega⟩)

theorem advance_writeBlock (hset : Setting E.lbaSize P) (hrow : InRow fs P T s u)
    (hc : (BlockCall.writeBlocks block buf).Proper E.lbaSize P)
    (hro : P.layout.readOnly = false) (hb : block < P.sb.sBlocksCount) :
    Advances E fs P T s u (.writeBlocks block buf) false none (Code.advance s (do
      let ok ← .prim (diskWrite E buf (blockLba E.lbaSize P block)
        (P.layout.blockSize / E.lbaSize))
      return .flag ok)) := by
  have hsec := hset.volume.sectored
  let e := Env.always E.lbaSize (E.readOk 0) (E.writeOk s.writes)
  have hdata : ∀ j < P.layout.blockSize / E.lbaSize * E.lbaSize,
      u.ram (buf + j) = s.ram (buf + j) := by
    intro j hj
    rw [Nat.div_mul_cancel hsec.dvd] at hj
    exact hrow.ram _ (hc.1.symm.not_within ⟨Nat.le_add_right .., by omega⟩)
  have hwrite : InRow fs P T
      (diskWrite E buf (blockLba E.lbaSize P block) (P.layout.blockSize / E.lbaSize) s).2
      (diskWrite e buf (blockLba E.lbaSize P block) (P.layout.blockSize / E.lbaSize) u).2 :=
    hrow.write (E := E) (e := e) rfl rfl hdata
  have hrun : ext2WriteBlocks e fs block buf u =
      diskWrite e buf (blockLba E.lbaSize P block) (P.layout.blockSize / E.lbaSize) u := by
    obtain ⟨dirty, lock, hfs⟩ := hrow.row.fields
    rw [writeBlocks_eq (E := e) (hrow.row.sectored hsec) (by rw [hfs]; exact hro)
      (by rw [hfs]; exact hb), hfs]
    rfl
  refine ⟨false, _, _, .finished _, hwrite, .keep .., fun _ => ⟨fun _ _ => rfl, fun j hj => ?_⟩,
    .inr ⟨rfl, e, _, E.like_always 0 _, rfl, Prog.bind_eq hrun⟩⟩
  show byteAt _ (if E.writeOk s.writes then _ else s.sectors) _ j = _
  split
  · exact overwrite_super hset hb hc.2 _ _ _ hj
  · rfl

-- ---------------------------------------------------------------------------
-- The superblock
-- ---------------------------------------------------------------------------

theorem InRow.page (h : InRow fs P T s u) (hfs : s'.fsAt fs = s.fsAt fs)
    (htable : s'.tableAt = s.tableAt) (hsectors : s'.sectors = s.sectors)
    (hram : ∀ x, ¬Within P.ioBuf 4096 x → s'.ram x = s.ram x) : InRow fs P T s' u :=
  ⟨h.now.congr hfs htable, h.row, h.free, h.sectors.trans hsectors.symm,
    fun x hx => (h.ram x hx).trans (hram x hx).symm⟩

theorem paste_in_page (m src : Mem) (off : Nat) (hn : off + n ≤ 4096) (hx : ¬Within b 4096 x) :
    m.paste (b + off) src 0 n x = m x :=
  Mem.paste_outside fun h => hx ⟨by have := h.1; omega, by have := h.2; omega⟩

theorem paste_part (m src : Mem) (b off n j : Nat) :
    m.paste (b + off) src 0 n (b + j) = Mem.paste (fun i => m (b + i)) off src 0 n j := by
  have hin : Within (b + off) n (b + j) ↔ Within off n j := by
    simp only [Within]
    omega
  simp only [Mem.paste, hin, Nat.add_sub_add_left]

theorem advance_superHolding (hset : Setting E.lbaSize P) (hrow : InRow fs P T s u)
    (hro : P.layout.readOnly = false) :
    Advances E fs P T s u .writeSuperblock true none ((superHeld E fs P).advance s) := by
  have hstep : diskRead E P.ioBuf (superLba E.lbaSize P) (superRange E.lbaSize).sizeInBlocks s =
    (some (E.readOk s.transfers.length),
      (diskRead E P.ioBuf (superLba E.lbaSize P) (superRange E.lbaSize).sizeInBlocks s).2) := rfl
  rw [superHeld, Code.advance_prim hstep]
  cases hok : E.readOk s.transfers.length with
  | true =>
    refine ⟨true, none, u, .superRead hro hok fun j hj => ?_, ?_, .keep .., nofun, .inl ⟨rfl, rfl⟩⟩
    · simp only [diskRead, hok, if_true, Mem.paste_inside _ _ _ _ hj, Nat.zero_add]
      rfl
    · refine hrow.page rfl rfl rfl fun x hx => ?_
      simp only [diskRead, hok, if_true]
      exact paste_in_page _ _ 0 (by have := hset.few; omega) hx
  | false =>
    have hlike := E.like_always s.transfers.length 0
    have hread := hrow.read (E := E) (e := .always E.lbaSize (E.readOk s.transfers.length) (E.writeOk 0))
      rfl rfl P.ioBuf (superLba E.lbaSize P) (superRange E.lbaSize).sizeInBlocks
    rw [hok] at hlike hread
    exact ⟨true, _, _, .superReleasing false, hread, .keep .., nofun, .inr ⟨rfl, _, _, hlike, rfl,
      (super_runs hrow.row hro _).trans (super_row_failed hrow.free _ _)⟩⟩

theorem advance_superRead (hset : Setting E.lbaSize P) (hrow : InRow fs P T s u)
    (hro : P.layout.readOnly = false) (hok : E.readOk n = true)
    (hpage : ∀ j < (superRange E.lbaSize).sizeInBlocks * E.lbaSize,
      s.ram (P.ioBuf + j) = byteAt E.lbaSize s.sectors (superLba E.lbaSize P) j) :
    Advances E fs P T s u .writeSuperblock true none ((superCopy E fs P).advance s) := by
  have hstep : memcpySuperblock (P.ioBuf + (superRange E.lbaSize).offset) P.sb s = (some (), _) := rfl
  rw [superCopy, Code.advance_prim hstep]
  have hroom := hset.range.room
  have hfew := hset.few
  refine ⟨true, none, u, .superPatched hro hok fun j hj => ?_, ?_, .keep .., nofun, .inl ⟨rfl, rfl⟩⟩
  · show Mem.paste _ _ _ _ _ _ = _
    rw [paste_part, superImage]
    simp only [Mem.paste]
    split
    · rfl
    · exact hpage j hj
  · exact hrow.page rfl rfl rfl fun x hx =>
      paste_in_page _ _ _ (by simp only [superRange] at *; omega) hx

/-- The superblock goes to the disk: here the call takes effect, with the read and the copy
that came before it. -/
theorem advance_superPatched (hset : Setting E.lbaSize P) (hrow : InRow fs P T s u)
    (hro : P.layout.readOnly = false) (hok : E.readOk n = true)
    (hpage : ∀ j < (superRange E.lbaSize).sizeInBlocks * E.lbaSize,
      s.ram (P.ioBuf + j) = superImage E.lbaSize P s.sectors j) :
    Advances E fs P T s u .writeSuperblock true none ((superPut E fs P).advance s) := by
  have hstep : diskWrite E P.ioBuf (superLba E.lbaSize P) (superRange E.lbaSize).sizeInBlocks s =
    (some (E.writeOk s.writes), _) := rfl
  rw [superPut, Code.advance_prim hstep]
  have hroom := hset.range.room
  have hfew := hset.few
  have hlike := E.like_always n s.writes
  rw [hok] at hlike
  obtain ⟨t, hrun, hsteady, hfree, hram, hsectors⟩ :=
    super_row hrow.row hrow.free E.lbaSize (E.writeOk s.writes)
  refine ⟨true, _, t, .superReleasing _, ⟨hrow.now.congr rfl rfl, hsteady, hfree, ?_, fun x hx => ?_⟩,
    .keep .., nofun, .inr ⟨rfl, _, _, hlike, rfl, (super_runs hrow.row hro _).trans hrun⟩⟩
  · have hdata : overwrite E.lbaSize s.sectors t.ram P.ioBuf (superLba E.lbaSize P)
        (superRange E.lbaSize).sizeInBlocks = overwrite E.lbaSize s.sectors s.ram P.ioBuf
          (superLba E.lbaSize P) (superRange E.lbaSize).sizeInBlocks := by
      refine overwrite_congr fun j hj => ?_
      rw [hram, paste_part, hpage j hj, superImage, hrow.sectors]
      simp only [Mem.paste, Nat.zero_add]
      split
      · rfl
      · rw [if_pos ⟨Nat.le_add_right .., by omega⟩, Nat.add_sub_cancel_left]
    rw [hsectors, hrow.sectors, hdata]
  · rw [hram, paste_in_page _ _ _ (by simp only [superRange] at *; omega) hx]
    exact (paste_in_page _ _ 0 (by omega) hx).trans (hrow.ram x hx)

theorem advance_superCleaning (hrow : InRow fs P T s u) :
    Advances E fs P T s u .writeSuperblock false (some (.flag true)) (Code.advance s (do
      .prim (setFs fs fun p => { p with sbDirty := false })
      return .flag true)) := by
  have hstep : setFs fs (fun p => { p with sbDirty := false }) s = (some (), _) := rfl
  rw [Code.advance_prim hstep]
  refine ⟨false, _, u, .finished _, ⟨hrow.now.clean, hrow.row, hrow.free, hrow.sectors, hrow.ram⟩, ?_,
    fun _ => ⟨fun _ _ => rfl, fun _ _ => rfl⟩, .inl ⟨rfl, rfl⟩⟩
  simp only [Kern.putFs_fs]
  exact .keep ..

/-- Every step of every call. -/
theorem Stage.advance (h : Stage E fs P T s c code k o) (hset : Setting E.lbaSize P)
    (hrow : InRow fs P T s u) (hc : c.Proper E.lbaSize P) (hnot : ∀ out, code ≠ .done out) :
    Advances E fs P T s u c k o (code.advance s) := by
  cases h with
  | fresh =>
    cases c with
    | readPtr blk idx out => exact advance_readPtr hrow hc
    | readInode ino out => exact advance_readInode hrow ino out
    | readBlocks block buf => exact advance_readBlocks hset hrow block buf
    | writeBlocks block buf => exact advance_writeBlocks hset hrow block buf
    | writeSuperblock => exact advance_writeSuperblock hrow
  | lookup ino out gd hino hgd => exact advance_lookup hset hrow hino hgd out
  | waiting h => exact advance_aquire hrow (.waiting h) fun _ => .held h
  | held h =>
    rw [fetchHeld, readBlocks_advance hset hrow.now h.block]
    exact .look hrow (.reading h)
  | reading h => exact advance_reading hset hrow h
  | fetched h ok =>
    rw [copyOut, Code.advance_prim (show getRam s = (some s.ram, s) from rfl)]
    exact .look hrow (.releasing _)
  | releasing out => exact advance_unlock hrow fun _ => .finished out
  | finished out => exact absurd rfl (hnot out)
  | readBlock buf hb => exact advance_readBlock hset hrow hc hb
  | writeBlock buf hro hb => exact advance_writeBlock hset hrow hc hro hb
  | superWaiting hro => exact advance_aquire hrow (.superWaiting hro) fun _ => .superHolding hro
  | superHolding hro => exact advance_superHolding hset hrow hro
  | superRead hro hok hpage => exact advance_superRead hset hrow hro hok hpage
  | superPatched hro hok hpage => exact advance_superPatched hset hrow hro hok hpage
  | superReleasing ok =>
    refine advance_unlock hrow fun _ => ?_
    cases ok with
    | true => exact .superCleaning
    | false => exact .finished _
  | superCleaning => exact advance_superCleaning hrow

-- ---------------------------------------------------------------------------
-- Any number of calls
-- ---------------------------------------------------------------------------

theorem Stage.done (h : Stage E fs P T s c code k o) (hdone : code = .done out) :
    k = false ∧ o = some out := by
  cases h with
  | fresh => cases c <;> exact nomatch (show Code.act _ _ = _ from hdone)
  | finished out' =>
    cases hdone
    exact ⟨rfl, rfl⟩
  | waiting | superWaiting => exact nomatch (show Code.await _ _ _ = _ from hdone)
  | _ => exact nomatch (show Code.act _ _ = _ from hdone)

theorem LockMove.owner {owner : Option Nat} {lock' h' : Bool}
    (h : LockMove lock lock' (decide (owner = some i)) h') (hlock : lock = owner.isSome) :
    ∃ owner' : Option Nat, lock' = owner'.isSome ∧ h' = decide (owner' = some i) ∧
      (∀ j, j ≠ i → (owner' = some j ↔ owner = some j)) := by
  generalize hk : decide (owner = some i) = k at h
  cases h with
  | keep => exact ⟨owner, hlock, hk.symm, fun _ _ => .rfl⟩
  | take =>
    have hnone : owner = none := by simpa using hlock.symm
    exact ⟨some i, rfl, by simp, fun j hj => by simp [hnone, hj.symm]⟩
  | release =>
    have howner : owner = some i := of_decide_eq_true hk
    exact ⟨none, rfl, by simp, fun j hj => by simp [howner, hj.symm]⟩

/-- The calls under way, one of which may hold the lock. Each is a `BlockCall` in an
environment. -/
structure Turns {κ : Type} (call : κ → BlockCall) (env : κ → Env) (l fs : Nat) (P : Partition)
    (T : Nat → Mem) (p : Pool Kern κ Outcome) (outcome : Nat → Option Outcome) (u : Kern)
    (owner : Option Nat) : Prop where
  row : InRow fs P T p.state u
  lock : (p.state.fsAt fs).lock = owner.isSome
  begun : ∀ i, owner = some i → ∃ c code, p.threads[i]? = some (c, some code)
  stage : ∀ i c code, p.threads[i]? = some (c, some code) → (call c).Proper l P ∧
    Stage (env c) fs P T p.state (call c) code (decide (owner = some i)) (outcome i)

section
variable {κ : Type} {call : κ → BlockCall} {env : κ → Env} {l : Nat} {c : κ} {p : Pool Kern κ Outcome}
  {outcome : Nat → Option Outcome} {owner : Option Nat}

theorem Turns.called (h : Turns call env l fs P T p outcome u owner) (hc : (call c).Proper l P)
    (hnew : outcome p.threads.length = none) :
    Turns call env l fs P T (p.called c ((call c).steps (env c) fs)) outcome u owner := by
  refine ⟨h.row, h.lock, fun i howner => ?_, fun i c' code hi => ?_⟩
  · obtain ⟨c', code, hi⟩ := h.begun i howner
    refine ⟨c', code, ?_⟩
    rw [Pool.called, List.getElem?_append_left (List.getElem?_eq_some_iff.mp hi).1, hi]
  · rcases Nat.lt_trichotomy i p.threads.length with hlt | rfl | hgt
    · simp only [Pool.called, List.getElem?_append_left hlt] at hi
      exact h.stage _ _ _ hi
    · simp only [Pool.called, List.getElem?_concat_length, Option.some.injEq, Prod.mk.injEq] at hi
      obtain ⟨rfl, rfl⟩ := hi
      have hother : owner ≠ some p.threads.length := by
        intro howner
        obtain ⟨c', code, hi⟩ := h.begun _ howner
        exact Nat.lt_irrefl _ (List.getElem?_eq_some_iff.mp hi).1
      rw [hnew, decide_eq_false hother]
      exact ⟨hc, .fresh _⟩
    · have hnone : (p.called c ((call c).steps (env c) fs)).threads[i]? = none := by
        simp only [Pool.called, List.getElem?_eq_none_iff, List.length_append, List.length_singleton]
        omega
      rw [hnone] at hi
      cases hi

theorem Turns.returned (h : Turns call env l fs P T p outcome u owner) (hother : owner ≠ some i)
    (c : κ) (out : Outcome) : Turns call env l fs P T (p.returned i c out) outcome u owner := by
  refine ⟨h.row, h.lock, fun j howner => ?_, fun j c' code hj => ?_⟩
  · obtain ⟨c', code, hj⟩ := h.begun j howner
    have hij : i ≠ j := fun hij => hother (hij ▸ howner)
    exact ⟨c', code, by rw [Pool.returned, List.getElem?_set_ne hij, hj]⟩
  · by_cases hij : i = j
    · subst hij
      simp only [Pool.returned, List.getElem?_set_self'] at hj
      cases hi : p.threads[i]? <;> simp [hi] at hj
    · simp only [Pool.returned, List.getElem?_set_ne hij] at hj
      exact h.stage _ _ _ hj

/-- The others are where they were: the one that holds the lock is not disturbed, and the
rest do not mind. -/
theorem Turns.advanced (h : Turns call env l fs P T p outcome u owner) (hset : Setting l P)
    (henv : ∀ c, (env c).lbaSize = l) (hi : p.threads[i]? = some (c, some code))
    (hadv : Advances (env c) fs P T p.state u (call c) (decide (owner = some i)) (outcome i)
      (code.advance p.state)) :
    ∃ o' u' owner',
      Turns call env l fs P T (p.advanced i c code) (Function.update outcome i o') u' owner' ∧
      (o' = outcome i ∧ u' = u ∨ outcome i = none ∧ ∃ e out, (env c).Like e ∧ o' = some out ∧
        (call c).run e fs u = (some out, u')) := by
  obtain ⟨h', o', u', hstage, hrow, hmove, hquiet, heffect⟩ := hadv
  obtain ⟨owner', hlock, hholds, hothers⟩ := hmove.owner h.lock
  have hlt := (List.getElem?_eq_some_iff.mp hi).1
  refine ⟨o', u', owner', ⟨hrow, hlock, fun j howner => ?_, fun j c' code' hj => ?_⟩, heffect⟩
  · by_cases hij : j = i
    · subst hij
      exact ⟨c, _, List.getElem?_set_self hlt⟩
    · obtain ⟨c', code', hj⟩ := h.begun j ((hothers j hij).mp howner)
      exact ⟨c', code', by rw [Pool.advanced, List.getElem?_set_ne (Ne.symm hij), hj]⟩
  · by_cases hij : j = i
    · subst hij
      simp only [Pool.advanced, List.getElem?_set_self hlt, Option.some.injEq, Prod.mk.injEq] at hj
      obtain ⟨rfl, rfl⟩ := hj
      rw [Function.update_self, ← hholds]
      exact ⟨(h.stage _ _ _ hi).1, hstage⟩
    · simp only [Pool.advanced, List.getElem?_set_ne (Ne.symm hij)] at hj
      obtain ⟨hproper, hj⟩ := h.stage _ _ _ hj
      rw [Function.update_of_ne hij]
      refine ⟨hproper, ?_⟩
      by_cases howner : owner = some j
      · have hother : decide (owner = some i) = false := by simp [howner, hij]
        rw [decide_eq_true howner] at hj
        rw [decide_eq_true ((hothers j hij).mpr howner)]
        have hquiet := hquiet hother
        rw [henv c, ← henv c'] at hquiet
        exact hj.quiet hquiet hset.volume.sectored.page (by rw [henv c']; exact hset.few)
      · rw [decide_eq_false howner] at hj
        rw [decide_eq_false (mt (hothers j hij).mp howner)]
        exact hj.anywhere _

/-- Each call takes effect at one of its steps. -/
theorem turns_commit (call : κ → BlockCall) (env : κ → Env) (fs : Nat) (T : Nat → Mem)
    (hset : Setting l P) (henv : ∀ c, (env c).lbaSize = l) :
    Commits (fun c => (call c).steps (env c) fs)
      (fun c v out v' => ∃ e, (env c).Like e ∧ (call c).run e fs v = (some out, v'))
      (fun c => (call c).Proper l P)
      (fun p outcome u => ∃ owner, Turns call env l fs P T p outcome u owner) := by
  refine ⟨?_, ?_, ?_⟩
  · rintro p outcome u c ⟨owner, h⟩ hc hnew
    exact ⟨owner, h.called hc hnew⟩
  · rintro p outcome u i c code ⟨owner, h⟩ hi hnot
    obtain ⟨hproper, hstage⟩ := h.stage _ _ _ hi
    rw [← henv c] at hproper
    have hset' : Setting (env c).lbaSize P := by rw [henv c]; exact hset
    obtain ⟨o', u', owner', hnext, heffect⟩ :=
      h.advanced hset henv hi (hstage.advance hset' h.row hproper hnot)
    rcases heffect with ⟨rfl, rfl⟩ | ⟨hnone, e, out, hlike, rfl, hrun⟩
    · rw [Function.update_eq_self] at hnext
      exact .inl ⟨owner', hnext⟩
    · exact .inr ⟨hnone, out, u', ⟨e, hlike, hrun⟩, owner', hnext⟩
  · rintro p outcome u i c out ⟨owner, h⟩ hi
    obtain ⟨hother, hout⟩ := (h.stage _ _ _ hi).2.done rfl
    exact ⟨hout, owner, h.returned (of_decide_eq_false hother) c out⟩

theorem turns_start (call : κ → BlockCall) (env : κ → Env) (l : Nat)
    (hfree : (s.fsAt fs).lock = false) :
    ∃ owner, Turns call env l fs (s.fsAt fs) s.tableAt (Pool.start s) (fun _ => none) s owner := by
  have hsteady : Steady fs (s.fsAt fs) s.tableAt s := ⟨⟨_, _, rfl⟩, rfl⟩
  exact ⟨none, ⟨hsteady, hsteady, hfree, rfl, fun _ _ => rfl⟩, hfree, nofun, nofun⟩

end

end

-- ---------------------------------------------------------------------------
-- Calls and how their transfers end
-- ---------------------------------------------------------------------------

/-- A call, which makes at most one transfer in each direction, and whether these succeed. -/
structure AnsweredCall where
  call : BlockCall
  readOk : Bool
  writeOk : Bool

namespace AnsweredCall

def env (l : Nat) (c : AnsweredCall) : Env := .always l c.readOk c.writeOk

def run (l fs : Nat) (c : AnsweredCall) : Prog Kern Outcome := c.call.run (c.env l) fs

def steps (l fs : Nat) (c : AnsweredCall) : Code Kern Outcome := c.call.steps (c.env l) fs

def Proper (l : Nat) (p : Partition) (c : AnsweredCall) : Prop := c.call.Proper l p

end AnsweredCall

/-- Calls on an accepted partition, at the same time: there is a row of them, made one after
the other, in which each returns what it returned, and which leaves the disk as it is, and
memory but for the partition's own page. -/
theorem partition_linearizable {s : Kern} {ops : List (PoolOp AnsweredCall)}
    {p : Pool Kern AnsweredCall Outcome} (hl : l = 512 ∨ l = 1024 ∨ l = 2048 ∨ l = 4096)
    (hvalid : ext2ValidateSb (s.fsAt fs).sb l = .ok ())
    (hlayout : (s.fsAt fs).layout = ext2ComputeLayout wrapping (s.fsAt fs).sb l)
    (hfree : (s.fsAt fs).lock = false)
    (hops : ∀ op ∈ ops, PoolOp.Allowed (AnsweredCall.Proper l (s.fsAt fs)) op)
    (hrun : run (Pool.step (AnsweredCall.steps l fs)) (Pool.start s) ops = some p) :
    ∃ (order : List (Commit AnsweredCall Outcome)) (u : Kern),
      Linearized (fun c v out v' => c.run l fs v = (some out, v')) s p order u ∧
        u.sectors = p.state.sectors ∧
          ∀ x, ¬Within (s.fsAt fs).ioBuf 4096 x → u.ram x = p.state.ram x := by
  have hset : Setting l (s.fsAt fs) := .of_volume (.of_validate (by omega) hvalid hlayout) hl
  have hcommits := turns_commit AnsweredCall.call (AnsweredCall.env l) fs s.tableAt hset fun _ => rfl
  obtain ⟨order, outcome, u, hlin, -, owner, hturns⟩ :=
    hcommits.linearized (turns_start _ _ l hfree) hops hrun
  refine ⟨order, u, hlin.mono ?_, hturns.row.sectors, hturns.row.ram⟩
  rintro c v out v' ⟨e, hlike, he⟩
  rw [Env.Like.always hlike] at he
  exact he

def smallTurns : List (PoolOp BlockCall) :=
  [.call .writeSuperblock, .call (.readInode 2 fun _ => 0), .step 0, .step 0, .step 1, .step 1,
    .call (.writeBlocks 3 8192), .step 1, .step 0, .step 2, .step 0, .step 2, .step 0, .step 2,
    .step 0, .step 1, .step 0, .step 1, .step 0, .step 1, .step 1, .step 1, .step 1]

theorem mountedSmall_accepted :
    ext2ValidateSb (mountedSmall.fsAt 1).sb 512 = .ok () ∧
      (mountedSmall.fsAt 1).layout = ext2ComputeLayout wrapping (mountedSmall.fsAt 1).sb 512 ∧
        (mountedSmall.fsAt 1).lock = false := by
  refine ⟨?_, ?_, ?_⟩ <;> decide +kernel

theorem smallTurns_allowed :
    ∀ op ∈ smallTurns, PoolOp.Allowed (BlockCall.Proper 512 (mountedSmall.fsAt 1)) op := by
  have hblock : Apart 8192 (mountedSmall.fsAt 1).layout.blockSize (mountedSmall.fsAt 1).ioBuf 4096 ∧
      Apart (3 * (mountedSmall.fsAt 1).layout.blockSize) (mountedSmall.fsAt 1).layout.blockSize
        ((superRange 512).lba * 512) ((superRange 512).sizeInBlocks * 512) := by decide +kernel
  simp only [smallTurns, List.forall_mem_cons, PoolOp.Allowed, BlockCall.Proper, true_and]
  exact ⟨hblock, fun _ h => absurd h List.not_mem_nil⟩

def answered : PoolOp BlockCall → PoolOp AnsweredCall
  | .call (.writeBlocks block buf) => .call ⟨.writeBlocks block buf, true, false⟩
  | .call c => .call ⟨c, true, true⟩
  | .step i => .step i

theorem answered_allowed {op : PoolOp BlockCall} (h : PoolOp.Allowed (BlockCall.Proper l P) op) :
    PoolOp.Allowed (AnsweredCall.Proper l P) (answered op) := by
  cases op with
  | step i => trivial
  | call c => cases c <;> exact h

theorem partition_linearizable_small :
    ∃ p, run (Pool.step (AnsweredCall.steps 512 1)) (Pool.start mountedSmall)
        (smallTurns.map answered) = some p ∧ p.log.length = 6 ∧
      ∃ (order : List (Commit AnsweredCall Outcome)) (u : Kern),
        Linearized (fun c v out v' => c.run 512 1 v = (some out, v')) mountedSmall p order u ∧
          u.sectors = p.state.sectors ∧
            ∀ x, ¬Within (mountedSmall.fsAt 1).ioBuf 4096 x → u.ram x = p.state.ram x := by
  obtain ⟨hvalid, hlayout, hfree⟩ := mountedSmall_accepted
  have hlog : (run (Pool.step (AnsweredCall.steps 512 1)) (Pool.start mountedSmall)
      (smallTurns.map answered)).map (fun p => p.log.length) = some 6 := by decide +kernel
  obtain ⟨p, hrun, hlength⟩ := Option.map_eq_some_iff.mp hlog
  have hallowed : ∀ op ∈ smallTurns.map answered,
      PoolOp.Allowed (AnsweredCall.Proper 512 (mountedSmall.fsAt 1)) op := by
    rintro _ hop
    obtain ⟨op, hmem, rfl⟩ := List.mem_map.mp hop
    exact answered_allowed (smallTurns_allowed op hmem)
  exact ⟨p, hrun, hlength, partition_linearizable (.inl rfl) hvalid hlayout hfree hallowed hrun⟩

-- ---------------------------------------------------------------------------
-- Every call can return
-- ---------------------------------------------------------------------------

section
variable {E : Env} {fs : Nat} {P : Partition} {T : Nat → Mem} {s u : Kern} {c : BlockCall}

theorem Steady.idle (h : Steady fs P T s) (hset : Setting E.lbaSize P)
    (hfree : (s.fsAt fs).lock = false) : Idle E.lbaSize fs s := by
  obtain ⟨dirty, lock, hfs⟩ := h.fields
  refine ⟨?_, hfree⟩
  rw [hfs]
  exact hset.volume.of_fields rfl rfl

theorem BlockCall.run_returns (h : Idle E.lbaSize fs s) (c : BlockCall) :
    ∃ out t, c.run E fs s = (some out, t) := by
  cases c with
  | readPtr blk idx out =>
    obtain ⟨r, t, hrun, -⟩ := (readPtr_idle h).returns
    exact ⟨_, t, Prog.bind_eq hrun⟩
  | readInode ino out =>
    obtain ⟨r, t, hrun, -⟩ := (readInode_idle h).returns
    exact ⟨_, t, Prog.bind_eq hrun⟩
  | readBlocks block buf =>
    obtain ⟨r, t, hrun, -⟩ := (readBlocks_idle h).returns
    exact ⟨_, t, Prog.bind_eq hrun⟩
  | writeBlocks block buf =>
    obtain ⟨r, t, hrun, -⟩ := (writeBlocks_idle h).returns
    exact ⟨_, t, Prog.bind_eq hrun⟩
  | writeSuperblock =>
    obtain ⟨r, t, hrun, -⟩ := (writeSuperblock_idle h).returns
    exact ⟨_, t, Prog.bind_eq hrun⟩

theorem superRelease_returns (ok : Bool) (s : Kern) :
    ∃ out t, (superRelease fs ok).whole s = (some out, t) := by
  cases ok <;> exact ⟨_, _, rfl⟩

theorem superPut_returns (s : Kern) : ∃ out t, (superPut E fs P).whole s = (some out, t) := by
  rw [superPut, Code.whole_bind, Code.whole_prim]
  exact superRelease_returns _ _

theorem superHeld_returns (s : Kern) : ∃ out t, (superHeld E fs P).whole s = (some out, t) := by
  have hstep : diskRead E P.ioBuf (superLba E.lbaSize P) (superRange E.lbaSize).sizeInBlocks s =
    (some (E.readOk s.transfers.length),
      (diskRead E P.ioBuf (superLba E.lbaSize P) (superRange E.lbaSize).sizeInBlocks s).2) := rfl
  rw [superHeld, Code.whole_bind, Code.whole_prim, Prog.bind_eq hstep]
  split
  · exact superPut_returns _
  · exact superRelease_returns _ _

theorem Stage.returns (h : Stage E fs P T s c code k o) (hset : Setting E.lbaSize P)
    (hs : Steady fs P T s) (hlock : k = false → (s.fsAt fs).lock = false) :
    ∃ out t, code.whole s = (some out, t) := by
  have hsec := hset.volume.sectored
  cases h with
  | fresh =>
    rw [BlockCall.steps_whole]
    exact BlockCall.run_returns (hs.idle hset (hlock rfl)) c
  | lookup ino out gd hino hgd =>
    rw [Code.whole_bind, Code.whole_prim]
    show ∃ out' t, (inodeFetch E fs P ino out _).whole s = (some out', t)
    rw [inodeFetch]
    split
    · exact ⟨_, _, rfl⟩
    · rename_i hblk
      exact ⟨_, _, fetch_row hs (hlock rfl) hsec (Nat.lt_of_not_le hblk) _⟩
  | waiting h => exact ⟨_, _, fetch_row hs (hlock rfl) hsec h.block _⟩
  | held h =>
    have hread := hs.readBlocks hsec h.block P.ioBuf
    rw [fetchHeld, Code.whole_bind, Steps.readBlocks_whole]
    exact ⟨_, _, Prog.bind_eq hread⟩
  | reading h => exact ⟨_, _, rfl⟩
  | fetched h ok => exact ⟨_, _, rfl⟩
  | releasing out => exact ⟨_, _, rfl⟩
  | finished out => exact ⟨_, _, rfl⟩
  | readBlock buf hb => exact ⟨_, _, rfl⟩
  | writeBlock buf hro hb => exact ⟨_, _, rfl⟩
  | superWaiting hro =>
    rw [← super_runs hs hro]
    exact BlockCall.run_returns (hs.idle hset (hlock rfl)) _
  | superHolding hro => exact superHeld_returns s
  | superRead hro hok hpage => exact superPut_returns _
  | superPatched hro hok hpage => exact superPut_returns s
  | superReleasing ok => exact superRelease_returns ok s
  | superCleaning => exact ⟨_, _, rfl⟩

theorem Turns.goes {p : Pool Kern BlockCall Outcome}
    (h : Turns (fun c => c) (fun _ => E) E.lbaSize fs P T p outcome u owner)
    (hset : Setting E.lbaSize P) (hlive : 0 < p.live) :
    ∃ (i : Nat) (c : BlockCall) (code : Code Kern Outcome) (out : Outcome) (t : Kern),
      p.threads[i]? = some (c, some code) ∧ code.whole p.state = (some out, t) := by
  cases howner : owner with
  | some i =>
    obtain ⟨c, code, hi⟩ := h.begun i howner
    obtain ⟨out, t, hwhole⟩ := (h.stage _ _ _ hi).2.returns hset h.row.now
      fun hk => absurd howner (of_decide_eq_false hk)
    exact ⟨i, c, code, out, t, hi, hwhole⟩
  | none =>
    obtain ⟨⟨c, left⟩, hmem, hsome⟩ := List.countP_pos_iff.mp hlive
    obtain ⟨code, rfl⟩ := Option.isSome_iff_exists.mp hsome
    obtain ⟨i, hi⟩ := List.getElem?_of_mem hmem
    have hfree : (p.state.fsAt fs).lock = false := by rw [h.lock, howner]; rfl
    obtain ⟨out, t, hwhole⟩ := (h.stage _ _ _ hi).2.returns hset h.row.now fun _ => hfree
    exact ⟨i, c, code, out, t, hi, hwhole⟩

/-- Wherever the calls are, there is an order of their steps in which all of them return. -/
theorem partition_calls_finish
    (hl : E.lbaSize = 512 ∨ E.lbaSize = 1024 ∨ E.lbaSize = 2048 ∨ E.lbaSize = 4096)
    (hvalid : ext2ValidateSb (s.fsAt fs).sb E.lbaSize = .ok ())
    (hlayout : (s.fsAt fs).layout = ext2ComputeLayout wrapping (s.fsAt fs).sb E.lbaSize)
    (hfree : (s.fsAt fs).lock = false)
    (hops : ∀ op ∈ ops, PoolOp.Allowed (BlockCall.Proper E.lbaSize (s.fsAt fs)) op)
    (hrun : run (Pool.step (BlockCall.steps E fs)) (Pool.start s) ops = some p) :
    ∃ (schedule : List Nat) (p' : Pool Kern BlockCall Outcome),
      run (Pool.step (BlockCall.steps E fs)) p (schedule.map .step) = some p' ∧
        ∀ t ∈ p'.threads, t.2 = none := by
  have hset : Setting E.lbaSize (s.fsAt fs) :=
    .of_volume (.of_validate (by omega) hvalid hlayout) hl
  have hcommits := turns_commit (fun c => c) (fun _ => E) fs s.tableAt hset fun _ => rfl
  obtain ⟨-, outcome, u, -, -, hturns⟩ :=
    hcommits.linearized (turns_start _ _ _ hfree) hops hrun
  refine Pool.all_return (fun _ _ _ => hcommits.keeps) ?_ ⟨outcome, u, hturns⟩
  rintro p ⟨outcome, u, owner, h⟩ hlive
  exact h.goes hset hlive

end

/-- The superblock is being written back, and the read of the inode waits for the lock. -/
theorem partition_calls_finish_small :
    ∃ p, run (Pool.step (BlockCall.steps allOk 1)) (Pool.start mountedSmall)
        (smallTurns.take 8) = some p ∧ p.live = 3 ∧
      ∃ (schedule : List Nat) (p' : Pool Kern BlockCall Outcome),
        run (Pool.step (BlockCall.steps allOk 1)) p (schedule.map .step) = some p' ∧
          ∀ t ∈ p'.threads, t.2 = none := by
  obtain ⟨hvalid, hlayout, hfree⟩ := mountedSmall_accepted
  have hlive : (run (Pool.step (BlockCall.steps allOk 1)) (Pool.start mountedSmall)
      (smallTurns.take 8)).map Pool.live = some 3 := by decide +kernel
  obtain ⟨p, hrun, hlive⟩ := Option.map_eq_some_iff.mp hlive
  exact ⟨p, hrun, hlive, partition_calls_finish (E := allOk) (.inl rfl) hvalid hlayout hfree
    (fun op hop => smallTurns_allowed op (List.mem_of_mem_take hop)) hrun⟩

end TomatoOs.Fs.Ext2
