import TomatoOs.Fs.Ext2.Kernel

/-!
# Blocks, block maps and inodes

The reading half of `io.c`, and `inode.c`. On a partition whose superblock was
accepted these calls return, and they leave behind only what they read: every
transfer goes to a page that is handed out and has room for it, and the lock is
free again.
-/

namespace TomatoOs.Fs.Ext2

open Lib Memory

-- ---------------------------------------------------------------------------
-- Programs
-- ---------------------------------------------------------------------------

def locked (fs : Nat) (c : Prog Kern α) : Prog Kern α := do
  spinlockAquire fs
  let r ← c
  spinlockRelease fs
  return r

def memcpyPage (dst src n : Nat) : Prog Kern Unit := fun s =>
  (some (), { s with ram := s.ram.paste dst s.ram src n })

def getRam : Prog Kern Mem := fun s => (some s.ram, s)

section
variable (E : Env)

def ext2ReadBlocks (fs block buf : Nat) : Prog Kern Bool := do
  let p ← getFs fs
  if block ≥ p.sb.sBlocksCount then return false
  else
    let r := bytesToBlocks (wmul 64 block p.layout.blockSize) p.layout.blockSize E.lbaSize
    let lba := wadd 64 p.lbaStart r.lba
    if p.layout.blockSize ≥ E.lbaSize then diskRead E buf lba r.sizeInBlocks
    else
      locked fs do
        let ok ← diskRead E p.ioBuf lba 1
        Prog.when ok (memcpyPage buf (p.ioBuf + r.offset) p.layout.blockSize)
        return ok

/-- The second value is `*out` after the call. -/
def ext2ReadPtr (fs blk idx out : Nat) : Prog Kern (Bool × Nat) := do
  let p ← getFs fs
  if blk < p.sb.sFirstDataBlock ∨ blk ≥ p.sb.sBlocksCount then return (false, out)
  else
    locked fs do
      let ok ← ext2ReadBlocks E fs blk p.ioBuf
      let ram ← getRam
      return (ok, if ok then ram.load (p.ioBuf + 4 * idx) 4 else out)

def iBlock (inode : Mem) (i : Nat) : Nat := inode.load (40 + 4 * i) 4

/-- The pointer `p` is followed unless it is 0 or the read before it failed. -/
def descend (r : Bool × Nat) (k : Nat → Prog Kern (Bool × Nat)) : Prog Kern (Bool × Nat) :=
  if r.1 = false then pure (false, 0) else if r.2 = 0 then pure (true, 0) else k r.2

/-- The second value is `*disk_block` after the call. -/
def ext2Bmap (fs : Nat) (inode : Mem) (fb : Nat) : Prog Kern (Bool × Nat) := do
  let ppb := (← getFs fs).layout.blockSize / 4
  if fb < 12 then return (true, iBlock inode fb)
  else
    let fb := fb - 12
    if fb < ppb then
      descend (true, iBlock inode 12) fun p => ext2ReadPtr E fs p (fb % 2 ^ 32) 0
    else
      let fb := fb - ppb
      if fb < wmul 64 ppb ppb then
        descend (true, iBlock inode 13) fun p => do
          let r ← ext2ReadPtr E fs p (fb / ppb % 2 ^ 32) p
          descend r fun p => ext2ReadPtr E fs p (fb % ppb % 2 ^ 32) 0
      else
        let fb := fb - wmul 64 ppb ppb
        if fb < wmul 64 (wmul 64 ppb ppb) ppb then
          descend (true, iBlock inode 14) fun p => do
            let r ← ext2ReadPtr E fs p (fb / wmul 64 ppb ppb % 2 ^ 32) p
            descend r fun p => do
              let rem := fb % wmul 64 ppb ppb
              let r ← ext2ReadPtr E fs p (rem / ppb % 2 ^ 32) p
              descend r fun p => ext2ReadPtr E fs p (rem % ppb % 2 ^ 32) 0
        else return (false, 0)

def ext2GetGroupDesc (p : Partition) (group : Nat) : Option Nat :=
  if group < p.layout.groupCount then some (sizeofGroupDesc * group) else none

def tableLoad (groups off n : Nat) : Prog Kern Nat := fun s =>
  (some ((s.tableAt groups).load off n), s)

def sizeofInode : Nat := 128

/-- The second value is `*out` after the call. -/
def ext2ReadInode (fs ino : Nat) (out : Mem) : Prog Kern (Bool × Mem) := do
  let p ← getFs fs
  if ino = 0 ∨ ino > p.sb.sInodesCount then return (false, out)
  else
    match ext2GetGroupDesc p ((ino - 1) / p.sb.sInodesPerGroup) with
    | none => return (false, out)
    | some gd =>
      let inodeTable ← tableLoad p.groups (gd + 8) 4
      let byte := (ino - 1) % p.sb.sInodesPerGroup * p.layout.inodeSize
      let block := inodeTable + byte / p.layout.blockSize
      let off := byte % p.layout.blockSize
      if block ≥ p.sb.sBlocksCount then return (false, out)
      else
        locked fs do
          let ok ← ext2ReadBlocks E fs block p.ioBuf
          let ram ← getRam
          let inode := Mem.paste (fun _ => 0) 0 ram (p.ioBuf + off)
            (if p.layout.inodeSize < sizeofInode then p.layout.inodeSize else sizeofInode)
          return (ok, if ok then inode else out)

end

-- ---------------------------------------------------------------------------
-- Sector ranges
-- ---------------------------------------------------------------------------

theorem bytesToBlocks_whole (hl : 0 < l) (hstart : l ∣ start) (hsize : l ∣ size) (hpos : 0 < size) :
    bytesToBlocks start size l = ⟨start / l, size / l, 0⟩ := by
  have hne : size / l ≠ 0 := by
    have := Nat.div_pos (Nat.le_of_dvd hpos hsize) hl
    omega
  simp [bytesToBlocks, alignDown, alignUp, Nat.mod_eq_zero_of_dvd hstart,
    Nat.mod_eq_zero_of_dvd hsize, hne]

theorem bytesToBlocks_superblock (hl : 0 < l) (hle : l ≤ 4096) :
    (bytesToBlocks 1024 1024 l).sizeInBlocks * l ≤ 4096 := by
  have hmod := Nat.mod_lt 1024 hl
  have hup : alignUp 1024 l ≤ 4096 := by
    unfold alignUp
    split
    · decide
    · have hself : 1024 < l → 1024 % l = 1024 := Nat.mod_eq_of_lt
      rw [wadd_eq (by omega)]
      omega
  have hdiv := Nat.div_mul_le_self (alignUp 1024 l) l
  simp only [bytesToBlocks]
  split <;> omega

theorem alignUp_div (hl : 0 < l) (hpos : 0 < size) (hfit : size + l < 2 ^ 64) :
    alignUp size l / l = (size - 1) / l + 1 := by
  have hsplit := Nat.div_add_mod (size - 1) l
  have hmod := Nat.mod_lt (size - 1) hl
  -- `alignUp` is the end of the sector that holds the last byte
  have hend : alignUp size l = ((size - 1) / l + 1) * l := by
    have hsize : size = (size - 1) % l + 1 + l * ((size - 1) / l) := by omega
    rw [Nat.add_mul, Nat.one_mul, Nat.mul_comm _ l]
    unfold alignUp
    by_cases hlast : (size - 1) % l + 1 = l
    · have h0 : size % l = 0 := by
        rw [hsize, Nat.add_mul_mod_self_left, hlast, Nat.mod_self]
      rw [if_pos h0]
      omega
    · have hm : size % l = (size - 1) % l + 1 := by
        conv_lhs => rw [hsize, Nat.add_mul_mod_self_left]
        exact Nat.mod_eq_of_lt (by omega)
      rw [if_neg (by omega), hm, wadd_eq (by omega)]
      omega
  rw [hend, Nat.mul_div_cancel _ hl]

theorem bytesToBlocks_eq (hl : 0 < l) (hpos : 0 < size) (hfit : size + l < 2 ^ 64) :
    bytesToBlocks start size l = ⟨start / l, (size - 1) / l + 1, start % l⟩ := by
  have hdown : alignDown start l = start / l * l := by
    have hsplit := Nat.div_add_mod' start l
    unfold alignDown
    omega
  have hoff : start - start / l * l = start % l := by
    have hsplit := Nat.div_add_mod' start l
    omega
  rw [bytesToBlocks, alignUp_div hl hpos hfit, hdown, Nat.mul_div_cancel _ hl, hoff,
    if_neg (Nat.succ_ne_zero _)]

/-- The sectors of `r` hold the bytes from `start` on, `r.offset` bytes in. -/
structure BlockRange.Covers (r : BlockRange) (start size l : Nat) : Prop where
  place : r.lba * l + r.offset = start
  offset : r.offset < l
  room : r.offset + size ≤ r.sizeInBlocks * l
  bytes : ∀ (sectors : Nat → Mem) (ram : Mem) (buffer j : Nat), j < size →
    ram.paste buffer (byteAt l sectors r.lba) 0 (r.sizeInBlocks * l) (buffer + (r.offset + j)) =
      byteAt l sectors 0 (start + j)

/-- The sectors are counted from the size alone: they reach far enough exactly if
the start's offset is no longer than what the last of them has to spare. -/
theorem bytesToBlocks_covers_iff (hpos : 1 ≤ size) (hl : 1 ≤ l) (hfit : start + size + l < 2 ^ 64) :
    (bytesToBlocks start size l).Covers start size l ↔ start % l + (size - 1) % l < l := by
  rw [bytesToBlocks_eq hl hpos (by omega)]
  have hstart := Nat.div_add_mod' start l
  have hroom : start % l + size ≤ ((size - 1) / l + 1) * l ↔ start % l + (size - 1) % l < l := by
    have hsplit := Nat.div_add_mod' (size - 1) l
    rw [Nat.add_mul, Nat.one_mul]
    omega
  rw [← hroom]
  refine ⟨fun h => h.room, fun h => ⟨hstart, Nat.mod_lt start hl, h, ?_⟩⟩
  intro sectors ram buffer j hj
  have hlba : start / l < 2 ^ 64 := (Nat.div_le_self start l).trans_lt (by omega)
  have hlater : byteAt l sectors (wadd 64 0 (start / l)) (start % l + j) =
      byteAt l sectors 0 (start / l * l + (start % l + j)) := byteAt_later hl _ _
  rw [wadd, Nat.zero_add, Nat.mod_eq_of_lt hlba] at hlater
  rw [Mem.paste_inside _ _ _ _ (show start % l + j < ((size - 1) / l + 1) * l by omega), Nat.zero_add,
     hlater, ← Nat.add_assoc, hstart]

theorem bytesToBlocks_covers_superblock :
    (bytesToBlocks 1024 1024 4096).Covers 1024 1024 4096 :=
  (bytesToBlocks_covers_iff (by decide) (by decide) (by decide)).mpr (by decide)

/-- Two bytes on both sides of a sector's end. -/
theorem straddling_bytes_cut : ¬(bytesToBlocks 511 2 512).Covers 511 2 512 := by
  intro h
  exact absurd h.room (by decide)

-- ---------------------------------------------------------------------------
-- What reading leaves behind
-- ---------------------------------------------------------------------------

/-- The transfer goes to a page that is handed out, and fits into it. -/
structure Transfer.Fits (lbaSize : Nat) (x : Transfer) : Prop where
  page : x.buffer ≠ 0
  held : x.buffer ∈ x.held
  room : x.len * lbaSize ≤ 4096

/-- From `s` to `t` only memory was written and sectors were read. -/
def Reads (l : Nat) (s t : Kern) : Prop :=
  ∃ ram tables new, t = { s with ram := ram, tableAt := tables, transfers := s.transfers ++ new } ∧
    ∀ x ∈ new, Transfer.Fits l x

theorem Reads.refl (l : Nat) (s : Kern) : Reads l s s :=
  ⟨s.ram, s.tableAt, [], by rw [List.append_nil], fun _ hx => absurd hx List.not_mem_nil⟩

theorem Reads.trans (h : Reads l s t) (h' : Reads l t u) : Reads l s u := by
  obtain ⟨ram, tables, new, rfl, hfit⟩ := h
  obtain ⟨ram', tables', new', rfl, hfit'⟩ := h'
  refine ⟨ram', tables', new ++ new', ?_, fun x hx => ?_⟩
  · simp only [List.append_assoc]
  · rcases List.mem_append.mp hx with hx | hx
    · exact hfit x hx
    · exact hfit' x hx

theorem Reads.write (l : Nat) (s : Kern) (ram : Mem) (tables : Nat → Mem) :
    Reads l s { s with ram := ram, tableAt := tables } :=
  ⟨ram, tables, [], by rw [List.append_nil], fun _ hx => absurd hx List.not_mem_nil⟩

theorem Reads.fsAt (h : Reads l s t) : t.fsAt = s.fsAt := by
  obtain ⟨_, _, _, rfl, -⟩ := h
  rfl

theorem Reads.held (h : Reads l s t) : t.held = s.held := by
  obtain ⟨_, _, _, rfl, -⟩ := h
  rfl

theorem Reads.pmm (h : Reads l s t) : t.pmm = s.pmm := by
  obtain ⟨_, _, _, rfl, -⟩ := h
  rfl

theorem Reads.partitionCount (h : Reads l s t) : t.partitionCount = s.partitionCount := by
  obtain ⟨_, _, _, rfl, -⟩ := h
  rfl

theorem Reads.partitions (h : Reads l s t) : t.partitions = s.partitions := by
  obtain ⟨_, _, _, rfl, -⟩ := h
  rfl

theorem Reads.pageCalls (h : Reads l s t) : t.pageCalls = s.pageCalls := by
  obtain ⟨_, _, _, rfl, -⟩ := h
  rfl

theorem Reads.diskByte (h : Reads l s t) : t.diskByte = s.diskByte := by
  obtain ⟨_, _, _, rfl, -⟩ := h
  rfl

theorem Kern.unlocked {s t : Kern} (hfree : (s.fsAt fs).lock = false)
    (ht : t.fsAt = (s.putFs fs ((s.fsAt fs).setLock true)).fsAt) :
    t.putFs fs ((t.fsAt fs).setLock false) = { t with fsAt := s.fsAt } := by
  have hsame : ((s.fsAt fs).setLock true).setLock false = s.fsAt fs := by
    simp only [Partition.setLock, ← hfree]
  simp only [Kern.putFs] at ht
  simp only [Kern.putFs, ht, Function.update_self, Function.update_idem, hsame,
    Function.update_eq_self]

/-- What is read under the lock is read without it, too. -/
theorem Reads.unlock (hfree : (s.fsAt fs).lock = false)
    (h : Reads l (s.putFs fs ((s.fsAt fs).setLock true)) t) :
    Reads l s (t.putFs fs ((t.fsAt fs).setLock false)) := by
  rw [Kern.unlocked hfree h.fsAt]
  obtain ⟨ram, tables, new, rfl, hfit⟩ := h
  exact ⟨ram, tables, new, rfl, hfit⟩

def Fetches (n : Nat) (s t : Kern) : Prop :=
  ∃ ram new, t = { s with ram := ram, transfers := s.transfers ++ new } ∧ new.length = n

theorem Fetches.refl (s : Kern) : Fetches 0 s s := ⟨s.ram, [], by rw [List.append_nil], rfl⟩

theorem diskRead_fetches (E : Env) (buffer lba len : Nat) (s : Kern) :
    Fetches 1 s (diskRead E buffer lba len s).2 := ⟨_, [_], rfl, rfl⟩

theorem Fetches.fsAt (h : Fetches n s t) : t.fsAt = s.fsAt := by
  obtain ⟨_, _, rfl, -⟩ := h
  rfl

theorem Fetches.diskByte (h : Fetches n s t) : t.diskByte = s.diskByte := by
  obtain ⟨_, _, rfl, -⟩ := h
  rfl

theorem Fetches.mallocs (h : Fetches n s t) : t.mallocs = s.mallocs := by
  obtain ⟨_, _, rfl, -⟩ := h
  rfl

theorem Fetches.count (h : Fetches n s t) : t.transfers.length = s.transfers.length + n := by
  obtain ⟨_, new, rfl, hn⟩ := h
  rw [List.length_append, hn]

theorem Fetches.unlock (hfree : (s.fsAt fs).lock = false)
    (h : Fetches n (s.putFs fs ((s.fsAt fs).setLock true)) t) :
    Fetches n s (t.putFs fs ((t.fsAt fs).setLock false)) := by
  rw [Kern.unlocked hfree h.fsAt]
  obtain ⟨ram, new, rfl, hn⟩ := h
  exact ⟨ram, new, rfl, hn⟩

theorem locked_run {c : Prog Kern α} (hfree : (s.fsAt fs).lock = false)
    (hc : c (s.putFs fs ((s.fsAt fs).setLock true)) = (some a, t)) :
    locked fs c s = (some a, t.putFs fs ((t.fsAt fs).setLock false)) := by
  have hlock : spinlockAquire fs s = (some (), s.putFs fs ((s.fsAt fs).setLock true)) := by
    simp only [spinlockAquire, hfree, Bool.false_eq_true, if_false]
  unfold locked
  rw [Prog.bind_eq hlock, Prog.bind_eq hc]
  rfl

theorem locked_triple {c : Prog Kern α} (hfree : (s.fsAt fs).lock = false)
    (hc : Triple c (s.putFs fs ((s.fsAt fs).setLock true))
      (fun a t => Q a (t.putFs fs ((t.fsAt fs).setLock false))) R) :
    Triple (locked fs c) s Q R := by
  refine Triple.step (a := ()) (t := s.putFs fs ((s.fsAt fs).setLock true)) ?_ ?_
  · simp only [spinlockAquire, hfree, Bool.false_eq_true, if_false]
  · exact Triple.bind hc fun a t hq => Triple.step rfl (Triple.pure hq)

-- ---------------------------------------------------------------------------
-- Reading a partition
-- ---------------------------------------------------------------------------

/-- A partition after validation, on a disk with sectors of `l` bytes. -/
structure Volume (l : Nat) (p : Partition) : Prop where
  accepted : p.sb.Accepted l
  layout : p.layout = p.sb.layout l
  lba : l < 2 ^ 32

theorem Volume.of_fields {p q : Partition} (h : Volume l p) (hsb : q.sb = p.sb)
    (hlayout : q.layout = p.layout) : Volume l q :=
  ⟨hsb ▸ h.accepted, by rw [hlayout, h.layout, hsb], h.lba⟩

structure Sectored (l : Nat) (p : Partition) : Prop where
  dvd : l ∣ p.layout.blockSize
  pos : 0 < p.layout.blockSize
  page : p.layout.blockSize ≤ 4096

section
variable {E : Env} {s : Kern} {fs : Nat} {p : Partition}

theorem Sectored.sector (h : Sectored l p) : 0 < l := Nat.pos_of_dvd_of_pos h.dvd h.pos

theorem Sectored.le (h : Sectored l p) : l ≤ p.layout.blockSize := Nat.le_of_dvd h.pos h.dvd

theorem Volume.sectors (h : Volume l p) :
    0 < l ∧ l ≤ p.sb.bs ∧ l ∣ p.sb.bs ∧ 0 < p.sb.bs ∧ p.sb.bs ≤ 4096 := by
  obtain ⟨hpos, hle, hmod⟩ := h.accepted.lba
  rw [Nat.mod_eq_of_lt h.lba] at hpos hle hmod
  have := h.accepted.bs_cases
  exact ⟨hpos, hle, Nat.dvd_of_mod_eq_zero hmod, by omega, by omega⟩

theorem Volume.blockSize (h : Volume l p) : p.layout.blockSize = p.sb.bs := by
  rw [h.layout]
  rfl

theorem Volume.sectored (h : Volume l p) : Sectored l p := by
  obtain ⟨-, -, hdvd, hbs, hpage⟩ := h.sectors
  rw [← h.blockSize] at hdvd hbs hpage
  exact ⟨hdvd, hbs, hpage⟩

theorem Sectored.byte (h : Sectored l p) (s : Kern) (block j : Nat) :
    s.diskByte l (wadd 64 p.lbaStart (block * p.layout.blockSize / l)) j =
      s.diskByte l p.lbaStart (block * p.layout.blockSize + j) := by
  have hlater : s.diskByte l (wadd 64 p.lbaStart (block * p.layout.blockSize / l)) j =
      s.diskByte l p.lbaStart (block * p.layout.blockSize / l * l + j) := byteAt_later h.sector _ j
  rwa [Nat.div_mul_cancel (Dvd.dvd.mul_left h.dvd block)] at hlater

theorem readBlocks_out (hb : (s.fsAt fs).sb.sBlocksCount ≤ block) (buf : Nat) :
    ext2ReadBlocks E fs block buf s = (some false, s) := by
  unfold ext2ReadBlocks
  rw [Prog.bind_eq (show getFs fs s = (some (s.fsAt fs), s) from rfl), if_pos hb]
  rfl

theorem Superblock.block_lt (sb : Superblock) (hpage : n ≤ 4096) (hb : block < sb.sBlocksCount) :
    block * n + n ≤ 2 ^ 44 := by
  have hlt := sb.blocksCount_lt
  calc block * n + n
    _ = (block + 1) * n := (Nat.succ_mul ..).symm
    _ ≤ 2 ^ 32 * 2 ^ 12 := Nat.mul_le_mul (by omega) hpage

theorem Superblock.wmul_block (sb : Superblock) (hpage : n ≤ 4096) (hb : block < sb.sBlocksCount) :
    wmul 64 block n = block * n :=
  wmul_eq (by have := sb.block_lt hpage hb; omega)

theorem Sectored.range (h : Sectored l p) (hb : block < p.sb.sBlocksCount) :
    bytesToBlocks (wmul 64 block p.layout.blockSize) p.layout.blockSize l =
      ⟨block * p.layout.blockSize / l, p.layout.blockSize / l, 0⟩ := by
  rw [p.sb.wmul_block h.page hb]
  exact bytesToBlocks_whole h.sector (Dvd.dvd.mul_left h.dvd block) h.dvd h.pos

theorem readBlocks_eq (h : Sectored E.lbaSize (s.fsAt fs))
    (hb : block < (s.fsAt fs).sb.sBlocksCount) (buf : Nat) :
    ext2ReadBlocks E fs block buf s =
      diskRead E buf (wadd 64 (s.fsAt fs).lbaStart
          (block * (s.fsAt fs).layout.blockSize / E.lbaSize))
        ((s.fsAt fs).layout.blockSize / E.lbaSize) s := by
  unfold ext2ReadBlocks
  rw [Prog.bind_eq (show getFs fs s = (some (s.fsAt fs), s) from rfl), if_neg (by omega)]
  simp only [h.range hb, if_pos h.le]

theorem Sectored.read (h : Sectored E.lbaSize (s.fsAt fs)) (ram : Mem) (buf block : Nat)
    (hj : j < (s.fsAt fs).layout.blockSize) :
    ram.paste buf (s.diskByte E.lbaSize (wadd 64 (s.fsAt fs).lbaStart
        (block * (s.fsAt fs).layout.blockSize / E.lbaSize))) 0
      ((s.fsAt fs).layout.blockSize / E.lbaSize * E.lbaSize) (buf + j) =
      s.diskByte E.lbaSize (s.fsAt fs).lbaStart (block * (s.fsAt fs).layout.blockSize + j) := by
  rw [Nat.div_mul_cancel h.dvd, Mem.paste_inside _ _ _ _ hj, Nat.zero_add]
  exact h.byte s block j

/-- A part under the lock that reads a block into the partition's own page and
makes its result from that. -/
theorem locked_fetch (h : Sectored E.lbaSize (s.fsAt fs)) (hfree : (s.fsAt fs).lock = false)
    (hb : block < (s.fsAt fs).sb.sBlocksCount) (f : Bool → Mem → α) :
    ∃ ram t, locked fs (do
        let ok ← ext2ReadBlocks E fs block (s.fsAt fs).ioBuf
        let ram ← getRam
        return f ok ram) s = (some (f (E.readOk s.transfers.length) ram), t) ∧
      Fetches 1 s t ∧
      (E.readOk s.transfers.length = true → ∀ j < (s.fsAt fs).layout.blockSize,
        ram ((s.fsAt fs).ioBuf + j) = s.diskByte E.lbaSize (s.fsAt fs).lbaStart
          (block * (s.fsAt fs).layout.blockSize + j)) := by
  let s₁ := s.putFs fs ((s.fsAt fs).setLock true)
  have hfs : s₁.fsAt fs = (s.fsAt fs).setLock true := s.putFs_fs fs _
  have hsec : Sectored E.lbaSize (s₁.fsAt fs) := by
    rw [hfs]
    exact ⟨h.dvd, h.pos, h.page⟩
  have hb₁ : block < (s₁.fsAt fs).sb.sBlocksCount := by
    rw [hfs]
    exact hb
  let t₁ := (diskRead E (s.fsAt fs).ioBuf (wadd 64 (s₁.fsAt fs).lbaStart
    (block * (s₁.fsAt fs).layout.blockSize / E.lbaSize))
    ((s₁.fsAt fs).layout.blockSize / E.lbaSize) s₁).2
  have hread : ext2ReadBlocks E fs block (s.fsAt fs).ioBuf s₁ =
      (some (E.readOk s.transfers.length), t₁) := readBlocks_eq hsec hb₁ (s.fsAt fs).ioBuf
  have hfetch : Fetches 1 s₁ t₁ := diskRead_fetches ..
  refine ⟨t₁.ram, _, locked_run hfree ?_, hfetch.unlock hfree, ?_⟩
  · rw [Prog.bind_eq hread]
    rfl
  · intro hok j hj
    have hin := hsec.read s.ram (s.fsAt fs).ioBuf block (j := j) (by rw [hfs]; exact hj)
    have hram : t₁.ram = s.ram.paste (s.fsAt fs).ioBuf (s₁.diskByte E.lbaSize
        (wadd 64 (s₁.fsAt fs).lbaStart (block * (s₁.fsAt fs).layout.blockSize / E.lbaSize))) 0
        ((s₁.fsAt fs).layout.blockSize / E.lbaSize * E.lbaSize) := if_pos hok
    rw [hram, hin, hfs]
    rfl

theorem readBlocks_triple (h : Volume E.lbaSize (s.fsAt fs)) (hne : buf ≠ 0)
    (hheld : buf ∈ s.held) :
    Triple (ext2ReadBlocks E fs block buf) s
      (fun ok t => Reads E.lbaSize s t ∧ t.tableAt = s.tableAt ∧
        (ok = true → ∀ j < (s.fsAt fs).sb.bs, t.ram (buf + j) =
          s.diskByte E.lbaSize (s.fsAt fs).lbaStart (block * (s.fsAt fs).sb.bs + j)))
      fun _ => False := by
  have hsec := h.sectored
  rcases Nat.lt_or_ge block (s.fsAt fs).sb.sBlocksCount with hb | hb
  · refine Triple.of_run (readBlocks_eq hsec hb buf) ⟨⟨_, _, _, rfl, fun x hx => ?_⟩, rfl, ?_⟩
    · rw [List.mem_singleton.mp hx]
      refine ⟨hne, hheld, ?_⟩
      simp only [Nat.div_mul_cancel hsec.dvd]
      exact hsec.page
    · intro hok j hj
      simp only [hok, if_true]
      rw [← h.blockSize] at hj ⊢
      exact hsec.read s.ram buf block hj
  · exact Triple.of_run (readBlocks_out hb buf) ⟨.refl _ _, rfl, fun hf => by cases hf⟩

structure Ready (l fs : Nat) (s : Kern) : Prop where
  volume : Volume l (s.fsAt fs)
  page : (s.fsAt fs).ioBuf ≠ 0
  held : (s.fsAt fs).ioBuf ∈ s.held
  lock : (s.fsAt fs).lock = false

theorem Ready.congr (h : Ready l fs s) (hfs : t.fsAt fs = s.fsAt fs) (hheld : s.held ⊆ t.held) :
    Ready l fs t := by
  refine ⟨?_, ?_, ?_, ?_⟩
  · rw [hfs]
    exact h.volume
  · rw [hfs]
    exact h.page
  · rw [hfs]
    exact hheld h.held
  · rw [hfs]
    exact h.lock

theorem Ready.reads (h : Ready l fs s) (hr : Reads l s t) : Ready l fs t :=
  h.congr (by rw [hr.fsAt]) (by rw [hr.held]; exact List.Subset.refl _)

theorem locked_read (h : Ready E.lbaSize fs s) (f : Bool → Mem → α) :
    Triple (locked fs do
        let ok ← ext2ReadBlocks E fs block (s.fsAt fs).ioBuf
        let ram ← getRam
        return f ok ram) s
      (fun _ t => Reads E.lbaSize s t) fun _ => False := by
  refine locked_triple h.lock ?_
  have hfs : (s.putFs fs ((s.fsAt fs).setLock true)).fsAt fs =
      ((s.fsAt fs).setLock true) := s.putFs_fs fs _
  have hv : Volume E.lbaSize ((s.putFs fs ((s.fsAt fs).setLock true)).fsAt fs) := by
    rw [hfs]
    exact h.volume.of_fields rfl rfl
  refine Triple.bind (readBlocks_triple hv h.page h.held) ?_
  rintro ok t ⟨hr, -, -⟩
  exact Triple.step rfl (Triple.pure (hr.unlock h.lock))

theorem readPtr_reads (h : Ready E.lbaSize fs s) :
    Triple (ext2ReadPtr E fs blk idx out) s (fun _ t => Reads E.lbaSize s t) fun _ => False := by
  refine Triple.step rfl ?_
  split
  · exact Triple.pure (.refl _ _)
  · exact locked_read h fun ok ram =>
      (ok, if ok then ram.load ((s.fsAt fs).ioBuf + 4 * idx) 4 else out)

section
variable {P R : Kern → Prop}

theorem descend_triple {k : Nat → Prog Kern (Bool × Nat)} (hs : P s)
    (hk : ∀ p, Triple (k p) s (fun _ t => P t) R) (r : Bool × Nat) :
    Triple (descend r k) s (fun _ t => P t) R := by
  unfold descend
  split
  · exact Triple.pure hs
  · split
    · exact Triple.pure hs
    · exact hk _

theorem bmap_triple (hptr : ∀ blk idx out t, P t →
      Triple (ext2ReadPtr E fs blk idx out) t (fun _ u => P u) R) (hs : P s) :
    Triple (ext2Bmap E fs inode fb) s (fun _ t => P t) R := by
  refine Triple.step rfl ?_
  dsimp only
  split
  · exact Triple.pure hs
  split
  · exact descend_triple hs (fun _ => hptr _ _ _ s hs) _
  split
  · refine descend_triple hs (fun _ => Triple.bind (hptr _ _ _ s hs) fun r t ht => ?_) _
    exact descend_triple ht (fun _ => hptr _ _ _ t ht) r
  split
  · refine descend_triple hs (fun _ => Triple.bind (hptr _ _ _ s hs) fun r t ht => ?_) _
    refine descend_triple ht (fun _ => Triple.bind (hptr _ _ _ t ht) fun r u hu => ?_) r
    exact descend_triple hu (fun _ => hptr _ _ _ u hu) r
  · exact Triple.pure hs

end

theorem bmap_reads (h : Ready E.lbaSize fs s) :
    Triple (ext2Bmap E fs inode fb) s (fun _ t => Reads E.lbaSize s t) fun _ => False := by
  refine bmap_triple (fun blk idx out t ht => ?_) (.refl _ _)
  exact (readPtr_reads (h.reads ht)).mono (fun _ _ hu => ht.trans hu) fun _ hf => hf

theorem readInode_reads (h : Ready E.lbaSize fs s) :
    Triple (ext2ReadInode E fs ino out) s (fun _ t => Reads E.lbaSize s t) fun _ => False := by
  refine Triple.step rfl ?_
  split
  · exact Triple.pure (.refl _ _)
  · cases ext2GetGroupDesc (s.fsAt fs) ((ino - 1) / (s.fsAt fs).sb.sInodesPerGroup) with
    | none => exact Triple.pure (.refl _ _)
    | some gd =>
      refine Triple.step rfl ?_
      dsimp only
      split
      · exact Triple.pure (.refl _ _)
      · exact locked_read h _

end

end TomatoOs.Fs.Ext2
