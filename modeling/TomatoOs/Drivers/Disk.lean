import TomatoOs.Fs.Ext2.Mount

/-!
# Looking for partitions

`disk.c`: a disk that has come up is read once as a test, its partition style
is told from its first two sectors, and every partition that may hold a file
system is looked at and mounted. Each of these functions takes a page for its
buffer and does not ask whether it got one.
-/

namespace TomatoOs.Drivers

open Lib Memory Fs.Ext2

inductive PartitionStyle
  | err
  | mbr
  | gpt
  | raw
deriving DecidableEq

def memcmpEq (m : Mem) : Nat → List Byte → Bool
  | _, [] => true
  | a, b :: bytes => m a == b && memcmpEq m (a + 1) bytes

def gptSignature : List Byte := [0x45, 0x46, 0x49, 0x20, 0x50, 0x41, 0x52, 0x54]

def linuxFsSignature : List Byte :=
  [0xAF, 0x3D, 0xC6, 0x0F, 0x83, 0x84, 0x72, 0x47, 0x8E, 0x79, 0x3D, 0x69, 0xD8, 0x47, 0x7D, 0xE4]

def sizeofPartition : Nat := 432

structure GptLba1 where
  partitionLba : Nat
  countPartitions : Nat
  sizeOfPartition : Nat
deriving DecidableEq

def GptLba1.zero : GptLba1 := { partitionLba := 0, countPartitions := 0, sizeOfPartition := 0 }

structure GptPartitionEntry where
  guid : List Byte
  startLba : Nat
deriving DecidableEq

def gptPartitionEntry (m : Mem) (a : Nat) : GptPartitionEntry :=
  { guid := (List.range 16).map fun i => m (a + i)
    startLba := m.load (a + 32) 8 }

def sizeofGptEntry : Nat := 128

section
variable (E : Env)

def determineDiskType : Prog Kern PartitionStyle := do
  let phys ← allocPage E .diskType
  let ok ← diskRead E phys 1 1
  if ok then
    let ram ← getRam
    if memcmpEq ram phys gptSignature then
      freePage phys
      return .gpt
    else
      let mbrOk ← diskRead E phys 0 1
      let ram ← getRam
      freePage phys
      return if mbrOk ∧ ram (phys + 510) = 0x55 ∧ ram (phys + 511) = 0xAA then .mbr else .err
  else
    freePage phys
    return .err

def diskSelftest : Prog Kern Bool := do
  let phys ← allocPage E .selftest
  let ok ← diskRead E phys 0 1
  freePage phys
  return ok

/-- Whether there is an ext2 superblock on the partition at `start`, or `none`
when it could not be read. -/
def lookForExt2 (site : PageSite) (start : Nat) : Prog Kern (Option Bool) := do
  let b := bytesToBlocks 1024 1024 E.lbaSize
  let phys ← allocPage E site
  let ok ← diskRead E phys (wadd 64 start b.lba) b.sizeInBlocks
  let ram ← getRam
  freePage phys
  return if ok then some (ram.load (phys + b.offset + 56) 2 == ext2Magic) else none

/-- The partition is given back unless it was mounted. -/
def mountOrFree (fs start : Nat) : Prog Kern Unit := do
  let ok ← ext2Init E fs start
  Prog.when (!ok) (kfree fs)

def diskTryLinux : Prog Kern Bool := do
  match ← lookForExt2 E .tryLinux 0 with
  | some true =>
    let fs ← kmalloc E sizeofPartition
    if fs = 0 then return false
    else
      mountOrFree E fs 0
      return true
  | _ => return false

def recordLinuxCall (start : Nat) : Prog Kern Unit := fun s =>
  (some (), { s with linuxCalls := s.linuxCalls ++ [start] })

/-- Unlike `disk_try_linux` it does not look at what `kmalloc` returned. -/
def diskDoMbrLinux (start : Nat) : Prog Kern Bool := do
  recordLinuxCall start
  match ← lookForExt2 E .mbrLinux start with
  | some true =>
    let fs ← kmalloc E sizeofPartition
    mountOrFree E fs start
    return true
  | _ => return false

def gptLoop (phys : Nat) : Nat → Nat → Prog Kern Unit
  | 0, _ => pure ()
  | n + 1, i => do
    let ram ← getRam
    let entry := gptPartitionEntry ram (phys + sizeofGptEntry * i)
    if entry.guid = List.replicate 16 0 then gptLoop phys n (i + 1)
    else
      Prog.when (entry.guid = linuxFsSignature) do
        let _ ← diskDoMbrLinux E entry.startLba
      gptLoop phys n (i + 1)

def diskGpt : Prog Kern Unit := do
  let phys ← allocPage E .gpt
  let lba1 := GptLba1.zero
  let _ ← diskRead E phys 1 1
  gptLoop E phys lba1.countPartitions 0
  freePage phys

def mbrType (m : Mem) (phys i : Nat) : Byte := m (phys + 446 + 16 * i + 4)

def mbrStart (m : Mem) (phys i : Nat) : Nat := m.load (phys + 446 + 16 * i + 8) 4

def mbrLoop (phys : Nat) : Nat → Nat → Prog Kern Unit
  | 0, _ => pure ()
  | n + 1, i => do
    let ram ← getRam
    Prog.when (mbrType ram phys i = 0x83) do
      let _ ← diskDoMbrLinux E (mbrStart ram phys i)
    mbrLoop phys n (i + 1)

def diskMbr : Prog Kern Unit := do
  let phys ← allocPage E .mbr
  let _ ← diskRead E phys 0 1
  mbrLoop E phys 4 0
  freePage phys

def initDisk : Prog Kern Unit := do
  let ok ← diskSelftest E
  if ok then
    match ← determineDiskType E with
    | .mbr => diskMbr E
    | .gpt => diskGpt E
    | _ =>
      let _ ← diskTryLinux E
  else return ()

end

-- ---------------------------------------------------------------------------
-- GPT tables
-- ---------------------------------------------------------------------------

section
variable (l : Nat) (s : Kern)

def gptHeader : GptLba1 :=
  { partitionLba := (s.diskByte l 1).load 72 8
    countPartitions := (s.diskByte l 1).load 80 4
    sizeOfPartition := (s.diskByte l 1).load 84 4 }

def gptEntry (i : Nat) : GptPartitionEntry :=
  gptPartitionEntry (s.diskByte l (gptHeader l s).partitionLba) ((gptHeader l s).sizeOfPartition * i)

def linuxStarts : List Nat :=
  ((List.range (gptHeader l s).countPartitions).map (gptEntry l s)).filterMap fun entry =>
    if entry.guid = linuxFsSignature then some entry.startLba else none

theorem linuxStarts_nil : linuxStarts l s = [] ↔
    ∀ i < (gptHeader l s).countPartitions, (gptEntry l s i).guid ≠ linuxFsSignature := by
  simp [linuxStarts, List.filterMap_eq_nil_iff]

end

/-- The header is never taken from the buffer, so that the loop sees no entry:
no partition is looked at. -/
theorem diskGpt_calls (E : Env) (s : Kern) :
    ∃ t, diskGpt E s = (some (), t) ∧ t.linuxCalls = s.linuxCalls :=
  ⟨_, rfl, rfl⟩

/-- The partitions of type Linux are looked at when there are none. -/
theorem gpt_discovery_iff (E : Env) (s : Kern) :
    ∃ t, diskGpt E s = (some (), t) ∧
      (t.linuxCalls = s.linuxCalls ++ linuxStarts E.lbaSize s ↔
        ∀ i < (gptHeader E.lbaSize s).countPartitions,
          (gptEntry E.lbaSize s i).guid ≠ linuxFsSignature) := by
  obtain ⟨t, hrun, hcalls⟩ := diskGpt_calls E s
  refine ⟨t, hrun, ?_⟩
  rw [hcalls, ← linuxStarts_nil]
  constructor
  · exact fun h => List.append_right_eq_self.mp h.symm
  · intro h
    rw [h, List.append_nil]

def gptDisk : Kern :=
  freshKern (diskImage [(512, 8, 0x5452415020494645), (584, 8, 2), (592, 4, 1), (596, 4, 128),
    (1024, 16, 0xE47D47D8693D798E477284830FC63DAF), (1056, 8, 2048)])

theorem gpt_partition_missed :
    memcmpEq (gptDisk.diskByte 512 1) 0 gptSignature = true ∧
      gptHeader 512 gptDisk = ⟨2, 1, 128⟩ ∧ linuxStarts 512 gptDisk = [2048] ∧
      (diskGpt allOk gptDisk).2.linuxCalls = [] := by
  decide +kernel

end TomatoOs.Drivers
