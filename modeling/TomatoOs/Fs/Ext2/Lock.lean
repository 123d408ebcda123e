import TomatoOs.Fs.Ext2.Writes

/-!
# The lock of a partition

`ext2_read_blocks` takes the lock where a sector is larger than a block, and its
callers hold it then. The validator rules that out: on a partition that it
accepted no call waits for a lock that it holds itself, and each one leaves the
lock free.
-/

namespace TomatoOs.Fs.Ext2

open Lib Memory

inductive PartitionCall
  | checkRoot
  | readInode (ino : Nat) (out : Mem)
  | bmap (inode : Mem) (fb : Nat)
  | readBlocks (block buf : Nat)
  | writeBlocks (block buf : Nat)
  | writeSuperblock

def PartitionCall.run (E : Env) (fs : Nat) : PartitionCall → Prog Kern Unit
  | .checkRoot => do let _ ← ext2CheckRoot E fs
  | .readInode ino out => do let _ ← ext2ReadInode E fs ino out
  | .bmap inode fb => do let _ ← ext2Bmap E fs inode fb
  | .readBlocks block buf => do let _ ← ext2ReadBlocks E fs block buf
  | .writeBlocks block buf => do let _ ← ext2WriteBlocks E fs block buf
  | .writeSuperblock => do let _ ← ext2WriteSuperblock E fs

/-- Between calls the lock is free, and the superblock and the layout are those
that were accepted. -/
structure Idle (l fs : Nat) (s : Kern) : Prop where
  volume : Volume l (s.fsAt fs)
  lock : (s.fsAt fs).lock = false

section
variable {E : Env} {s t : Kern} {fs : Nat}

theorem Idle.congr (h : Idle l fs s) (hfs : t.fsAt = s.fsAt) : Idle l fs t := by
  refine ⟨?_, ?_⟩
  · rw [hfs]
    exact h.volume
  · rw [hfs]
    exact h.lock

theorem Idle.fetches (h : Idle l fs s) (hf : Fetches n s t) : Idle l fs t := h.congr hf.fsAt

theorem readBlocks_idle (h : Idle E.lbaSize fs s) :
    Triple (ext2ReadBlocks E fs block buf) s (fun _ t => Idle E.lbaSize fs t) fun _ => False := by
  rcases Nat.lt_or_ge block (s.fsAt fs).sb.sBlocksCount with hb | hb
  · refine Triple.of_run (readBlocks_eq h.volume.sectored hb buf) ?_
    exact h.fetches (diskRead_fetches ..)
  · exact Triple.of_run (readBlocks_out hb buf) h

theorem readPtr_idle (h : Idle E.lbaSize fs s) :
    Triple (ext2ReadPtr E fs blk idx out) s (fun _ t => Idle E.lbaSize fs t) fun _ => False := by
  refine Triple.step rfl ?_
  split
  · exact Triple.pure h
  · rename_i hrange
    obtain ⟨ram, t, hrun, hfetch, -⟩ := locked_fetch h.volume.sectored h.lock
      (Nat.lt_of_not_le fun hb => hrange (.inr hb))
      fun ok ram => (ok, if ok then ram.load ((s.fsAt fs).ioBuf + 4 * idx) 4 else out)
    exact Triple.of_run hrun (h.fetches hfetch)

theorem readInode_idle (h : Idle E.lbaSize fs s) :
    Triple (ext2ReadInode E fs ino out) s (fun _ t => Idle E.lbaSize fs t) fun _ => False := by
  refine (readInode_triple h.volume h.lock ino out).mono ?_ fun _ hf => hf
  rintro r t ⟨⟨n, hf⟩, -⟩
  exact h.fetches hf

theorem writeBlocks_idle (h : Idle E.lbaSize fs s) :
    Triple (ext2WriteBlocks E fs block buf) s (fun _ t => Idle E.lbaSize fs t) fun _ => False := by
  refine Triple.step rfl ?_
  split
  · exact Triple.pure h
  split
  · exact Triple.pure h
  · rw [if_pos h.volume.sectored.le]
    exact Triple.of_run rfl (h.congr rfl)

theorem writeSuperblock_idle (h : Idle E.lbaSize fs s) :
    Triple (ext2WriteSuperblock E fs) s (fun _ t => Idle E.lbaSize fs t) fun _ => False := by
  have hback : ∀ t : Kern, t.fsAt = (s.putFs fs ((s.fsAt fs).setLock true)).fsAt →
      Idle E.lbaSize fs (t.putFs fs ((t.fsAt fs).setLock false)) := by
    intro t ht
    rw [Kern.unlocked h.lock ht]
    exact h.congr rfl
  refine Triple.step rfl ?_
  split
  · exact Triple.pure h
  refine Triple.bind (Q := fun _ t => Idle E.lbaSize fs t)
    (locked_triple h.lock (Triple.step rfl ?_)) ?_
  · cases E.readOk (s.putFs fs ((s.fsAt fs).setLock true)).transfers.length with
    | false => exact Triple.pure (hback _ rfl)
    | true => exact Triple.step rfl (Triple.of_run rfl (hback _ rfl))
  · intro ok t ht
    cases ok with
    | false => exact Triple.pure ht
    | true =>
      refine Triple.step rfl (Triple.pure ⟨?_, ?_⟩)
      · rw [Kern.putFs_fs]
        exact ht.volume.of_fields rfl rfl
      · rw [Kern.putFs_fs]
        exact ht.lock

theorem PartitionCall.run_idle (h : Idle E.lbaSize fs s) (c : PartitionCall) :
    Triple (c.run E fs) s (fun _ t => Idle E.lbaSize fs t) fun _ => False := by
  cases c with
  | checkRoot => exact Triple.bind (checkRoot_triple (readInode_idle h)) fun _ _ ht => Triple.pure ht
  | readInode ino out => exact Triple.bind (readInode_idle h) fun _ _ ht => Triple.pure ht
  | bmap inode fb =>
    refine Triple.bind (bmap_triple (fun _ _ _ _ ht => readPtr_idle ht) h) fun _ _ ht => ?_
    exact Triple.pure ht
  | readBlocks block buf => exact Triple.bind (readBlocks_idle h) fun _ _ ht => Triple.pure ht
  | writeBlocks block buf => exact Triple.bind (writeBlocks_idle h) fun _ _ ht => Triple.pure ht
  | writeSuperblock => exact Triple.bind (writeSuperblock_idle h) fun _ _ ht => Triple.pure ht

def runCalls (E : Env) (fs : Nat) : List PartitionCall → Prog Kern Unit
  | [] => pure ()
  | c :: cs => do
    c.run E fs
    runCalls E fs cs

theorem runCalls_idle (h : Idle E.lbaSize fs s) (cs : List PartitionCall) :
    Triple (runCalls E fs cs) s (fun _ t => Idle E.lbaSize fs t) fun _ => False := by
  induction cs generalizing s with
  | nil => exact Triple.pure h
  | cons c cs ih => exact Triple.bind (c.run_idle h) fun _ _ ht => ih ht

/-- No call on an accepted partition waits for its own lock: each of them returns,
with the lock free. -/
theorem partition_calls_return (hl : E.lbaSize < 2 ^ 32)
    (hvalid : ext2ValidateSb (s.fsAt fs).sb E.lbaSize = .ok ())
    (hlayout : (s.fsAt fs).layout = ext2ComputeLayout wrapping (s.fsAt fs).sb E.lbaSize)
    (hfree : (s.fsAt fs).lock = false) (cs : List PartitionCall) :
    ∃ t, runCalls E fs cs s = (some (), t) ∧ (t.fsAt fs).lock = false := by
  have h : Idle E.lbaSize fs s := ⟨Volume.of_validate hl hvalid hlayout, hfree⟩
  obtain ⟨_, t, hrun, ht⟩ := (runCalls_idle h cs).returns
  exact ⟨t, hrun, ht.lock⟩

theorem partition_calls_return_small :
    ∃ t, runCalls allOk 1 [.checkRoot, .writeBlocks 3 8192, .writeSuperblock] mountedSmall =
      (some (), t) ∧ (t.fsAt 1).lock = false := by
  have hvalid : ext2ValidateSb (mountedSmall.fsAt 1).sb 512 = .ok () := by decide +kernel
  have hlayout : (mountedSmall.fsAt 1).layout =
      ext2ComputeLayout wrapping (mountedSmall.fsAt 1).sb 512 := by decide +kernel
  have hfree : (mountedSmall.fsAt 1).lock = false := by decide +kernel
  exact partition_calls_return (E := allOk) (by decide) hvalid hlayout hfree _

end

end TomatoOs.Fs.Ext2
