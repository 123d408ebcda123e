import TomatoOs.Fs.Ext2.Writes
import TomatoOs.Lib.Runs

/-!
# Partitions as stores

Any sequence of calls that read and write blocks and write superblocks back, on several
partitions of one disk, whichever transfers fail. A partition is a sequence of bytes:
a write that succeeds replaces some of them, a read that succeeds finds those that were
written last, and the other partitions do not notice.
-/

namespace TomatoOs.Fs.Ext2

open Lib Memory

-- ---------------------------------------------------------------------------
-- Calls and what they did
-- ---------------------------------------------------------------------------

/-- The calls, and stores of their callers to memory. -/
inductive BlockOp
  | write (fs block buf : Nat)
  | read (fs block dst : Nat)
  | writeSuperblock (fs : Nat)
  | poke (addr : Nat) (value : Byte)
deriving DecidableEq

/-- `n` bytes at `pos` of the partition were replaced, or found. -/
inductive BlockEvent
  | wrote (fs pos n : Nat) (bytes : Nat → Byte)
  | found (fs pos n : Nat) (bytes : Nat → Byte)
  | failed

structure BlockRun where
  kern : Kern
  events : List BlockEvent

section
variable (E : Env)

def BlockRun.after (s : BlockRun) (r : Option Bool × Kern) (done : Kern → BlockEvent) :
    Option BlockRun :=
  r.1.map fun ok => ⟨r.2, s.events ++ [if ok then done r.2 else .failed]⟩

def BlockRun.step (s : BlockRun) : BlockOp → Option BlockRun
  | .write fs block buf =>
    let n := (s.kern.fsAt fs).layout.blockSize
    s.after (ext2WriteBlocks E fs block buf s.kern) fun _ =>
      .wrote fs (block * n) n fun j => s.kern.ram (buf + j)
  | .read fs block dst =>
    let n := (s.kern.fsAt fs).layout.blockSize
    s.after (ext2ReadBlocks E fs block dst s.kern) fun t =>
      .found fs (block * n) n fun j => t.ram (dst + j)
  | .writeSuperblock fs =>
    s.after (ext2WriteSuperblock E fs s.kern) fun _ =>
      .wrote fs 1024 sizeofSuperblock (s.kern.fsAt fs).sb.bytes
  | .poke addr value =>
    some { s with kern := { s.kern with ram := s.kern.ram.put addr value } }

end

-- ---------------------------------------------------------------------------
-- Byte stores
-- ---------------------------------------------------------------------------

abbrev Volumes := Nat → Mem

def BlockEvent.Plays (v : Volumes) : BlockEvent → Volumes → Prop
  | .wrote fs pos n bytes, w => w = Function.update v fs ((v fs).paste pos bytes 0 n)
  | .found fs pos n bytes, w => w = v ∧ ∀ j < n, bytes j = v fs (pos + j)
  | .failed, w => w = v

inductive Plays : Volumes → List BlockEvent → Volumes → Prop
  | nil : Plays v [] v
  | snoc : Plays v es w → e.Plays w u → Plays v (es ++ [e]) u

-- ---------------------------------------------------------------------------
-- Partitions of one disk
-- ---------------------------------------------------------------------------

def Partition.size (p : Partition) : Nat := p.sb.sBlocksCount * p.layout.blockSize

/-- The partitions lie apart on the disk, with room for a superblock, and no call is in
one of them. -/
structure Partitioned (l : Nat) (parts : List Nat) (s : Kern) : Prop where
  sized : ∀ fs ∈ parts, Sized l (s.fsAt fs)
  free : ∀ fs ∈ parts, (s.fsAt fs).lock = false
  fits : ∀ fs ∈ parts, (s.fsAt fs).lbaStart * l + (s.fsAt fs).size ≤ 2 ^ 64 * l
  superblock : ∀ fs ∈ parts, 1024 + sizeofSuperblock ≤ (s.fsAt fs).size
  apart : ∀ fs ∈ parts, ∀ g ∈ parts, fs ≠ g →
    Apart ((s.fsAt fs).lbaStart * l) (s.fsAt fs).size ((s.fsAt g).lbaStart * l) (s.fsAt g).size

def Holds (l : Nat) (parts : List Nat) (s : Kern) (v : Volumes) : Prop :=
  ∀ fs ∈ parts, ∀ off < (s.fsAt fs).size, byteAt l s.sectors (s.fsAt fs).lbaStart off = v fs off

/-- Only the marks that a superblock is to be written back may differ. -/
def SamePartitions (s t : Kern) : Prop :=
  ∀ fs, ∃ b, t.fsAt fs = { s.fsAt fs with sbDirty := b }

/-- The call is for one of the partitions, and its buffer is not the partition's. -/
def BlockOp.Proper (l : Nat) (parts : List Nat) (s : Kern) : BlockOp → Prop
  | .write fs _ buf => fs ∈ parts ∧ Apart buf (s.fsAt fs).layout.blockSize (s.fsAt fs).ioBuf l
  | .read fs _ dst => fs ∈ parts ∧ Apart dst (s.fsAt fs).layout.blockSize (s.fsAt fs).ioBuf l
  | .writeSuperblock fs => fs ∈ parts
  | .poke _ _ => True

def BlockOp.Allowed (s : Kern) : BlockOp → Prop
  | .write fs block _ => (s.fsAt fs).layout.readOnly = false ∧ block < (s.fsAt fs).sb.sBlocksCount
  | .read fs block _ => block < (s.fsAt fs).sb.sBlocksCount
  | .writeSuperblock fs => (s.fsAt fs).layout.readOnly = false
  | .poke _ _ => True

theorem SamePartitions.refl (s : Kern) : SamePartitions s s := fun _ => ⟨_, rfl⟩

theorem SamePartitions.of_eq (h : t.fsAt = s.fsAt) : SamePartitions s t :=
  fun fs => ⟨(s.fsAt fs).sbDirty, by rw [h]⟩

theorem SamePartitions.trans (h : SamePartitions s t) (h' : SamePartitions t u) :
    SamePartitions s u := by
  intro fs
  obtain ⟨b, hb⟩ := h fs
  obtain ⟨b', hb'⟩ := h' fs
  exact ⟨b', by rw [hb', hb]⟩

section
variable {E : Env} {s t : Kern} {parts : List Nat} {v : Volumes} {l fs : Nat}

theorem SamePartitions.lbaStart (h : SamePartitions s t) (fs : Nat) :
    (t.fsAt fs).lbaStart = (s.fsAt fs).lbaStart := by
  obtain ⟨b, hb⟩ := h fs
  rw [hb]

theorem SamePartitions.layout (h : SamePartitions s t) (fs : Nat) :
    (t.fsAt fs).layout = (s.fsAt fs).layout := by
  obtain ⟨b, hb⟩ := h fs
  rw [hb]

theorem SamePartitions.sb (h : SamePartitions s t) (fs : Nat) :
    (t.fsAt fs).sb = (s.fsAt fs).sb := by
  obtain ⟨b, hb⟩ := h fs
  rw [hb]

theorem SamePartitions.ioBuf (h : SamePartitions s t) (fs : Nat) :
    (t.fsAt fs).ioBuf = (s.fsAt fs).ioBuf := by
  obtain ⟨b, hb⟩ := h fs
  rw [hb]

theorem SamePartitions.lock (h : SamePartitions s t) (fs : Nat) :
    (t.fsAt fs).lock = (s.fsAt fs).lock := by
  obtain ⟨b, hb⟩ := h fs
  rw [hb]

theorem SamePartitions.size (h : SamePartitions s t) (fs : Nat) :
    (t.fsAt fs).size = (s.fsAt fs).size := by
  rw [Partition.size, Partition.size, h.sb, h.layout]

theorem SamePartitions.partitioned (h : SamePartitions s t) (hp : Partitioned l parts s) :
    Partitioned l parts t := by
  refine ⟨fun fs hfs => ?_, fun fs hfs => ?_, fun fs hfs => ?_, fun fs hfs => ?_,
    fun fs hfs g hg hne => ?_⟩
  · obtain ⟨hw, hb, hs⟩ := hp.sized fs hfs
    rw [← h.layout fs] at hw hb
    exact ⟨hw, hb, hs⟩
  · rw [h.lock]
    exact hp.free fs hfs
  · rw [h.lbaStart, h.size]
    exact hp.fits fs hfs
  · rw [h.size]
    exact hp.superblock fs hfs
  · rw [h.lbaStart, h.size, h.lbaStart, h.size]
    exact hp.apart fs hfs g hg hne

theorem Holds.wrote (h : Holds l parts s v) (hp : Partitioned l parts s) (hfs : fs ∈ parts)
    (hsame : SamePartitions s t) (hin : pos + n ≤ (s.fsAt fs).size)
    (hpatch : Patched l s.sectors t.sectors (s.fsAt fs).lbaStart pos n bytes) :
    Holds l parts t (Function.update v fs ((v fs).paste pos bytes 0 n)) := by
  intro g hg off hoff
  rw [hsame.size] at hoff
  rw [hsame.lbaStart]
  have hold := h g hg off hoff
  have hfits := hp.fits g hg
  by_cases hgf : g = fs
  · subst hgf
    rw [hpatch.byte off (by omega), Function.update_self, Mem.paste]
    simp only [Nat.zero_add, hold]
  · rw [Function.update_of_ne hgf, ← hold]
    have hend := hp.fits fs hfs
    refine hpatch.elsewhere (by omega) (by omega) fun hw => ?_
    have hinside : Within ((s.fsAt fs).lbaStart * l) (s.fsAt fs).size
        ((s.fsAt g).lbaStart * l + off) := by
      unfold Within at *
      omega
    refine (hp.apart fs hfs g hg fun he => hgf he.symm).not_within ?_ hinside
    unfold Within
    omega

theorem Holds.same (h : Holds l parts s v) (hsame : SamePartitions s t)
    (hsectors : t.sectors = s.sectors) : Holds l parts t v := by
  intro g hg off hoff
  rw [hsame.size] at hoff
  rw [hsame.lbaStart, hsectors]
  exact h g hg off hoff

-- ---------------------------------------------------------------------------
-- One call
-- ---------------------------------------------------------------------------

theorem block_in_size {p : Partition} (hb : b < p.sb.sBlocksCount) :
    b * p.layout.blockSize + p.layout.blockSize ≤ p.size := by
  rw [Partition.size, ← Nat.succ_mul]
  exact Nat.mul_le_mul_right _ hb

theorem readBlocks_leaves (b dst : Nat) (h : Sized E.lbaSize (s.fsAt fs))
    (hfree : (s.fsAt fs).lock = false) :
    Triple (ext2ReadBlocks E fs b dst) s
      (fun ok t => t.sectors = s.sectors ∧ t.fsAt = s.fsAt ∧
        (ok = true ↔ b < (s.fsAt fs).sb.sBlocksCount ∧ E.readOk s.transfers.length = true))
      fun _ => False := by
  rcases Nat.lt_or_ge b (s.fsAt fs).sb.sBlocksCount with hb | hb
  · rcases Nat.lt_or_ge (s.fsAt fs).layout.blockSize E.lbaSize with hlt | hle
    · refine Triple.step rfl ?_
      rw [if_neg (Nat.not_le.mpr hb)]
      simp only [h.range hlt hb, if_neg (Nat.not_le.mpr hlt)]
      have hback : ∀ t : Kern, t.fsAt = (s.putFs fs ((s.fsAt fs).setLock true)).fsAt →
          (t.putFs fs ((t.fsAt fs).setLock false)).fsAt = s.fsAt := fun t ht => by
        rw [Kern.unlocked hfree ht]
      refine locked_triple hfree (Triple.step rfl ?_)
      have hread : (s.putFs fs ((s.fsAt fs).setLock true)).transfers.length = s.transfers.length := rfl
      rw [hread]
      cases E.readOk s.transfers.length with
      | false =>
        exact Triple.step rfl (Triple.pure ⟨rfl, hback _ rfl, by simp⟩)
      | true =>
        exact Triple.step rfl (Triple.pure ⟨rfl, hback _ rfl, by simp [hb]⟩)
    · refine Triple.of_run (readBlocks_eq (h.sectored hle) hb dst) ⟨rfl, rfl, ?_⟩
      exact ⟨fun hok => ⟨hb, hok⟩, fun hok => hok.2⟩
  · refine Triple.of_run (readBlocks_out hb dst) ⟨rfl, rfl, ?_⟩
    exact ⟨fun hf => absurd hf Bool.false_ne_true, fun hok => absurd hok.1 (Nat.not_lt.mpr hb)⟩

theorem writeSuperblock_others (h : SuperblockRange E.lbaSize) (hfree : (s.fsAt fs).lock = false) :
    Triple (ext2WriteSuperblock E fs) s (fun _ t => SamePartitions s t) fun _ => False := by
  refine Triple.step rfl ?_
  split
  · exact Triple.pure (.refl s)
  have hrun := rewrite_triple (s.fsAt fs).ioBuf (s.fsAt fs).lbaStart (fun _ => (s.fsAt fs).sb.bytes)
    hfree h.sector h.few h.room fun _ _ j _ => congrArg (s.fsAt fs).sb.bytes (Nat.zero_add j)
  refine Triple.bind hrun ?_
  rintro ok t ⟨hw, -⟩
  have hsame : SamePartitions s t := .of_eq hw.fields
  cases ok with
  | false => exact Triple.pure hsame
  | true =>
    refine Triple.step rfl (Triple.pure (hsame.trans fun g => ?_))
    by_cases hg : g = fs
    · subst hg
      exact ⟨false, Kern.putFs_fs ..⟩
    · exact ⟨(t.fsAt g).sbDirty, Function.update_of_ne hg ..⟩

-- ---------------------------------------------------------------------------
-- Runs
-- ---------------------------------------------------------------------------

/-- What holds all along a run from `s`, where the partitions hold `v₀`. Calls fail only
unless `P`. -/
structure Tracks (l : Nat) (parts : List Nat) (s : Kern) (v₀ : Volumes) (P : Prop) (r : BlockRun) :
    Prop where
  same : SamePartitions s r.kern
  played : ∃ v, Plays v₀ r.events v ∧ Holds l parts r.kern v
  failed : P → ∀ e ∈ r.events, e ≠ .failed

variable {v₀ : Volumes} {P : Prop} {r : BlockRun}

theorem Tracks.next (h : Tracks l parts s v₀ P r) (hsame : SamePartitions r.kern t)
    (e : BlockEvent) (hplays : ∀ v, Holds l parts r.kern v → ∃ w, e.Plays v w ∧ Holds l parts t w)
    (hfailed : P → e ≠ .failed) : Tracks l parts s v₀ P ⟨t, r.events ++ [e]⟩ := by
  obtain ⟨v, hv, hholds⟩ := h.played
  obtain ⟨w, hw, hholds'⟩ := hplays v hholds
  refine ⟨h.same.trans hsame, ⟨w, hv.snoc hw, hholds'⟩, fun hP e' he' => ?_⟩
  rcases List.mem_append.mp he' with he' | he'
  · exact h.failed hP e' he'
  · rw [List.mem_singleton.mp he']
    exact hfailed hP

theorem Tracks.refused (h : Tracks l parts s v₀ P r) (hsame : SamePartitions r.kern t)
    (hsectors : t.sectors = r.kern.sectors) (hno : ¬P) :
    Tracks l parts s v₀ P ⟨t, r.events ++ [.failed]⟩ :=
  h.next hsame .failed (fun v hv => ⟨v, rfl, hv.same hsame hsectors⟩) fun hP => absurd hP hno

theorem BlockRun.after_eq (r : BlockRun) (hrun : c = (some ok, t)) (done : Kern → BlockEvent) :
    r.after c done = some ⟨t, r.events ++ [if ok then done t else .failed]⟩ := by
  rw [hrun]
  rfl

theorem BlockOp.Proper.same {op : BlockOp} (h : op.Proper l parts s) (hsame : SamePartitions s t) :
    op.Proper l parts t := by
  cases op with
  | write fs block buf =>
    rw [Proper, hsame.layout, hsame.ioBuf]
    exact h
  | read fs block dst =>
    rw [Proper, hsame.layout, hsame.ioBuf]
    exact h
  | writeSuperblock fs => exact h
  | poke addr value => trivial

theorem BlockOp.Allowed.same {op : BlockOp} (h : op.Allowed s) (hsame : SamePartitions s t) :
    op.Allowed t := by
  cases op with
  | write fs block buf =>
    rw [Allowed, hsame.layout, hsame.sb]
    exact h
  | read fs block dst =>
    rw [Allowed, hsame.sb]
    exact h
  | writeSuperblock fs =>
    rw [Allowed, hsame.layout]
    exact h
  | poke addr value => trivial

theorem Tracks.write (h : Tracks E.lbaSize parts s v₀ P r) (hp : Partitioned E.lbaSize parts r.kern)
    (hproper : (BlockOp.write fs b buf).Proper E.lbaSize parts r.kern)
    (hok : P → (∀ n, E.readOk n = true ∧ E.writeOk n = true) ∧
      (BlockOp.write fs b buf).Allowed r.kern) :
    ∃ r', r.step E (.write fs b buf) = some r' ∧ Tracks E.lbaSize parts s v₀ P r' := by
  obtain ⟨hfs, hapart⟩ := hproper
  obtain ⟨ok, t, hrun, hw, hiff⟩ :=
    (writeBlocks_triple (b := b) (hp.sized fs hfs) (hp.free fs hfs) hapart).returns
  have hsame : SamePartitions r.kern t := .of_eq hw.fields
  dsimp only [BlockRun.step]
  rw [r.after_eq hrun]
  refine ⟨_, rfl, ?_⟩
  cases ok with
  | false =>
    refine h.refused hsame (hw.failed rfl) fun hP => ?_
    obtain ⟨hE, hro, hb⟩ := hok hP
    exact Bool.false_ne_true (hiff.mpr ⟨hro, hb, .inr (hE _).1, (hE _).2⟩)
  | true =>
    refine h.next hsame _ (fun v hv => ⟨_, rfl, ?_⟩) fun _ => nofun
    exact hv.wrote hp hfs hsame (block_in_size (hiff.mp rfl).2.1) (hw.done rfl)

theorem Tracks.read (h : Tracks E.lbaSize parts s v₀ P r) (hp : Partitioned E.lbaSize parts r.kern)
    (hfs : fs ∈ parts)
    (hok : P → (∀ n, E.readOk n = true ∧ E.writeOk n = true) ∧
      (BlockOp.read fs b dst).Allowed r.kern) :
    ∃ r', r.step E (.read fs b dst) = some r' ∧ Tracks E.lbaSize parts s v₀ P r' := by
  have hsized := hp.sized fs hfs
  obtain ⟨ok, t, hrun, ⟨hsectors, hfields, hiff⟩, hbytes⟩ :=
    (((readBlocks_leaves b dst hsized (hp.free fs hfs)).and
      (readBlocks_bytes hsized)).mono (fun _ _ hq => hq) fun _ hf => hf.1).returns
  have hsame : SamePartitions r.kern t := .of_eq hfields
  dsimp only [BlockRun.step]
  rw [r.after_eq hrun]
  refine ⟨_, rfl, ?_⟩
  cases ok with
  | false =>
    refine h.refused hsame hsectors fun hP => ?_
    obtain ⟨hE, hb⟩ := hok hP
    exact Bool.false_ne_true (hiff.mpr ⟨hb, (hE _).1⟩)
  | true =>
    refine h.next hsame _ (fun v hv => ⟨v, ⟨rfl, fun j hj => ?_⟩, hv.same hsame hsectors⟩) fun _ => nofun
    have hin := block_in_size (hiff.mp rfl).1
    exact (hbytes rfl j hj).trans (hv fs hfs _ (by omega))

theorem Tracks.writeSuperblock (h : Tracks E.lbaSize parts s v₀ P r)
    (hp : Partitioned E.lbaSize parts r.kern) (hrange : SuperblockRange E.lbaSize) (hfs : fs ∈ parts)
    (hok : P → (∀ n, E.readOk n = true ∧ E.writeOk n = true) ∧
      (BlockOp.writeSuperblock fs).Allowed r.kern) :
    ∃ r', r.step E (.writeSuperblock fs) = some r' ∧ Tracks E.lbaSize parts s v₀ P r' := by
  have hfree := hp.free fs hfs
  obtain ⟨ok, t, hrun, ⟨-, hfailed, hdone, hiff⟩, hsame⟩ :=
    (((writeSuperblock_triple hrange hfree).and (writeSuperblock_others hrange hfree)).mono
      (fun _ _ hq => hq) fun _ hf => hf.1).returns
  dsimp only [BlockRun.step]
  rw [r.after_eq hrun]
  refine ⟨_, rfl, ?_⟩
  cases ok with
  | false =>
    refine h.refused hsame (hfailed rfl) fun hP => ?_
    obtain ⟨hE, hro⟩ := hok hP
    exact Bool.false_ne_true (hiff.mpr ⟨hro, (hE _).1, (hE _).2⟩)
  | true =>
    refine h.next hsame _ (fun v hv => ⟨_, rfl, ?_⟩) fun _ => nofun
    exact hv.wrote hp hfs hsame (hp.superblock fs hfs) (hdone rfl)

theorem Tracks.step (h : Tracks E.lbaSize parts s v₀ P r) (hp : Partitioned E.lbaSize parts s)
    (hrange : SuperblockRange E.lbaSize) (op : BlockOp) (hproper : op.Proper E.lbaSize parts s)
    (hok : P → (∀ n, E.readOk n = true ∧ E.writeOk n = true) ∧ op.Allowed s) :
    ∃ r', r.step E op = some r' ∧ Tracks E.lbaSize parts s v₀ P r' := by
  have hpr := h.same.partitioned hp
  have hproper := hproper.same h.same
  have hok : P → (∀ n, E.readOk n = true ∧ E.writeOk n = true) ∧ op.Allowed r.kern :=
    fun hP => ⟨(hok hP).1, (hok hP).2.same h.same⟩
  cases op with
  | write fs b buf => exact h.write hpr hproper hok
  | read fs b dst => exact h.read hpr hproper.1 hok
  | writeSuperblock fs => exact h.writeSuperblock hpr hrange hproper hok
  | poke addr value =>
    refine ⟨_, rfl, h.same, ?_, h.failed⟩
    obtain ⟨v, hv, hholds⟩ := h.played
    exact ⟨v, hv, hholds⟩

def Kern.volumes (s : Kern) (l : Nat) : Volumes := fun fs => byteAt l s.sectors (s.fsAt fs).lbaStart

/-- Any calls on partitions that lie apart: what the disk holds in the end is what the
successful writes make of its bytes, one after the other, and every successful read
finds the bytes as they are then. No call waits for ever, and where the disk fails
none and the blocks are there, none fails. -/
theorem partitions_are_stores
    (hl : E.lbaSize = 512 ∨ E.lbaSize = 1024 ∨ E.lbaSize = 2048 ∨ E.lbaSize = 4096)
    (hp : Partitioned E.lbaSize parts s) (ops : List BlockOp)
    (hops : ∀ op ∈ ops, op.Proper E.lbaSize parts s) :
    ∃ r v, run (BlockRun.step E) ⟨s, []⟩ ops = some r ∧
      Plays (s.volumes E.lbaSize) r.events v ∧ Holds E.lbaSize parts r.kern v ∧
      ((∀ n, E.readOk n = true ∧ E.writeOk n = true) → (∀ op ∈ ops, op.Allowed s) →
        ∀ e ∈ r.events, e ≠ .failed) := by
  let P : Prop := (∀ n, E.readOk n = true ∧ E.writeOk n = true) ∧ ∀ op ∈ ops, op.Allowed s
  have hstart : Tracks E.lbaSize parts s (s.volumes E.lbaSize) P ⟨s, []⟩ :=
    ⟨.refl s, ⟨_, .nil, fun _ _ _ _ => rfl⟩, fun _ e he => absurd he List.not_mem_nil⟩
  obtain ⟨r, hrun, htracks⟩ := run_defined (C := fun _ op => op ∈ ops)
    (Tracks E.lbaSize parts s (s.volumes E.lbaSize) P) (fun r op hr hop =>
      hr.step hp (superblockRange hl) op (hops op hop) fun hP => ⟨hP.1, hP.2 op hop⟩) hstart
    (allSteps_of_mem fun _ _ hop => hop)
  obtain ⟨v, hv, hholds⟩ := htracks.played
  exact ⟨r, v, hrun, hv, hholds, fun hE hall => htracks.failed ⟨hE, hall⟩⟩

/-- On sectors of 1024 bytes, a partition with blocks of half a sector and behind it one
with blocks of two. -/
def twoVolumes : Kern :=
  ((freshKern fun _ => 0).putFs 1 { Partition.zero with
      sb := ⟨diskImage [(4, 4, 16)]⟩
      layout := { Partition.zero.layout with blockSize := 512 }
      ioBuf := 4096 }).putFs 2 { Partition.zero with
      sb := ⟨diskImage [(4, 4, 4)]⟩
      lbaStart := 8
      layout := { Partition.zero.layout with blockSize := 2048 }
      ioBuf := 8192 }

theorem twoVolumes_partitioned : Partitioned 1024 [1, 2] twoVolumes := by
  refine ⟨?_, by decide, by decide, by decide, by decide⟩
  simp only [List.forall_mem_cons, List.not_mem_nil, false_implies, implies_true, and_true]
  exact ⟨⟨.inr (by decide), by decide, by decide⟩, .inl (by decide), by decide, by decide⟩

theorem partitions_are_stores_two :
    ∃ r v, run (BlockRun.step wideSectors) ⟨twoVolumes, []⟩ [.poke 12288 77, .write 1 15 12288,
        .write 2 0 12288, .writeSuperblock 2, .read 1 15 16384] = some r ∧
      Plays (twoVolumes.volumes 1024) r.events v ∧ Holds 1024 [1, 2] r.kern v ∧
      ∀ e ∈ r.events, e ≠ .failed := by
  obtain ⟨r, v, hrun, hplays, hholds, hfailed⟩ := partitions_are_stores (E := wideSectors)
    (.inr (.inl rfl)) twoVolumes_partitioned
    [.poke 12288 77, .write 1 15 12288, .write 2 0 12288, .writeSuperblock 2, .read 1 15 16384] (by
      simp only [List.forall_mem_cons, List.not_mem_nil, false_implies, implies_true, and_true]
      exact ⟨trivial, ⟨by decide, by decide⟩, ⟨by decide, by decide⟩,
        show 2 ∈ [1, 2] by decide, by decide, by decide⟩)
  refine ⟨r, v, hrun, hplays, hholds, hfailed (fun _ => ⟨rfl, rfl⟩) ?_⟩
  simp only [List.forall_mem_cons, List.not_mem_nil, false_implies, implies_true, and_true]
  exact ⟨trivial, ⟨rfl, by decide⟩, ⟨rfl, by decide⟩, rfl, show 15 < 16 by decide⟩

end

end TomatoOs.Fs.Ext2
