import TomatoOs.Fs.Catalog

/-!
# Names, inodes and counters

What the file system's bookkeeping is worth along a run of calls. Inodes and
their counters are exact. Names are unique only as long as the callers see to
it, since `create_file` looks for no entry of the same name and
`create_directory` only reports one. The total size is exact only until a file
with contents is deleted, since `delete_file` resets the inode first. And no
limit but the number of inodes makes `create_file` fail.
-/

namespace TomatoOs.Fs

open Lib

def Vfs.InodesFull (s : Vfs) : Prop := ∀ i < maxFiles, (s.inodes i).mode ≠ 0

def Vfs.BlocksFull (s : Vfs) : Prop := ∀ b < maxDatablocks, s.blocks b ≠ []

instance (s : Vfs) : Decidable s.InodesFull :=
  inferInstanceAs (Decidable (∀ i < maxFiles, (s.inodes i).mode ≠ 0))

instance (s : Vfs) : Decidable s.BlocksFull :=
  inferInstanceAs (Decidable (∀ b < maxDatablocks, s.blocks b ≠ []))

section
variable {s s' : Vfs} {ino : Inode}

theorem freeInode_none : s.freeInode = none ↔ s.InodesFull := by
  simp [Vfs.freeInode, firstSlot_none, Vfs.InodesFull]

theorem freeBlock_none : s.freeBlock = none ↔ s.BlocksFull := by
  simp [Vfs.freeBlock, firstSlot_none, Vfs.BlocksFull]

-- ---------------------------------------------------------------------------
-- Names
-- ---------------------------------------------------------------------------

def Vfs.names (s : Vfs) : List Str := s.files.map File.name

def Vfs.Distinct (s : Vfs) : Prop :=
  s.names.Nodup ∧ ∀ name, (deleteFile s name).2 = 0 →
    name ∉ (deleteFile s name).1.names ∧ readFile (deleteFile s name).1 name = none

/-- The name is new, as far as it is stored, or the call fails anyway. -/
def Vfs.keepsDistinct (s : Vfs) : VfsOp → Prop
  | .createFile name _ _ => s.InodesFull ∨ name.take (maxFilename - 1) ∉ s.names
  | .createDirectory name dir files _ =>
    maxFilename < name.length ∨ dir = false ∨ files = false ∨
      name.take (maxFilename - 1) ∉ s.names
  | .deleteFile _ => True

instance (s : Vfs) : (op : VfsOp) → Decidable (s.keepsDistinct op)
  | .createFile name _ _ =>
    inferInstanceAs (Decidable (s.InodesFull ∨ name.take (maxFilename - 1) ∉ s.names))
  | .createDirectory name dir files _ =>
    inferInstanceAs (Decidable (maxFilename < name.length ∨ dir = false ∨ files = false ∨
      name.take (maxFilename - 1) ∉ s.names))
  | .deleteFile _ => inferInstanceAs (Decidable True)

theorem nodup_snoc {l : List Str} : (l ++ [a]).Nodup ↔ l.Nodup ∧ a ∉ l := by
  rw [List.nodup_append]
  constructor
  · rintro ⟨hl, -, hne⟩
    exact ⟨hl, fun ha => hne a ha a (List.mem_singleton_self a) rfl⟩
  · rintro ⟨hl, ha⟩
    refine ⟨hl, List.nodup_singleton a, fun b hb c hc h => ha ?_⟩
    rw [← List.mem_singleton.mp hc, ← h]
    exact hb

theorem readFile_none (h : name ∉ s.names) : readFile s name = none := by
  have hfind : s.find name = none := by
    refine findSplit_none.mpr fun f hf => decide_eq_false fun hn => h ?_
    exact hn ▸ List.mem_map_of_mem hf
  rw [readFile, hfind]

theorem names_drop (hs : s.Sound) (hfind : s.find name = some (before, f, behind)) :
    (s.dropFile before f behind).names = before.map File.name ++ behind.map File.name ∧
      s.names = before.map File.name ++ name :: behind.map File.name := by
  obtain ⟨hsplit, hname, -⟩ := findSplit_some hfind
  have hf : f ∈ s.files := by simp [hsplit]
  rw [Vfs.names, dropFile_eq hs hf, Vfs.names, hsplit, List.map_append, List.map_append,
    List.map_cons, of_decide_eq_true hname]
  exact ⟨rfl, rfl⟩

theorem distinct_iff (hs : s.Sound) : s.Distinct ↔ s.names.Nodup := by
  refine ⟨And.left, fun hnd => ⟨hnd, fun name hr => ?_⟩⟩
  have hgone : name ∉ (deleteFile s name).1.names := by
    rw [deleteFile] at hr ⊢
    cases hfind : s.find name with
    | none => simp [hfind] at hr
    | some p =>
      obtain ⟨hdrop, hnames⟩ := names_drop hs hfind
      rw [hnames] at hnd
      rw [hdrop]
      exact (List.nodup_middle.mp hnd).notMem
  exact ⟨hgone, readFile_none hgone⟩

theorem step_distinct (hs : s.Sound) (hd : s.Distinct) (h : s.step op = some s') :
    s'.Distinct ↔ s.keepsDistinct op := by
  rw [distinct_iff (step_sound hs h)]
  have hnd := (distinct_iff hs).mp hd
  cases step_change hs h with
  | keep hno =>
    refine ⟨fun _ => ?_, fun _ => hnd⟩
    cases op with
    | createFile name data grown => exact .inl (freeInode_none.mp hno)
    | createDirectory name dir files grown =>
      rcases hno with hlen | hdir | hfiles
      · exact .inl hlen
      · exact .inr (.inl hdir)
      · exact .inr (.inr (.inl hfiles))
    | deleteFile name => trivial
  | @file i b name data grown hi hb =>
    have hnot : ¬s.InodesFull := by
      rw [← freeInode_none, hi]
      exact Option.some_ne_none i
    have hnames : (s.addFile name data i b).names = s.names ++ [name.take (maxFilename - 1)] :=
      List.map_append
    rw [hnames, nodup_snoc]
    exact ⟨fun h => .inr h.2, fun h => ⟨hnd, h.resolve_left hnot⟩⟩
  | @directory i name grown hi hlen =>
    have hnames : (s.addDirectory name i).names = s.names ++ [name.take (maxFilename - 1)] :=
      List.map_append
    rw [hnames, nodup_snoc]
    constructor
    · exact fun h => .inr (.inr (.inr h.2))
    · rintro (h | h | h | h)
      · exact absurd hlen (Nat.not_le.mpr h)
      · cases h
      · cases h
      · exact ⟨hnd, h⟩
  | drop hfind =>
    obtain ⟨hdrop, hnames⟩ := names_drop hs hfind
    rw [hnames] at hnd
    rw [hdrop]
    exact ⟨fun _ => trivial, fun _ => (List.nodup_middle.mp hnd).of_cons⟩

/-- The names stay distinct exactly as long as no call creates an entry under a
name that, cut to what fits, is there already. -/
theorem names_distinct_iff (hr : run Vfs.step initVfs ops = some s) :
    Always Vfs.step Vfs.Distinct initVfs ops ↔ AllSteps Vfs.step Vfs.keepsDistinct initVfs ops :=
  always_iff Vfs.Sound (fun _ _ _ => step_sound) (fun _ _ _ => step_distinct) init_sound
    ((distinct_iff init_sound).mpr List.nodup_nil) hr

theorem names_distinct_iff_three :
    let a : Str := [⟨97, by decide⟩]
    let b : Str := [⟨98, by decide⟩]
    let ops := [.createFile a b true, .createDirectory b true true true, .deleteFile a,
      .createDirectory a true true true]
    ∃ s, run Vfs.step initVfs ops = some s ∧ s.names = [b, a] ∧
      Always Vfs.step Vfs.Distinct initVfs ops := by
  intro a b ops
  have hrun : (run Vfs.step initVfs ops).map Vfs.names = some [b, a] := by decide +kernel
  obtain ⟨s, hr, hnames⟩ := Option.map_eq_some_iff.mp hrun
  exact ⟨s, hr, hnames, (names_distinct_iff hr).mpr (by decide +kernel)⟩

/-- A name created twice survives its deletion. -/
theorem name_twice :
    let a : Str := [⟨97, by decide⟩]
    ∃ s, run Vfs.step initVfs [.createFile a [] true, .createFile a a true] = some s ∧
      s.names = [a, a] ∧ (deleteFile s a).2 = 0 ∧ (deleteFile s a).1.names = [a] ∧
      (readFile (deleteFile s a).1 a).isSome ∧ ¬s.Distinct := by
  intro a
  have hrun : (run Vfs.step initVfs [.createFile a [] true, .createFile a a true]).map
      (fun s => (s.names, (deleteFile s a).2, (deleteFile s a).1.names,
        (readFile (deleteFile s a).1 a).isSome)) = some ([a, a], 0, [a], true) := by
    decide +kernel
  obtain ⟨s, hr, heq⟩ := Option.map_eq_some_iff.mp hrun
  simp only [Prod.mk.injEq] at heq
  obtain ⟨hnames, hret, hleft, hread⟩ := heq
  refine ⟨s, hr, hnames, hret, hleft, hread, fun hd => ?_⟩
  have hnd := hd.1
  rw [hnames] at hnd
  exact absurd hnd (by decide)

-- ---------------------------------------------------------------------------
-- Inodes and blocks in use
-- ---------------------------------------------------------------------------

def Vfs.regular (s : Vfs) : Nat :=
  s.files.countP fun f => (s.inodes f.inodeNumber).mode = 0o644

structure Vfs.Accounted (s : Vfs) : Prop where
  bound : ∀ f ∈ s.files, f.inodeNumber < maxFiles
  nodup : (s.files.map File.inodeNumber).Nodup
  modes : ∀ i < maxFiles, (s.inodes i).mode = 0 ↔ ∀ f ∈ s.files, f.inodeNumber ≠ i
  total : s.totalFiles = s.files.length
  inodes : (s.inodeCount : Int) = maxFiles - s.files.length
  blocks : (s.freeBlocks : Int) = (maxDatablocks - s.regular) % 2 ^ 32
  room : s.files.length < s.capacity

def Vfs.roomy (s : Vfs) : VfsOp → Prop
  | .createFile _ _ _ => ¬s.InodesFull ∧ ¬s.BlocksFull
  | .createDirectory _ _ _ _ => ¬s.InodesFull ∧ ¬s.BlocksFull
  | .deleteFile _ => True

instance (s : Vfs) : (op : VfsOp) → Decidable (s.roomy op)
  | .createFile _ _ _ => inferInstanceAs (Decidable (¬s.InodesFull ∧ ¬s.BlocksFull))
  | .createDirectory _ _ _ _ => inferInstanceAs (Decidable (¬s.InodesFull ∧ ¬s.BlocksFull))
  | .deleteFile _ => inferInstanceAs (Decidable True)

structure Vfs.Counted (s : Vfs) : Prop where
  total : s.totalFiles = s.files.length
  inodes : (s.inodeCount : Int) = maxFiles - s.files.length
  blocks : (s.freeBlocks : Int) = (maxDatablocks - s.regular) % 2 ^ 32

def Catalog.fileCount (c : Catalog) : Nat := c.entries.countP fun e => e.block.isSome

theorem regular_catalog (hs : s.Sound) : s.regular = s.catalog.fileCount := by
  rw [Vfs.regular, Catalog.fileCount, Vfs.catalog, List.countP_map]
  refine List.countP_congr fun f hf => ?_
  rcases hs.used f hf with ⟨b, -, hm, -, hbl⟩ | ⟨hm, -, -⟩
  · simp [Vfs.entry, Inode.entry, hm, hbl]
  · simp [Vfs.entry, Inode.entry, hm]

theorem Vfs.Counted.up (hc : s.Counted) (hs' : s'.Sound)
    (hfiles : s'.files.length = s.files.length + 1) (htotal : s'.totalFiles = s.totalFiles + 1)
    (hinodes : s'.inodeCount = wsub 32 s.inodeCount 1)
    (hblocks : s'.freeBlocks = s.freeBlocks ∧ s'.regular = s.regular ∨
      s'.freeBlocks = wsub 32 s.freeBlocks 1 ∧ s'.regular = s.regular + 1) : s'.Counted := by
  have hlen := hs'.length_le
  obtain ⟨ht, hi, hb⟩ := hc
  simp only [wsub, maxFiles, maxDatablocks] at *
  refine ⟨by omega, ?_, ?_⟩
  · simp only [maxFiles]
    omega
  · simp only [maxDatablocks]
    omega

theorem Vfs.Counted.down (hc : s.Counted) (hfiles : s.files.length = s'.files.length + 1)
    (htotal : s'.totalFiles = s.totalFiles - 1) (hinodes : s'.inodeCount = wadd 32 s.inodeCount 1)
    (hblocks : s'.freeBlocks = s.freeBlocks ∧ s'.regular = s.regular ∨
      s'.freeBlocks = wadd 32 s.freeBlocks 1 ∧ s.regular = s'.regular + 1) : s'.Counted := by
  obtain ⟨ht, hi, hb⟩ := hc
  simp only [wadd, maxFiles, maxDatablocks] at *
  refine ⟨by omega, ?_, ?_⟩
  · simp only [maxFiles]
    omega
  · simp only [maxDatablocks]
    omega

theorem step_counted (hs : s.Sound) (hc : s.Counted) (h : s.step op = some s') : s'.Counted := by
  have hs' := step_sound hs h
  have hreg := regular_catalog hs
  have hreg' := regular_catalog hs'
  cases step_change hs h with
  | keep _ => exact hc
  | @file i b name data grown hi hb =>
    rw [(addFile_refines hs hi hb name data).2] at hreg'
    refine hc.up hs' List.length_append rfl rfl (.inr ⟨rfl, ?_⟩)
    rw [hreg', hreg]
    simp [Catalog.fileCount, Catalog.addFile]
  | @directory i name grown hi hlen' =>
    rw [(addDirectory_refines hs hi name).2] at hreg'
    refine hc.up hs' List.length_append rfl rfl (.inl ⟨rfl, ?_⟩)
    rw [hreg', hreg]
    simp [Catalog.fileCount, Catalog.addDirectory]
  | @drop name before f behind hfind =>
    obtain ⟨hsplit, -, -⟩ := findSplit_some hfind
    have hf : f ∈ s.files := by simp [hsplit]
    rw [(dropFile_refines hs hsplit).2] at hreg'
    have hcount : s.regular = (s.dropFile before f behind).regular +
        if (s.entry f).block.isSome then 1 else 0 := by
      rw [hreg', hreg]
      simp only [Catalog.fileCount, Vfs.catalog, hsplit, List.map_append, List.map_cons,
        List.countP_append, List.countP_cons]
      omega
    rw [dropFile_eq hs hf] at hcount ⊢
    refine hc.down ?_ rfl rfl ?_
    · rw [hsplit]
      simp only [List.length_append, List.length_cons]
      omega
    · cases hblock : (s.entry f).block.isSome with
      | false =>
        simp only [hblock] at hcount
        exact .inl ⟨rfl, hcount.symm⟩
      | true =>
        simp only [hblock] at hcount
        exact .inr ⟨rfl, hcount⟩

theorem init_counted : initVfs.Counted := ⟨rfl, rfl, rfl⟩

theorem Vfs.Sound.accounted (hs : s.Sound) (hc : s.Counted) : s.Accounted where
  bound := hs.bound
  nodup := hs.nodup
  modes := by
    intro i hi
    constructor
    · rintro hm f hf rfl
      exact (hs.used f hf).mode_ne hm
    · intro hno
      rw [hs.unused i hi hno]
      rfl
  total := hc.total
  inodes := hc.inodes
  blocks := hc.blocks
  room := by
    have hlen := hs.length_le
    rw [hs.capacity]
    simp only [maxFiles, initialCapacity] at hlen ⊢
    omega

/-- With a free inode and a free block, no call does anything undefined. -/
theorem step_defined (hs : s.Sound) (hr : s.roomy op) : ∃ s', s.step op = some s' := by
  cases op with
  | createFile name data grown =>
    obtain ⟨i, hi⟩ := Option.ne_none_iff_exists'.mp (mt freeInode_none.mp hr.1)
    obtain ⟨b, hb⟩ := Option.ne_none_iff_exists'.mp (mt freeBlock_none.mp hr.2)
    simp only [Vfs.step, Vfs.call, createFile, hs.reserve_eq, Option.bind_some, hi, hb]
    exact ⟨_, rfl⟩
  | createDirectory name dir files grown =>
    obtain ⟨i, hi⟩ := Option.ne_none_iff_exists'.mp (mt freeInode_none.mp hr.1)
    simp only [Vfs.step, Vfs.call, createDirectory, hi, hs.reserve_eq, Option.bind_some]
    split_ifs <;> exact ⟨_, rfl⟩
  | deleteFile name => exact ⟨_, rfl⟩

/-- Entries and inodes in use correspond, and the counters count them. -/
theorem vfs_accounted (hd : AllSteps Vfs.step Vfs.roomy initVfs ops) :
    ∃ s, run Vfs.step initVfs ops = some s ∧ s.Accounted := by
  have hstep : ∀ (s : Vfs) op, s.Sound ∧ s.Counted → s.roomy op →
      ∃ s', s.step op = some s' ∧ s'.Sound ∧ s'.Counted := by
    rintro s op ⟨hs, hc⟩ hroom
    obtain ⟨s', h⟩ := step_defined hs hroom
    exact ⟨s', h, step_sound hs h, step_counted hs hc h⟩
  obtain ⟨s, hr, hs, hc⟩ :=
    run_defined (fun s => s.Sound ∧ s.Counted) hstep ⟨init_sound, init_counted⟩ hd
  exact ⟨s, hr, hs.accounted hc⟩

theorem vfs_accounted_four :
    let a : Str := [⟨97, by decide⟩]
    let b : Str := [⟨98, by decide⟩]
    let ops := [.createFile a b true, .createDirectory b true true true, .deleteFile a,
      .createFile a [] true]
    AllSteps Vfs.step Vfs.roomy initVfs ops ∧
      ∃ s, run Vfs.step initVfs ops = some s ∧ s.Accounted := by
  intro a b ops
  have hd : AllSteps Vfs.step Vfs.roomy initVfs ops := by decide +kernel
  exact ⟨hd, vfs_accounted hd⟩

-- ---------------------------------------------------------------------------
-- The total size
-- ---------------------------------------------------------------------------

def Vfs.sizes (s : Vfs) : Nat := (s.files.map fun f => (s.inodes f.inodeNumber).size).sum

def Vfs.Balanced (s : Vfs) : Prop := s.totalSize = s.sizes

def VfsOp.dataLength : VfsOp → Nat
  | .createFile _ data _ => data.length
  | _ => 0

def Vfs.sized (s : Vfs) (op : VfsOp) : Prop := s.roomy op ∧ op.dataLength < vfsBlockSize

instance (s : Vfs) (op : VfsOp) : Decidable (s.sized op) :=
  inferInstanceAs (Decidable (s.roomy op ∧ op.dataLength < vfsBlockSize))

/-- What is deleted is empty. -/
def Vfs.keepsBalance (s : Vfs) : VfsOp → Prop
  | .deleteFile name => ∀ r ∈ s.find name, (s.inodes r.2.1.inodeNumber).size = 0
  | _ => True

instance (s : Vfs) : (op : VfsOp) → Decidable (s.keepsBalance op)
  | .createFile _ _ _ => inferInstanceAs (Decidable True)
  | .createDirectory _ _ _ _ => inferInstanceAs (Decidable True)
  | .deleteFile name =>
    inferInstanceAs (Decidable (∀ r ∈ s.find name, (s.inodes r.2.1.inodeNumber).size = 0))

theorem sizes_catalog : s.sizes = (s.catalog.entries.map Entry.size).sum := by
  simp only [Vfs.sizes, Vfs.catalog, List.map_map]
  rfl

theorem Inode.Used.size_lt (h : ino.Used) : ino.size < 2 ^ 32 := by
  rcases h with ⟨b, -, -, hsize, -⟩ | ⟨-, hsize, -⟩
  · exact hsize
  · rw [hsize]
    decide

theorem Vfs.Sound.sizes_lt (hs : s.Sound) : s.sizes < 2 ^ 63 := by
  have hle : s.sizes ≤ (s.files.map fun f => (s.inodes f.inodeNumber).size).length • 2 ^ 32 := by
    refine List.sum_le_card_nsmul _ _ fun x hx => ?_
    obtain ⟨f, hf, rfl⟩ := List.mem_map.mp hx
    exact Nat.le_of_lt (hs.used f hf).size_lt
  have hlen := hs.length_le
  simp only [List.length_map, smul_eq_mul, maxFiles] at hle hlen
  omega

theorem step_balanced (hs : s.Sound) (hd : s.sized op) (hb : s.Balanced)
    (h : s.step op = some s') : s'.Balanced ↔ s.keepsBalance op := by
  have hlt := hs.sizes_lt
  have hsizes := sizes_catalog (s := s)
  have hsizes' := sizes_catalog (s := s')
  rw [Vfs.Balanced] at hb ⊢
  cases step_change hs h with
  | keep hno =>
    refine ⟨fun _ => ?_, fun _ => hb⟩
    cases op with
    | createFile name data grown => trivial
    | createDirectory name dir files grown => trivial
    | deleteFile name =>
      intro r hr
      rw [Vfs.Refuses, Option.mem_def.mp hr] at hno
      cases hno
  | @file i b name data grown hi hfb =>
    have hlen : data.length < vfsBlockSize := hd.2
    have hgrow : (s.addFile name data i b).sizes = s.sizes + data.length := by
      rw [hsizes', hsizes, (addFile_refines hs hi hfb name data).2]
      simp only [vfsBlockSize] at hlen
      simp [Catalog.addFile]
      omega
    refine ⟨fun _ => trivial, fun _ => ?_⟩
    rw [hgrow, ← hb]
    refine wadd_eq ?_
    simp only [vfsBlockSize] at hlen
    omega
  | @directory i name grown hi _ =>
    refine ⟨fun _ => trivial, fun _ => ?_⟩
    have hsame : (s.addDirectory name i).sizes = s.sizes := by
      rw [hsizes', hsizes, (addDirectory_refines hs hi name).2]
      simp [Catalog.addDirectory]
    rw [hsame, ← hb]
    rfl
  | @drop name before f behind hfind =>
    obtain ⟨hsplit, -, -⟩ := findSplit_some hfind
    have hf : f ∈ s.files := by simp [hsplit]
    have hshrink : s.sizes =
        (s.dropFile before f behind).sizes + (s.inodes f.inodeNumber).size := by
      rw [hsizes', hsizes, (dropFile_refines hs hsplit).2]
      simp only [Vfs.catalog, hsplit, List.map_append, List.map_cons, List.sum_append,
        List.sum_cons, Vfs.entry, Inode.entry]
      omega
    have htotal : (s.dropFile before f behind).totalSize = s.totalSize := by
      rw [dropFile_eq hs hf]
      exact wsub_eq (Nat.zero_le _) (by omega)
    rw [htotal]
    constructor
    · intro heq r hr
      rw [hfind, Option.mem_some_iff] at hr
      subst hr
      simp only
      omega
    · intro hzero
      have := hzero _ hfind
      simp only at this
      omega

/-- The total is the sum of the sizes exactly as long as only empty files and
directories are deleted. -/
theorem sizes_balanced_iff (hd : AllSteps Vfs.step Vfs.sized initVfs ops) :
    Always Vfs.step Vfs.Balanced initVfs ops ↔
      AllSteps Vfs.step Vfs.keepsBalance initVfs ops := by
  have hstep : ∀ (s : Vfs) op, s.Sound → s.sized op → ∃ s', s.step op = some s' ∧ s'.Sound := by
    intro s op hs hsized
    obtain ⟨s', h⟩ := step_defined hs hsized.1
    exact ⟨s', h, step_sound hs h⟩
  obtain ⟨s, hr, -⟩ := run_defined Vfs.Sound hstep init_sound hd
  exact always_iff_within Vfs.Sound Vfs.sized (fun _ _ _ hs _ => step_sound hs)
    (fun _ _ _ => step_balanced) init_sound rfl hd hr

theorem sizes_balanced_iff_three :
    let a : Str := [⟨97, by decide⟩]
    let b : Str := [⟨98, by decide⟩]
    let ops := [.createFile a [] true, .createFile b a true, .createDirectory a true true true,
      .deleteFile a]
    AllSteps Vfs.step Vfs.sized initVfs ops ∧ Always Vfs.step Vfs.Balanced initVfs ops := by
  intro a b ops
  have hd : AllSteps Vfs.step Vfs.sized initVfs ops := by decide +kernel
  exact ⟨hd, (sizes_balanced_iff hd).mpr (by decide +kernel)⟩

/-- Deleting a file of one byte leaves a total of one byte in no file. -/
theorem size_left_behind :
    let a : Str := [⟨97, by decide⟩]
    ∃ s, run Vfs.step initVfs [.createFile a a true, .deleteFile a] = some s ∧
      s.files = [] ∧ s.totalSize = 1 ∧ ¬s.Balanced := by
  intro a
  have hrun : (run Vfs.step initVfs [.createFile a a true, .deleteFile a]).map
      (fun s => (s.files, s.totalSize, s.sizes)) = some ([], 1, 0) := by decide +kernel
  obtain ⟨s, hr, heq⟩ := Option.map_eq_some_iff.mp hrun
  simp only [Prod.mk.injEq] at heq
  obtain ⟨hfiles, htotal, hsizes⟩ := heq
  refine ⟨s, hr, hfiles, htotal, fun hb => ?_⟩
  rw [Vfs.Balanced, htotal, hsizes] at hb
  cases hb

-- ---------------------------------------------------------------------------
-- Creating beyond a limit
-- ---------------------------------------------------------------------------

/-- Beyond a limit, `create_file` is refused exactly if no inode is free, and
`create_directory` exactly if its name is two bytes too long or `kmalloc` fails. -/
theorem creation_refused_iff (hr : run Vfs.step initVfs ops = some s) (name data : Str)
    (dir files grown : Bool) :
    ((s.InodesFull ∨ s.BlocksFull ∨ maxFilename ≤ name.length ∨ vfsBlockSize ≤ data.length) →
        (createFile s name data grown = some (s, -1) ↔ s.InodesFull)) ∧
      ((s.InodesFull ∨ maxFilename ≤ name.length) →
        (createDirectory s name dir files grown = some (s, -1) ↔
          maxFilename < name.length ∨ dir = false ∨ files = false)) := by
  have hs := run_invariant Vfs.Sound (fun _ _ _ => step_sound) init_sound hr
  refine ⟨fun _ => ⟨fun h => ?_, fun h => ?_⟩, fun _ => ⟨fun h => ?_, fun h => ?_⟩⟩
  · rcases createFile_cases hs h with ⟨hno, -, -⟩ | ⟨i, b, -, -, -, hret⟩
    · exact freeInode_none.mp hno
    · cases hret
  · rw [createFile, hs.reserve_eq, Option.bind_some, freeInode_none.mpr h]
  · rcases createDirectory_cases hs h with ⟨hno, -, -⟩ | ⟨i, -, -, -, -, -, hret⟩
    · exact hno
    · cases hret
  · rw [createDirectory]
    rcases h with hlen | rfl | rfl
    · rw [if_pos hlen]
    · split_ifs <;> first | rfl | contradiction
    · split_ifs <;> first | rfl | contradiction

/-- With a hundred empty files there is no inode left. -/
theorem creation_refused_iff_full :
    let a : Str := [⟨97, by decide⟩]
    ∃ s, run Vfs.step initVfs (List.replicate 100 (.createFile a [] true)) = some s ∧
      s.InodesFull ∧ createFile s a a true = some (s, -1) ∧
      createDirectory s a false true true = some (s, -1) := by
  intro a
  have hrun : (run Vfs.step initVfs (List.replicate 100 (.createFile a [] true))).map
      (fun s => decide s.InodesFull) = some true := by decide +kernel
  obtain ⟨s, hr, hfull⟩ := Option.map_eq_some_iff.mp hrun
  have hfull := of_decide_eq_true hfull
  obtain ⟨hfile, -⟩ := creation_refused_iff hr a a true true true
  obtain ⟨-, hdirectory⟩ := creation_refused_iff hr a a false true true
  exact ⟨s, hr, hfull, (hfile (.inl hfull)).mpr hfull, (hdirectory (.inl hfull)).mpr (.inr (.inl rfl))⟩

/-- A name of `MAX_FILENAME` bytes is taken, and cut, by both calls. -/
theorem long_name_taken :
    let name : Str := List.replicate 256 ⟨97, by decide⟩
    maxFilename ≤ name.length ∧
      (createFile initVfs name [] true).map (fun r => (r.1.names, r.2)) =
        some ([name.take 255], 0) ∧
      (createDirectory initVfs name true true true).map (fun r => (r.1.names, r.2)) =
        some ([name.take 255], 0) := by
  decide +kernel

end

end TomatoOs.Fs
