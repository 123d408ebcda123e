import TomatoOs.Fs.Vfs

/-!
# What the file system keeps

A catalog: the entries in order, each with its size and, unless it is a
directory, the number of its block, and the contents of the blocks. In a sound
state, where every entry has an inode of its own, the calls act on the catalog
alone.
-/

namespace TomatoOs.Fs

open Lib

structure Entry where
  name : Str
  size : Nat
  block : Option Nat
  deriving DecidableEq

@[ext]
structure Catalog where
  entries : List Entry
  blocks : Nat → Str

def Catalog.find (c : Catalog) (name : Str) : Option (List Entry × Entry × List Entry) :=
  findSplit (fun e => e.name = name) c.entries

def Catalog.freeBlock (c : Catalog) : Option Nat :=
  firstSlot (fun b => c.blocks b = []) maxDatablocks

def Catalog.read (c : Catalog) (name : Str) : Option Str :=
  (c.find name).bind fun r => r.2.1.block.map c.blocks

def Catalog.addFile (c : Catalog) (name data : Str) (block : Nat) : Catalog :=
  { entries := c.entries ++ [⟨name.take (maxFilename - 1), data.length % 2 ^ 32, some block⟩],
    blocks := Function.update c.blocks block (data.take vfsBlockSize) }

def Catalog.addDirectory (c : Catalog) (name : Str) : Catalog :=
  { c with entries := c.entries ++ [⟨name.take (maxFilename - 1), 0, none⟩] }

def Catalog.wipe (blocks : Nat → Str) : Option Nat → Nat → Str
  | none => blocks
  | some b => Function.update blocks b []

def Catalog.delete (c : Catalog) (name : Str) : Catalog :=
  match c.find name with
  | none => c
  | some (before, e, behind) => { entries := before ++ behind, blocks := wipe c.blocks e.block }

-- ---------------------------------------------------------------------------
-- The catalog of a state
-- ---------------------------------------------------------------------------

def Inode.entry (ino : Inode) (name : Str) : Entry :=
  { name, size := ino.size, block := if ino.mode = 0o755 then none else ino.blocks.head? }

def Vfs.entry (s : Vfs) (f : File) : Entry := (s.inodes f.inodeNumber).entry f.name

def Vfs.catalog (s : Vfs) : Catalog := { entries := s.files.map s.entry, blocks := s.blocks }

/-- The inode of an entry: of a file with one block, or of a directory. -/
def Inode.Used (ino : Inode) : Prop :=
  (∃ b < maxDatablocks, ino.mode = 0o644 ∧ ino.size < 2 ^ 32 ∧
      ino.blocks = b :: List.replicate 49 noBlock) ∨
    ino.mode = 0o755 ∧ ino.size = 0 ∧ ino.blocks = List.replicate maxBlockNumber noBlock

structure Vfs.Sound (s : Vfs) : Prop where
  capacity : s.capacity = initialCapacity
  bound : ∀ f ∈ s.files, f.inodeNumber < maxFiles
  nodup : (s.files.map File.inodeNumber).Nodup
  used : ∀ f ∈ s.files, (s.inodes f.inodeNumber).Used
  unused : ∀ i < maxFiles, (∀ f ∈ s.files, f.inodeNumber ≠ i) → s.inodes i = .free
  held : ∀ b < maxDatablocks, s.blocks b ≠ [] → ∃ e ∈ s.catalog.entries, e.block = some b

def Vfs.Refuses (s : Vfs) : VfsOp → Prop
  | .createFile _ _ _ => s.freeInode = none
  | .createDirectory name dir files _ => maxFilename < name.length ∨ dir = false ∨ files = false
  | .deleteFile name => s.find name = none

inductive Vfs.Change (s : Vfs) : VfsOp → Vfs → Prop
  | keep : s.Refuses op → s.Change op s
  | file : s.freeInode = some i → s.freeBlock = some b →
      s.Change (.createFile name data grown) (s.addFile name data i b)
  | directory : s.freeInode = some i → name.length ≤ maxFilename →
      s.Change (.createDirectory name true true grown) (s.addDirectory name i)
  | drop : s.find name = some (before, f, behind) →
      s.Change (.deleteFile name) (s.dropFile before f behind)

section
variable {s s' : Vfs} {f : File} {ino : Inode}

theorem init_sound : initVfs.Sound where
  capacity := rfl
  bound := by simp [initVfs]
  nodup := by simp [initVfs]
  used := by simp [initVfs]
  unused := fun _ _ _ => rfl
  held := fun _ _ h => absurd rfl h

theorem Inode.Used.mode_ne (h : ino.Used) : ino.mode ≠ 0 := by
  rcases h with ⟨b, -, hm, -⟩ | ⟨hm, -⟩ <;> rw [hm] <;> decide

theorem Vfs.Sound.length_le (hs : s.Sound) : s.files.length ≤ maxFiles := by
  have hsub : s.files.map File.inodeNumber ⊆ List.range maxFiles := by
    intro i hi
    obtain ⟨f, hf, rfl⟩ := List.mem_map.mp hi
    exact List.mem_range.mpr (hs.bound f hf)
  simpa using hs.nodup.length_le_of_subset hsub

theorem Vfs.Sound.reserve_eq (hs : s.Sound) (grown : Bool) : s.reserve grown = some s := by
  have hlen := hs.length_le
  have hcap := hs.capacity
  rw [Vfs.reserve, if_pos]
  simp only [maxFiles, initialCapacity] at hlen hcap
  omega

theorem Vfs.Sound.fresh (hs : s.Sound) (h : s.freeInode = some i) :
    i < maxFiles ∧ (∀ f ∈ s.files, f.inodeNumber ≠ i) ∧ s.inodes i = .free := by
  obtain ⟨hlt, hmode, -⟩ := firstSlot_some.mp h
  have hfree : ∀ f ∈ s.files, f.inodeNumber ≠ i := by
    rintro f hf rfl
    exact (hs.used f hf).mode_ne (of_decide_eq_true hmode)
  exact ⟨hlt, hfree, hs.unused i hlt hfree⟩

theorem Vfs.entry_update (h : f.inodeNumber ≠ i) :
    (Function.update s.inodes i ino f.inodeNumber).entry f.name = s.entry f := by
  rw [Function.update_of_ne h, Vfs.entry]

-- ---------------------------------------------------------------------------
-- Adding an entry
-- ---------------------------------------------------------------------------

theorem Vfs.catalog_entries_add (hfree : ∀ f ∈ s.files, f.inodeNumber ≠ i)
    (hfiles : s'.files = s.files ++ [⟨name, i⟩])
    (hinodes : s'.inodes = Function.update s.inodes i ino) :
    s'.catalog.entries = s.catalog.entries ++ [ino.entry name] := by
  have hold : s.files.map s'.entry = s.files.map s.entry := by
    refine List.map_congr_left fun f hf => ?_
    rw [Vfs.entry, hinodes, Vfs.entry_update (hfree f hf)]
  simp only [Vfs.catalog, hfiles, List.map_append, hold, List.map_cons, List.map_nil]
  rw [Vfs.entry, hinodes, Function.update_self]

theorem Vfs.Sound.add (hs : s.Sound) (hi : i < maxFiles)
    (hfree : ∀ f ∈ s.files, f.inodeNumber ≠ i) (hu : ino.Used)
    (hfiles : s'.files = s.files ++ [⟨name, i⟩])
    (hinodes : s'.inodes = Function.update s.inodes i ino) (hcap : s'.capacity = s.capacity)
    (hblocks : ∀ b, s'.blocks b = s.blocks b ∨ (ino.entry name).block = some b) : s'.Sound where
  capacity := hcap.trans hs.capacity
  bound := by
    intro f hf
    rw [hfiles, List.mem_append, List.mem_singleton] at hf
    rcases hf with hf | rfl
    · exact hs.bound f hf
    · exact hi
  nodup := by
    rw [hfiles, List.map_append, List.nodup_append]
    refine ⟨hs.nodup, List.nodup_singleton _, ?_⟩
    simpa using hfree
  used := by
    intro f hf
    rw [hfiles, List.mem_append, List.mem_singleton] at hf
    rw [hinodes]
    rcases hf with hf | rfl
    · rw [Function.update_of_ne (hfree f hf)]
      exact hs.used f hf
    · rw [Function.update_self]
      exact hu
  unused := by
    intro j hj hno
    have hne : j ≠ i := fun h => hno ⟨name, i⟩ (by simp [hfiles]) h.symm
    rw [hinodes, Function.update_of_ne hne]
    exact hs.unused j hj fun f hf => hno f (by simp [hfiles, hf])
  held := by
    intro b hb hne
    rw [Vfs.catalog_entries_add hfree hfiles hinodes]
    rcases hblocks b with h | h
    · obtain ⟨e, he, heb⟩ := hs.held b hb (h ▸ hne)
      exact ⟨e, List.mem_append_left _ he, heb⟩
    · exact ⟨ino.entry name, by simp, h⟩

theorem addFile_refines (hs : s.Sound) (hi : s.freeInode = some i) (hb : s.freeBlock = some b)
    (name data : Str) :
    (s.addFile name data i b).Sound ∧
      (s.addFile name data i b).catalog = s.catalog.addFile name data b := by
  obtain ⟨hlt, hfree, hino⟩ := hs.fresh hi
  obtain ⟨hblt, -, -⟩ := firstSlot_some.mp hb
  have hblocks : (s.inodes i).blocks.set 0 b = b :: List.replicate 49 noBlock := by
    rw [hino]
    rfl
  have hsize : data.length % 2 ^ 32 < 2 ^ 32 := Nat.mod_lt _ (by decide)
  refine ⟨hs.add hlt hfree (.inl ⟨b, hblt, rfl, hsize, hblocks⟩) rfl rfl rfl fun c => ?_, ?_⟩
  · by_cases hc : c = b
    · right
      rw [hc, Inode.entry, hblocks]
      rfl
    · exact .inl (Function.update_of_ne hc _ _)
  · refine Catalog.ext ((Vfs.catalog_entries_add hfree rfl rfl).trans ?_) rfl
    rw [Inode.entry, hblocks]
    rfl

theorem addDirectory_refines (hs : s.Sound) (hi : s.freeInode = some i) (name : Str) :
    (s.addDirectory name i).Sound ∧
      (s.addDirectory name i).catalog = s.catalog.addDirectory name := by
  obtain ⟨hlt, hfree, -⟩ := hs.fresh hi
  refine ⟨hs.add hlt hfree (.inr ⟨rfl, rfl, rfl⟩) rfl rfl rfl fun _ => .inl rfl, ?_⟩
  exact Catalog.ext ((Vfs.catalog_entries_add hfree rfl rfl).trans rfl) rfl

-- ---------------------------------------------------------------------------
-- Removing an entry
-- ---------------------------------------------------------------------------

theorem clearBlock_none (n : Nat) : (List.replicate n noBlock).foldl Vfs.clearBlock s = s := by
  induction n with
  | zero => rfl
  | succ n ih =>
    rw [List.replicate_succ, List.foldl_cons, Vfs.clearBlock, if_neg (by simp)]
    exact ih

theorem clearBlocks_eq (hu : ino.Used) (name : Str) :
    ino.blocks.foldl Vfs.clearBlock s =
      { s with
        blocks := Catalog.wipe s.blocks (ino.entry name).block
        freeBlocks := if (ino.entry name).block.isSome then wadd 32 s.freeBlocks 1
          else s.freeBlocks } := by
  rcases hu with ⟨b, hb, hm, -, hbl⟩ | ⟨hm, -, hbl⟩
  · have hne : b ≠ noBlock := by
      simp only [maxDatablocks, noBlock] at hb ⊢
      omega
    rw [hbl, List.foldl_cons, clearBlock_none, Vfs.clearBlock, if_pos hne, Inode.entry, hm, hbl]
    rfl
  · rw [hbl, clearBlock_none, Inode.entry, hm]
    rfl

theorem dropFile_eq (hs : s.Sound) (hf : f ∈ s.files) :
    s.dropFile before f behind =
      { s with
        inodes := Function.update s.inodes f.inodeNumber .free
        blocks := Catalog.wipe s.blocks (s.entry f).block
        files := before ++ behind
        totalFiles := s.totalFiles - 1
        totalSize := wsub 64 s.totalSize 0
        freeBlocks := if (s.entry f).block.isSome then wadd 32 s.freeBlocks 1 else s.freeBlocks
        inodeCount := wadd 32 s.inodeCount 1 } := by
  rw [Vfs.dropFile, clearBlocks_eq (hs.used f hf) f.name]
  simp only [Function.update_self]
  rfl

theorem Vfs.Sound.others (hs : s.Sound) (hsplit : s.files = before ++ f :: behind) :
    ∀ g ∈ before ++ behind, g ∈ s.files ∧ g.inodeNumber ≠ f.inodeNumber := by
  have hnd := hs.nodup
  rw [hsplit, List.map_append, List.map_cons] at hnd
  have hno := (List.nodup_middle.mp hnd).notMem
  intro g hg
  refine ⟨?_, fun h => hno ?_⟩
  · rw [hsplit]
    rcases List.mem_append.mp hg with hg | hg
    · exact List.mem_append_left _ hg
    · exact List.mem_append_right _ (List.mem_cons_of_mem _ hg)
  · rw [← List.map_append, ← h]
    exact List.mem_map_of_mem hg

theorem dropFile_refines (hs : s.Sound) (hsplit : s.files = before ++ f :: behind) :
    (s.dropFile before f behind).Sound ∧ (s.dropFile before f behind).catalog =
      { entries := before.map s.entry ++ behind.map s.entry,
        blocks := Catalog.wipe s.blocks (s.entry f).block } := by
  have hf : f ∈ s.files := by simp [hsplit]
  have hothers := hs.others hsplit
  have hentries : (s.dropFile before f behind).catalog.entries =
      before.map s.entry ++ behind.map s.entry := by
    rw [← List.map_append, Vfs.catalog, dropFile_eq hs hf]
    exact List.map_congr_left fun g hg => Vfs.entry_update (hothers g hg).2
  refine ⟨⟨?_, ?_, ?_, ?_, ?_, ?_⟩, Catalog.ext hentries ?_⟩
  · rw [dropFile_eq hs hf]
    exact hs.capacity
  · rw [dropFile_eq hs hf]
    exact fun g hg => hs.bound g (hothers g hg).1
  · rw [dropFile_eq hs hf]
    have hnd := hs.nodup
    rw [hsplit, List.map_append, List.map_cons] at hnd
    rw [List.map_append]
    exact (List.nodup_middle.mp hnd).of_cons
  · rw [dropFile_eq hs hf]
    intro g hg
    obtain ⟨hmem, hne⟩ := hothers g hg
    simp only [Function.update_of_ne hne]
    exact hs.used g hmem
  · rw [dropFile_eq hs hf]
    intro i hi hno
    by_cases h : i = f.inodeNumber
    · simp only [h, Function.update_self]
    · simp only [Function.update_of_ne h]
      refine hs.unused i hi fun g hg => ?_
      rw [hsplit, List.mem_append, List.mem_cons] at hg
      rcases hg with hg | rfl | hg
      · exact hno g (List.mem_append_left _ hg)
      · exact Ne.symm h
      · exact hno g (List.mem_append_right _ hg)
  · intro b hb hne
    rw [hentries]
    rw [dropFile_eq hs hf] at hne
    -- a block that still has contents was not the entry's own
    have hown : (s.entry f).block ≠ some b := by
      intro h
      simp [h, Catalog.wipe] at hne
    have hsame : s.blocks b ≠ [] := by
      cases hblock : (s.entry f).block with
      | none => simpa [hblock, Catalog.wipe] using hne
      | some c =>
        have hbc : b ≠ c := fun h => hown (h ▸ hblock)
        simpa [hblock, Catalog.wipe, Function.update_of_ne hbc] using hne
    obtain ⟨e, he, heb⟩ := hs.held b hb hsame
    simp only [Vfs.catalog, hsplit, List.map_append, List.map_cons, List.mem_append,
      List.mem_cons] at he
    rcases he with he | rfl | he
    · exact ⟨e, List.mem_append_left _ he, heb⟩
    · exact absurd heb hown
    · exact ⟨e, List.mem_append_right _ he, heb⟩
  · rw [dropFile_eq hs hf]
    rfl

-- ---------------------------------------------------------------------------
-- The calls
-- ---------------------------------------------------------------------------

theorem Vfs.find_catalog (s : Vfs) (name : Str) :
    s.catalog.find name =
      (s.find name).map fun r => (r.1.map s.entry, s.entry r.2.1, r.2.2.map s.entry) :=
  findSplit_map s.entry s.files

theorem createFile_cases (hs : s.Sound) (h : createFile s name data grown = some (s', r)) :
    s.freeInode = none ∧ s' = s ∧ r = -1 ∨
      ∃ i b, s.freeInode = some i ∧ s.freeBlock = some b ∧ s' = s.addFile name data i b ∧ r = 0 := by
  rw [createFile, hs.reserve_eq, Option.bind_some] at h
  split at h
  · rename_i hi
    cases h
    exact .inl ⟨hi, rfl, rfl⟩
  · rename_i i hi
    split at h
    · cases h
    · rename_i b hb
      cases h
      exact .inr ⟨i, b, hi, hb, rfl, rfl⟩

theorem createDirectory_cases (hs : s.Sound)
    (h : createDirectory s name dir files grown = some (s', r)) :
    (maxFilename < name.length ∨ dir = false ∨ files = false) ∧ s' = s ∧ r = -1 ∨
      ∃ i, s.freeInode = some i ∧ name.length ≤ maxFilename ∧ dir = true ∧ files = true ∧
        s' = s.addDirectory name i ∧ r = 0 := by
  rw [createDirectory] at h
  split at h
  · rename_i hlen
    cases h
    exact .inl ⟨.inl hlen, rfl, rfl⟩
  · rename_i hlen
    split at h
    · rename_i hdir
      cases h
      exact .inl ⟨.inr (.inl (by simpa using hdir)), rfl, rfl⟩
    · rename_i hdir
      split at h
      · rename_i hfiles
        cases h
        exact .inl ⟨.inr (.inr (by simpa using hfiles)), rfl, rfl⟩
      · rename_i hfiles
        split at h
        · cases h
        · rename_i i hi
          rw [hs.reserve_eq, Option.bind_some] at h
          cases h
          exact .inr ⟨i, hi, by omega, by simpa using hdir, by simpa using hfiles, rfl, rfl⟩

theorem deleteFile_refines (hs : s.Sound) (name : Str) :
    (deleteFile s name).1.Sound ∧ (deleteFile s name).1.catalog = s.catalog.delete name := by
  rw [deleteFile, Catalog.delete, Vfs.find_catalog]
  cases h : s.find name with
  | none => exact ⟨hs, rfl⟩
  | some r =>
    obtain ⟨hsplit, -, -⟩ := findSplit_some h
    exact dropFile_refines hs hsplit

theorem readFile_catalog (hs : s.Sound) (name : Str) : readFile s name = s.catalog.read name := by
  rw [readFile, Catalog.read, Vfs.find_catalog]
  cases h : s.find name with
  | none => rfl
  | some r =>
    obtain ⟨hsplit, -, -⟩ := findSplit_some h
    have hf : r.2.1 ∈ s.files := by simp [hsplit]
    simp only [Option.map_some, Option.bind_some, Vfs.entry, Inode.entry]
    rcases hs.used _ hf with ⟨b, hb, hm, -, hbl⟩ | ⟨hm, -, -⟩
    · have hne : b ≠ noBlock := by
        simp only [maxDatablocks, noBlock] at hb ⊢
        omega
      simp [hm, hbl, hne, Vfs.catalog]
    · simp [hm]

theorem step_change (hs : s.Sound) (h : s.step op = some s') : s.Change op s' := by
  obtain ⟨⟨t, r⟩, hc, rfl⟩ := Option.map_eq_some_iff.mp h
  cases op with
  | createFile name data grown =>
    rcases createFile_cases hs hc with ⟨hno, rfl, -⟩ | ⟨i, b, hi, hb, rfl, -⟩
    · exact .keep hno
    · exact .file hi hb
  | createDirectory name dir files grown =>
    rcases createDirectory_cases hs hc with ⟨hno, rfl, -⟩ | ⟨i, hi, hlen, rfl, rfl, rfl, -⟩
    · exact .keep hno
    · exact .directory hi hlen
  | deleteFile name =>
    have ht : (deleteFile s name).1 = t := congrArg Prod.fst (Option.some.inj hc)
    rw [← ht, deleteFile]
    cases hfind : s.find name with
    | none => exact .keep hfind
    | some p => exact .drop hfind

/-- Every call that is defined keeps the state sound. -/
theorem step_sound (hs : s.Sound) (h : s.step op = some s') : s'.Sound := by
  cases step_change hs h with
  | keep _ => exact hs
  | file hi hb => exact (addFile_refines hs hi hb _ _).1
  | directory hi _ => exact (addDirectory_refines hs hi _).1
  | drop hfind => exact (dropFile_refines hs (findSplit_some hfind).1).1

end

end TomatoOs.Fs
