import TomatoOs.Fs.VfsAccounts

/-!
# Reading back what was written

A file created under a new name should read back as written until a later call
names it. It does not always: a block with no data looks free, so that the next
file may get the block of an empty one, and deleting either wipes the other.
`reads_kept_iff` says exactly when the promises hold.
-/

namespace TomatoOs.Fs

open Lib

/-- The file system with what it owes its users: names, and what reading them
should give. -/
structure Reader where
  vfs : Vfs
  owed : List (Str × Str)

def VfsOp.name : VfsOp → Str
  | .createFile name _ _ => name
  | .createDirectory name _ _ _ => name
  | .deleteFile name => name

/-- What a call that returned `r` adds: a file whose name was absent. -/
def VfsOp.promises (op : VfsOp) (s : Vfs) (r : Int) : List (Str × Str) :=
  match op with
  | .createFile name data _ => if r = 0 ∧ name ∉ s.names then [(name, data)] else []
  | _ => []

def Reader.step (s : Reader) (op : VfsOp) : Option Reader :=
  (s.vfs.call op).map fun r =>
    { vfs := r.1, owed := op.promises s.vfs r.2 ++ s.owed.filter fun p => p.1 ≠ op.name }

def Reader.start : Reader := { vfs := initVfs, owed := [] }

def Reader.Kept (s : Reader) : Prop := ∀ p ∈ s.owed, readFile s.vfs p.1 = some p.2

/-- Names and data that fit, and never more than 50 files or 100 entries. -/
def Reader.allows (s : Reader) : VfsOp → Prop
  | .createFile name data _ =>
    name.length < maxFilename ∧ data.length < vfsBlockSize ∧
      (s.vfs.files.length < maxFiles → s.vfs.regular < maxDatablocks)
  | .createDirectory name dir files _ =>
    name.length < maxFilename ∧ (s.vfs.files.length < maxFiles ∨ dir = false ∨ files = false)
  | .deleteFile name => name.length < maxFilename

def Catalog.Holds (c : Catalog) (name : Str) (b : Nat) : Prop :=
  ∃ e ∈ c.entries, e.name = name ∧ e.block = some b

/-- New contents go to a block of no other promised file, and a block is wiped
only if no other promised file has contents there. -/
def Reader.keepsRead (s : Reader) : VfsOp → Prop
  | .createFile name data _ =>
    data = [] ∨ s.vfs.InodesFull ∨ ∀ b ∈ s.vfs.freeBlock, ∀ p ∈ s.owed, p.1 ≠ name →
      ¬s.vfs.catalog.Holds p.1 b
  | .createDirectory _ _ _ _ => True
  | .deleteFile name =>
    ∀ r ∈ s.vfs.catalog.find name, ∀ b ∈ r.2.1.block, ∀ p ∈ s.owed, p.1 ≠ name → p.2 ≠ [] →
      ¬s.vfs.catalog.Holds p.1 b

instance (s : Reader) : (op : VfsOp) → Decidable (s.allows op)
  | .createFile name data _ =>
    inferInstanceAs (Decidable (name.length < maxFilename ∧ data.length < vfsBlockSize ∧
      (s.vfs.files.length < maxFiles → s.vfs.regular < maxDatablocks)))
  | .createDirectory name dir files _ =>
    inferInstanceAs (Decidable (name.length < maxFilename ∧
      (s.vfs.files.length < maxFiles ∨ dir = false ∨ files = false)))
  | .deleteFile name => inferInstanceAs (Decidable (name.length < maxFilename))

instance (c : Catalog) (name : Str) (b : Nat) : Decidable (c.Holds name b) :=
  inferInstanceAs (Decidable (∃ e ∈ c.entries, e.name = name ∧ e.block = some b))

instance (s : Reader) : (op : VfsOp) → Decidable (s.keepsRead op)
  | .createFile name data _ =>
    inferInstanceAs (Decidable (data = [] ∨ s.vfs.InodesFull ∨ ∀ b ∈ s.vfs.freeBlock,
      ∀ p ∈ s.owed, p.1 ≠ name → ¬s.vfs.catalog.Holds p.1 b))
  | .createDirectory _ _ _ _ => inferInstanceAs (Decidable True)
  | .deleteFile name =>
    inferInstanceAs (Decidable (∀ r ∈ s.vfs.catalog.find name, ∀ b ∈ r.2.1.block,
      ∀ p ∈ s.owed, p.1 ≠ name → p.2 ≠ [] → ¬s.vfs.catalog.Holds p.1 b))

-- ---------------------------------------------------------------------------
-- Entries with a name of their own
-- ---------------------------------------------------------------------------

def Catalog.Only (c : Catalog) (name : Str) (b : Nat) : Prop :=
  ∃ e, c.entries.filter (fun e => e.name = name) = [e] ∧ e.block = some b

section
variable {c : Catalog} {s s' : Reader}

theorem Catalog.Only.read (h : c.Only name b) : c.read name = some (c.blocks b) := by
  obtain ⟨e, he, hb⟩ := h
  rw [Catalog.read]
  cases hfind : c.find name with
  | none =>
    have hnone := findSplit_none.mp hfind e (List.mem_of_mem_filter (he ▸ List.mem_singleton_self e))
    have hname := List.of_mem_filter (he ▸ List.mem_singleton_self e)
    rw [hnone] at hname
    cases hname
  | some r =>
    have hfirst := filter_findSplit hfind
    rw [he, List.cons.injEq] at hfirst
    rw [Option.bind_some, ← hfirst.1, hb, Option.map_some]

theorem Catalog.Only.holds_iff (h : c.Only name b) : c.Holds name b' ↔ b' = b := by
  obtain ⟨e, he, hb⟩ := h
  have hmem : ∀ e', e' ∈ c.entries ∧ e'.name = name ↔ e' = e := by
    intro e'
    have hiff : e' ∈ c.entries.filter (fun e => e.name = name) ↔ e' = e := by
      rw [he, List.mem_singleton]
    rw [← hiff, List.mem_filter, decide_eq_true_iff]
  constructor
  · rintro ⟨e', he', hn, hb'⟩
    rw [(hmem e').mp ⟨he', hn⟩, hb, Option.some.injEq] at hb'
    exact hb'.symm
  · rintro rfl
    obtain ⟨hin, hn⟩ := (hmem e).mpr rfl
    exact ⟨e, hin, hn, hb⟩

theorem Catalog.Only.append (h : c.Only name b) (hne : e.name ≠ name)
    (hc : c'.entries = c.entries ++ [e]) : Catalog.Only c' name b := by
  obtain ⟨e', he', hb⟩ := h
  refine ⟨e', ?_, hb⟩
  rw [hc, List.filter_append, he', List.filter_cons_of_neg (by simpa using hne)]
  rfl

theorem Catalog.Only.remove (h : c.Only name b) (hne : e.name ≠ name)
    (hc : c.entries = before ++ e :: behind) (hc' : c'.entries = before ++ behind) :
    Catalog.Only c' name b := by
  obtain ⟨e', he', hb⟩ := h
  refine ⟨e', ?_, hb⟩
  rw [hc, List.filter_append, List.filter_cons_of_neg (by simpa using hne),
    ← List.filter_append] at he'
  rw [hc']
  exact he'

-- ---------------------------------------------------------------------------
-- Room
-- ---------------------------------------------------------------------------

theorem Vfs.Sound.freeInode_iff {v : Vfs} (hs : v.Sound) :
    v.freeInode = none ↔ ¬v.files.length < maxFiles := by
  constructor
  · intro hnone hlt
    obtain ⟨i, hi⟩ : ∃ i, v.freeInode = some i := by
      refine exists_firstSlot (v.files.map File.inodeNumber) (fun i hi hmode => ?_) (by simpa)
      by_contra hno
      have hfree := hs.unused i hi fun f hf h => hno (h ▸ List.mem_map_of_mem hf)
      rw [hfree] at hmode
      cases hmode
    rw [hi] at hnone
    cases hnone
  · intro hfull
    cases hi : v.freeInode with
    | none => rfl
    | some i =>
      have hlen := (addDirectory_refines hs hi []).1.length_le
      simp only [Vfs.addDirectory, List.length_append, List.length_singleton] at hlen
      omega

theorem Vfs.Sound.freeBlock_some {v : Vfs} (hs : v.Sound) (h : v.regular < maxDatablocks) :
    ∃ b, v.freeBlock = some b := by
  rw [regular_catalog hs, Catalog.fileCount] at h
  refine exists_firstSlot (v.catalog.entries.filterMap Entry.block) (fun b hb hne => ?_) ?_
  · obtain ⟨e, he, heb⟩ := hs.held b hb (of_decide_eq_false hne)
    exact List.mem_filterMap.mpr ⟨e, he, heb⟩
  · rwa [List.length_filterMap_eq_countP]

-- ---------------------------------------------------------------------------
-- One call
-- ---------------------------------------------------------------------------

structure Reader.Sound (s : Reader) : Prop where
  vfs : s.vfs.Sound
  only : ∀ p ∈ s.owed, ∃ b, s.vfs.catalog.Only p.1 b

theorem Reader.allows_name (h : s.allows op) : op.name.take (maxFilename - 1) = op.name := by
  have hlen : op.name.length < maxFilename := by
    cases op with
    | createFile name data grown => exact h.1
    | createDirectory name dir files grown => exact h.1
    | deleteFile name => exact h
  exact List.take_of_length_le (by omega)

theorem Vfs.Change.only {v v' : Vfs} (hs : v.Sound) (h : v.Change op v')
    (hname : op.name.take (maxFilename - 1) = op.name) (hne : name ≠ op.name)
    (ho : v.catalog.Only name b) : v'.catalog.Only name b := by
  cases h with
  | keep _ => exact ho
  | file hi hb =>
    rw [(addFile_refines hs hi hb _ _).2]
    exact ho.append (fun h => hne (h.symm.trans hname)) rfl
  | directory hi _ =>
    rw [(addDirectory_refines hs hi _).2]
    exact ho.append (fun h => hne (h.symm.trans hname)) rfl
  | @drop n before f behind hfind =>
    obtain ⟨hsplit, hn, -⟩ := findSplit_some hfind
    have hcat : v.catalog.entries = before.map v.entry ++ v.entry f :: behind.map v.entry := by
      simp [Vfs.catalog, hsplit]
    rw [(dropFile_refines hs hsplit).2]
    exact ho.remove (fun h => hne (h.symm.trans (of_decide_eq_true hn))) hcat rfl

theorem addFile_only {v : Vfs} (hs : v.Sound) (hi : v.freeInode = some i)
    (hb : v.freeBlock = some b) (hname : name.take (maxFilename - 1) = name)
    (hnew : name ∉ v.names) : (v.addFile name data i b).catalog.Only name b := by
  refine ⟨⟨name, data.length % 2 ^ 32, some b⟩, ?_, rfl⟩
  have hnone : v.catalog.entries.filter (fun e => e.name = name) = [] := by
    refine List.filter_eq_nil_iff.mpr fun e he hn => hnew ?_
    obtain ⟨f, hf, rfl⟩ := List.mem_map.mp he
    exact (of_decide_eq_true hn) ▸ List.mem_map_of_mem hf
  rw [(addFile_refines hs hi hb name data).2, Catalog.addFile, List.filter_append, hnone, hname]
  simp

theorem addFile_read {v : Vfs} (hs : v.Sound) (hi : v.freeInode = some i)
    (hb : v.freeBlock = some b) (hname : name.take (maxFilename - 1) = name)
    (hdata : data.take vfsBlockSize = data) (hnew : name ∉ v.names) :
    readFile (v.addFile name data i b) name = some data := by
  obtain ⟨hs', hcat⟩ := addFile_refines hs hi hb name data
  rw [readFile_catalog hs', (addFile_only hs hi hb hname hnew).read, hcat]
  simp [Catalog.addFile, hdata]

theorem Reader.step_sound (hs : s.Sound) (ha : s.allows op) (h : s.step op = some s') :
    s'.Sound := by
  obtain ⟨⟨v, r⟩, hc, rfl⟩ := Option.map_eq_some_iff.mp h
  have hstep : s.vfs.step op = some v := by rw [Vfs.step, hc, Option.map_some]
  have hname := allows_name ha
  refine ⟨Fs.step_sound hs.vfs hstep, fun p hp => ?_⟩
  rcases List.mem_append.mp hp with hadd | hkeep
  · cases op with
    | createFile name data grown =>
      simp only [VfsOp.promises] at hadd
      split at hadd
      · rename_i hnew
        rcases createFile_cases hs.vfs hc with ⟨-, -, hret⟩ | ⟨i, b, hi, hb, rfl, -⟩
        · rw [hret] at hnew
          exact absurd hnew.1 (by decide)
        · rw [List.mem_singleton.mp hadd]
          exact ⟨b, addFile_only hs.vfs hi hb hname hnew.2⟩
      · cases hadd
    | createDirectory name dir files grown => cases hadd
    | deleteFile name => cases hadd
  · obtain ⟨hold, hne⟩ := List.mem_filter.mp hkeep
    obtain ⟨b, hb⟩ := hs.only p hold
    exact ⟨b, (step_change hs.vfs hstep).only hs.vfs hname (of_decide_eq_true hne) hb⟩

theorem Reader.step_defined (hs : s.Sound) (ha : s.allows op) : ∃ s', s.step op = some s' := by
  cases op with
  | createFile name data grown =>
    obtain ⟨-, -, hroom⟩ := ha
    simp only [Reader.step, Vfs.call, createFile, hs.vfs.reserve_eq, Option.bind_some]
    cases hi : s.vfs.freeInode with
    | none => exact ⟨_, rfl⟩
    | some i =>
      have hlt : s.vfs.files.length < maxFiles := by
        by_contra hno
        rw [hs.vfs.freeInode_iff.mpr hno] at hi
        cases hi
      obtain ⟨b, hb⟩ := hs.vfs.freeBlock_some (hroom hlt)
      rw [hb]
      exact ⟨_, rfl⟩
  | createDirectory name dir files grown =>
    simp only [Reader.step, Vfs.call, createDirectory, hs.vfs.reserve_eq, Option.bind_some]
    split_ifs with hlen hdir hfiles
    · exact ⟨_, rfl⟩
    · cases hi : s.vfs.freeInode with
      | some i => exact ⟨_, rfl⟩
      | none =>
        rcases ha.2 with h | h | h
        · exact absurd h (hs.vfs.freeInode_iff.mp hi)
        · rw [h] at hdir
          cases hdir
        · rw [h] at hfiles
          cases hfiles
    · exact ⟨_, rfl⟩
    · exact ⟨_, rfl⟩
  | deleteFile name => exact ⟨_, rfl⟩

theorem Reader.kept_others (hs : s.Sound) {v : Vfs} (hv : v.Sound) (hch : s.vfs.Change op v)
    (name : Str) (hop : op.name = name) (hname : name.take (maxFilename - 1) = name) :
    (∀ p ∈ s.owed.filter (fun p => p.1 ≠ name), readFile v p.1 = some p.2) ↔
      ∀ p ∈ s.owed, p.1 ≠ name → ∀ b, s.vfs.catalog.Only p.1 b → v.blocks b = p.2 := by
  have hread : ∀ p ∈ s.owed, p.1 ≠ name → ∀ b, s.vfs.catalog.Only p.1 b →
      (readFile v p.1 = some p.2 ↔ v.blocks b = p.2) := by
    intro p hp hne b hb
    have hb' := hch.only hs.vfs (hop ▸ hname) (hop ▸ hne) hb
    rw [readFile_catalog hv, hb'.read, Option.some.injEq]
    rfl
  constructor
  · intro h p hp hne b hb
    exact (hread p hp hne b hb).mp (h p (List.mem_filter.mpr ⟨hp, decide_eq_true hne⟩))
  · intro h p hp
    obtain ⟨hold, hne⟩ := List.mem_filter.mp hp
    have hne := of_decide_eq_true hne
    obtain ⟨b, hb⟩ := hs.only p hold
    exact (hread p hold hne b hb).mpr (h p hold hne b hb)

theorem Reader.Kept.blocks (hs : s.Sound) (hk : s.Kept) (hp : p ∈ s.owed)
    (hb : s.vfs.catalog.Only p.1 b) : s.vfs.blocks b = p.2 := by
  have hread := hk p hp
  rw [readFile_catalog hs.vfs, hb.read, Option.some.injEq] at hread
  exact hread

/-- A new file overwrites exactly the promised empty files in its block. -/
theorem addFile_kept (hs : s.Sound) (hk : s.Kept) (hi : s.vfs.freeInode = some i)
    (hb : s.vfs.freeBlock = some b) (hname : name.take (maxFilename - 1) = name)
    (hdata : data.take vfsBlockSize = data) :
    (∀ p ∈ s.owed.filter (fun p => p.1 ≠ name),
        readFile (s.vfs.addFile name data i b) p.1 = some p.2) ↔
      data = [] ∨ ∀ p ∈ s.owed, p.1 ≠ name → ¬s.vfs.catalog.Holds p.1 b := by
  have hempty : s.vfs.blocks b = [] := of_decide_eq_true (firstSlot_some.mp hb).2.1
  have hblocks : ∀ c, (s.vfs.addFile name data i b).blocks c =
      if c = b then data else s.vfs.blocks c := by
    intro c
    simp only [Vfs.addFile, hdata, Function.update_apply]
  have hchange : s.vfs.Change (.createFile name data true) (s.vfs.addFile name data i b) :=
    .file hi hb
  rw [Reader.kept_others hs (addFile_refines hs.vfs hi hb name data).1 hchange name rfl hname]
  constructor
  · intro h
    by_contra hno
    push Not at hno
    obtain ⟨hne, p, hp, hpn, hholds⟩ := hno
    obtain ⟨c, hc⟩ := hs.only p hp
    obtain rfl := hc.holds_iff.mp hholds
    have hnew := h p hp hpn b hc
    have hold := hk.blocks hs hp hc
    rw [hblocks, if_pos rfl] at hnew
    exact hne (hnew.trans (hold.symm.trans hempty))
  · intro h p hp hpn c hc
    have hold := hk.blocks hs hp hc
    rw [hblocks]
    split
    · rename_i hcb
      rcases h with hdata | h
      · rw [hdata, ← hold, hcb, hempty]
      · exact absurd (hc.holds_iff.mpr hcb.symm) (h p hp hpn)
    · exact hold

/-- Wiping a block spoils exactly the promised files with contents there. -/
theorem dropFile_kept (hs : s.Sound) (hk : s.Kept)
    (hfind : s.vfs.find name = some (before, f, behind))
    (hname : name.take (maxFilename - 1) = name) :
    (∀ p ∈ s.owed.filter (fun p => p.1 ≠ name),
        readFile (s.vfs.dropFile before f behind) p.1 = some p.2) ↔
      ∀ b ∈ (s.vfs.entry f).block, ∀ p ∈ s.owed, p.1 ≠ name → p.2 ≠ [] →
        ¬s.vfs.catalog.Holds p.1 b := by
  obtain ⟨hsplit, -, -⟩ := findSplit_some hfind
  have hblocks : ∀ c, (s.vfs.dropFile before f behind).blocks c =
      if (s.vfs.entry f).block = some c then [] else s.vfs.blocks c := by
    intro c
    rw [dropFile_eq hs.vfs (by simp [hsplit])]
    cases (s.vfs.entry f).block with
    | none => rfl
    | some d =>
      simp only [Catalog.wipe, Function.update_apply, Option.some.injEq]
      simp only [eq_comm]
  have hchange : s.vfs.Change (.deleteFile name) (s.vfs.dropFile before f behind) := .drop hfind
  rw [Reader.kept_others hs (dropFile_refines hs.vfs hsplit).1 hchange name rfl hname]
  constructor
  · rintro h b hb p hp hpn hne hholds
    obtain ⟨c, hc⟩ := hs.only p hp
    obtain rfl := hc.holds_iff.mp hholds
    have hnew := h p hp hpn b hc
    rw [hblocks, if_pos (Option.mem_def.mp hb)] at hnew
    exact hne hnew.symm
  · intro h p hp hpn c hc
    have hold := hk.blocks hs hp hc
    rw [hblocks]
    split
    · rename_i hown
      by_contra hne
      exact h c hown p hp hpn (Ne.symm hne) (hc.holds_iff.mpr rfl)
    · exact hold

theorem Reader.step_kept (hs : s.Sound) (ha : s.allows op) (hk : s.Kept)
    (h : s.step op = some s') : s'.Kept ↔ s.keepsRead op := by
  obtain ⟨⟨v, r⟩, hc, rfl⟩ := Option.map_eq_some_iff.mp h
  have hname := allows_name ha
  -- the promises that stay are unharmed where the state stays
  have hsame : ∀ p ∈ s.owed.filter (fun p => p.1 ≠ op.name), readFile s.vfs p.1 = some p.2 :=
    fun p hp => hk p (List.mem_of_mem_filter hp)
  cases op with
  | createFile name data grown =>
    rcases createFile_cases hs.vfs hc with ⟨hno, rfl, rfl⟩ | ⟨i, b, hi, hb, rfl, rfl⟩
    · exact ⟨fun _ => .inr (.inl (freeInode_none.mp hno)), fun _ => hsame⟩
    · have hdata : data.take vfsBlockSize = data := List.take_of_length_le (Nat.le_of_lt ha.2.1)
      have hnot : ¬s.vfs.InodesFull := by
        rw [← freeInode_none, hi]
        exact Option.some_ne_none i
      have hnew : ∀ p ∈ (VfsOp.createFile name data grown).promises s.vfs 0,
          readFile (s.vfs.addFile name data i b) p.1 = some p.2 := by
        intro p hp
        simp only [VfsOp.promises, true_and] at hp
        split at hp
        · rename_i hfresh
          rw [List.mem_singleton.mp hp]
          exact addFile_read hs.vfs hi hb hname hdata hfresh
        · cases hp
      have hiff := addFile_kept hs hk hi hb hname hdata
      simp only [Reader.Kept, Reader.keepsRead, List.forall_mem_append, hb, Option.mem_some_iff,
        forall_eq', hnot, false_or]
      exact ⟨fun hall => hiff.mp hall.2, fun hcond => ⟨hnew, hiff.mpr hcond⟩⟩
  | createDirectory name dir files grown =>
    refine ⟨fun _ => trivial, fun _ => ?_⟩
    rcases createDirectory_cases hs.vfs hc with ⟨-, rfl, -⟩ | ⟨i, hi, hlen, -, -, rfl, -⟩
    · exact hsame
    · have hchange : s.vfs.Change (.createDirectory name true true grown)
          (s.vfs.addDirectory name i) := .directory hi hlen
      exact (kept_others hs (addDirectory_refines hs.vfs hi name).1 hchange name rfl hname).mpr
        fun p hp _ b hb => hk.blocks hs hp hb
  | deleteFile name =>
    have hv : (deleteFile s.vfs name).1 = v := congrArg Prod.fst (Option.some.inj hc)
    subst hv
    simp only [Reader.keepsRead, Vfs.find_catalog, deleteFile]
    cases hfind : s.vfs.find name with
    | none => exact ⟨fun _ r hr => absurd hr (by simp), fun _ => hsame⟩
    | some q =>
      simp only [Option.map_some, Option.mem_some_iff, forall_eq']
      exact dropFile_kept hs hk hfind hname

theorem Reader.start_sound : Reader.start.Sound := ⟨init_sound, by simp [Reader.start]⟩

/-- What was promised reads back exactly as long as no contents go to the block
of a promised file, and no promised contents are wiped. -/
theorem reads_kept_iff (hd : AllSteps Reader.step Reader.allows .start ops) :
    Always Reader.step Reader.Kept .start ops ↔
      AllSteps Reader.step Reader.keepsRead .start ops := by
  have hstep : ∀ (s : Reader) op, s.Sound → s.allows op → ∃ s', s.step op = some s' ∧ s'.Sound := by
    intro s op hs ha
    obtain ⟨s', h⟩ := Reader.step_defined hs ha
    exact ⟨s', h, Reader.step_sound hs ha h⟩
  obtain ⟨s, hr, -⟩ := run_defined Reader.Sound hstep Reader.start_sound hd
  exact always_iff_within Reader.Sound Reader.allows (fun _ _ _ => Reader.step_sound)
    (fun _ _ _ => Reader.step_kept) Reader.start_sound (by simp [Reader.Kept, Reader.start]) hd hr

theorem reads_kept_iff_three :
    let a : Str := [⟨97, by decide⟩]
    let b : Str := [⟨98, by decide⟩]
    let ops := [.createFile a b true, .createFile b [] true, .createDirectory (a ++ b) true true true,
      .deleteFile a]
    AllSteps Reader.step Reader.allows .start ops ∧
      (run Reader.step .start ops).map Reader.owed = some [(b, [])] ∧
      Always Reader.step Reader.Kept .start ops := by
  intro a b ops
  have hd : AllSteps Reader.step Reader.allows .start ops := by decide +kernel
  exact ⟨hd, by decide +kernel, (reads_kept_iff hd).mpr (by decide +kernel)⟩

/-- An empty file reads as the next file created. -/
theorem empty_file_overwritten :
    let a : Str := [⟨97, by decide⟩]
    let b : Str := [⟨98, by decide⟩]
    let ops := [.createFile a [] true, .createFile b b true]
    AllSteps Reader.step Reader.allows .start ops ∧
      ∃ s, run Reader.step .start ops = some s ∧ (a, []) ∈ s.owed ∧
        readFile s.vfs a = some b ∧ ¬s.Kept := by
  intro a b ops
  have hd : AllSteps Reader.step Reader.allows .start ops := by decide +kernel
  have hrun : (run Reader.step .start ops).map (fun s => (s.owed, readFile s.vfs a)) =
      some ([(b, b), (a, [])], some b) := by decide +kernel
  obtain ⟨s, hr, heq⟩ := Option.map_eq_some_iff.mp hrun
  obtain ⟨howed, hread⟩ := Prod.mk.inj heq
  have hmem : (a, []) ∈ s.owed := by
    rw [howed]
    decide
  refine ⟨hd, s, hr, hmem, hread, fun hk => ?_⟩
  have := hk _ hmem
  rw [hread] at this
  exact absurd this (by decide)

end

end TomatoOs.Fs
