import TomatoOs.Fs.Ext2.Mount
import TomatoOs.Lib.Radix

/-!
# The block map is a tree

A file's blocks hang on the fifteen pointers of its inode: twelve of them lead
to blocks, the others to trees of pointer blocks of depth one, two and three.
`ext2_bmap` writes the descent out for each of the four kinds. It is the descent
along the digits of the block number, in base `block_size / 4`.
-/

namespace TomatoOs.Fs.Ext2

open Lib Memory Radix

-- ---------------------------------------------------------------------------
-- The tree
-- ---------------------------------------------------------------------------

/-- The tree of depth `depth` or one of the next `n - 1` that has leaf `off`,
counted over all of them: its slot in the inode, and the way down. -/
def locateTree (k : Nat) : Nat → Nat → Nat → Option (Nat × List Nat)
  | 0, _, _ => none
  | n + 1, depth, off =>
    if off < k ^ depth then some (11 + depth, path k depth off)
    else locateTree k n (depth + 1) (off - k ^ depth)

/-- The pointer of the inode that leads to file block `fb`, and the way from
there, with `k` pointers to a block. -/
def locate (k fb : Nat) : Option (Nat × List Nat) :=
  if fb < 12 then some (fb, []) else locateTree k 3 1 (fb - 12)

def diskPtr (l : Nat) (s : Kern) (p : Partition) (b i : Nat) : Nat :=
  (s.diskByte l p.lbaStart).load (b * p.layout.blockSize + 4 * i) 4

def Readable (E : Env) (p : Partition) (n b : Nat) : Prop :=
  p.sb.sFirstDataBlock ≤ b ∧ b < p.sb.sBlocksCount ∧ E.readOk n = true

instance : Decidable (Readable E p n b) := inferInstanceAs (Decidable (_ ∧ _))

/-- Where a way down from block `b` ends, when `n` reads have been made before.
A zero on the way is a hole. -/
def treePtr (E : Env) (s : Kern) (p : Partition) : Nat → List Nat → Nat → Bool × Nat
  | _, [], b => (true, b)
  | n, i :: way, b =>
    if b = 0 then (true, 0)
    else if Readable E p n b then treePtr E s p (n + 1) way (diskPtr E.lbaSize s p b i)
    else (false, 0)

def bmapTree (E : Env) (s : Kern) (p : Partition) (inode : Mem) (fb : Nat) : Bool × Nat :=
  match locate (p.layout.blockSize / 4) fb with
  | none => (false, 0)
  | some (slot, way) => treePtr E s p s.transfers.length way (iBlock inode slot)

theorem locate_path (hk : 0 < k) (h : locate k fb = some (slot, way)) : ∀ i ∈ way, i < k := by
  have htree : ∀ n depth off, locateTree k n depth off = some (slot, way) → ∀ i ∈ way, i < k := by
    intro n
    induction n with
    | zero => exact fun _ _ h => by cases h
    | succ n ih =>
      intro depth off h
      rw [locateTree] at h
      split at h
      · rename_i hlt
        cases h
        exact path_lt hk hlt
      · exact ih _ _ h
  unfold locate at h
  split at h
  · cases h
    simp
  · exact htree _ _ _ h

theorem locate_none : locate k fb = none ↔ 12 + k + k ^ 2 + k ^ 3 ≤ fb := by
  unfold locate
  simp only [locateTree, Nat.pow_one, Nat.reduceAdd]
  split_ifs <;> simp <;> omega

theorem treePtr_failed (h : (treePtr E s p n way b).1 = false) : (treePtr E s p n way b).2 = 0 := by
  induction way generalizing n b with
  | nil => cases h
  | cons i way ih =>
    rw [treePtr] at h ⊢
    split_ifs at h ⊢ with h0 hr
    · exact ih h
    · rfl

theorem treePtr_congr (h : t.diskByte = s.diskByte) (n : Nat) (way : List Nat) (b : Nat) :
    treePtr E t p n way b = treePtr E s p n way b := by
  induction way generalizing n b with
  | nil => rfl
  | cons i way ih =>
    rw [treePtr, treePtr, ih]
    simp only [diskPtr, h]

-- ---------------------------------------------------------------------------
-- The descent
-- ---------------------------------------------------------------------------

def walkPath (E : Env) (fs : Nat) : List Nat → Bool × Nat → Prog Kern (Bool × Nat)
  | [], r => pure r
  | [i], r => descend r fun b => ext2ReadPtr E fs b i 0
  | i :: way, r => descend r fun b => do walkPath E fs way (← ext2ReadPtr E fs b i b)

section
variable {E : Env} {s : Kern} {fs : Nat}

theorem descend_down (hb : b ≠ 0) (k : Nat → Prog Kern (Bool × Nat)) :
    descend (true, b) k = k b := by
  simp only [descend, Bool.true_eq_false, if_false, if_neg hb]

theorem readPtr_run (h : Sectored E.lbaSize (s.fsAt fs)) (hfree : (s.fsAt fs).lock = false)
    (hidx : idx < (s.fsAt fs).layout.blockSize / 4) (b out : Nat) :
    ∃ n t, ext2ReadPtr E fs b idx out s =
        (some (if Readable E (s.fsAt fs) s.transfers.length b then
          (true, diskPtr E.lbaSize s (s.fsAt fs) b idx) else (false, out)), t) ∧
      Fetches n s t ∧ (Readable E (s.fsAt fs) s.transfers.length b → n = 1) := by
  have hstart : getFs fs s = (some (s.fsAt fs), s) := rfl
  unfold ext2ReadPtr
  rw [Prog.bind_eq hstart]
  by_cases hrange : b < (s.fsAt fs).sb.sFirstDataBlock ∨ b ≥ (s.fsAt fs).sb.sBlocksCount
  · have hbad : ¬Readable E (s.fsAt fs) s.transfers.length b := by
      rintro ⟨hlo, hhi, -⟩
      omega
    rw [if_pos hrange, if_neg hbad]
    exact ⟨0, s, rfl, .refl s, fun hr => absurd hr hbad⟩
  · have hb : b < (s.fsAt fs).sb.sBlocksCount := by omega
    rw [if_neg hrange]
    obtain ⟨ram, t, hrun, hfetch, hram⟩ := locked_fetch h hfree hb
      fun ok ram => (ok, if ok then ram.load ((s.fsAt fs).ioBuf + 4 * idx) 4 else out)
    refine ⟨1, t, hrun.trans ?_, hfetch, fun _ => rfl⟩
    by_cases hok : E.readOk s.transfers.length = true
    · have hload : ram.load ((s.fsAt fs).ioBuf + 4 * idx) 4 =
          diskPtr E.lbaSize s (s.fsAt fs) b idx := by
        refine Mem.load_eq fun i hi => ?_
        rw [Nat.add_assoc, Nat.add_assoc, hram hok _ (by omega)]
      have hr : Readable E (s.fsAt fs) s.transfers.length b := ⟨by omega, hb, hok⟩
      simp only [hr, hok, if_true, hload]
    · have hr : ¬Readable E (s.fsAt fs) s.transfers.length b := fun hr => hok hr.2.2
      have hno := Bool.eq_false_of_not_eq_true hok
      simp only [if_neg hr, hno, Bool.false_eq_true, if_false]

theorem walkPath_run (h : Sectored E.lbaSize (s.fsAt fs)) (hfree : (s.fsAt fs).lock = false)
    (hway : ∀ i ∈ way, i < (s.fsAt fs).layout.blockSize / 4) (b : Nat) :
    (walkPath E fs way (true, b) s).1 =
      some (treePtr E s (s.fsAt fs) s.transfers.length way b) := by
  induction way generalizing s b with
  | nil => rfl
  | cons i way ih =>
    have hi := hway i (List.mem_cons_self ..)
    rw [treePtr]
    by_cases h0 : b = 0
    · subst h0
      cases way <;> rfl
    rw [if_neg h0]
    cases way with
    | nil =>
      obtain ⟨n, t, hrun, -, -⟩ := readPtr_run h hfree hi b 0
      rw [walkPath, descend_down h0, hrun]
      rfl
    | cons j way =>
      obtain ⟨n, t, hrun, hfetch, hone⟩ := readPtr_run h hfree hi b b
      rw [walkPath, descend_down h0, Prog.bind_eq hrun]
      · by_cases hr : Readable E (s.fsAt fs) s.transfers.length b
        · have hfs := hfetch.fsAt
          have hrest := ih (s := t) (by rw [hfs]; exact h) (by rw [hfs]; exact hfree)
            (by rw [hfs]; exact fun i hi => hway i (List.mem_cons_of_mem _ hi))
            (diskPtr E.lbaSize s (s.fsAt fs) b i)
          rw [treePtr_congr hfetch.diskByte, hfetch.count, hone hr, hfs] at hrest
          rw [if_pos hr, if_pos hr]
          exact hrest
        · rw [if_neg hr, if_neg hr]
          cases way <;> rfl
      · exact List.cons_ne_nil j way

theorem readPtr_held (hheld : (s.fsAt fs).lock = true) (b idx out n : Nat) :
    ext2ReadPtr E fs b idx out s = (none, s) ∨
      ext2ReadPtr E fs b idx out s = (some (false, out), s) ∧ ¬Readable E (s.fsAt fs) n b := by
  have hspin : spinlockAquire fs s = (none, s) := if_pos hheld
  unfold ext2ReadPtr
  rw [Prog.bind_eq (show getFs fs s = (some (s.fsAt fs), s) from rfl)]
  split_ifs with hrange
  · refine .inr ⟨rfl, ?_⟩
    rintro ⟨hlo, hhi, -⟩
    omega
  · left
    rw [locked, Prog.bind_stop hspin]

theorem walkPath_held (hheld : (s.fsAt fs).lock = true) (n b : Nat)
    (h : (walkPath E fs way (true, b) s).1 = some r) : r = treePtr E s (s.fsAt fs) n way b := by
  cases way with
  | nil =>
    cases h
    rfl
  | cons i way =>
    rw [treePtr]
    by_cases h0 : b = 0
    · subst h0
      cases way <;> exact (Option.some.inj h).symm
    rw [if_neg h0]
    cases way with
    | nil =>
      rw [walkPath, descend_down h0] at h
      rcases readPtr_held (E := E) hheld b i 0 n with hrun | ⟨hrun, hr⟩
      · rw [hrun] at h
        cases h
      · rw [hrun] at h
        cases h
        rw [if_neg hr]
    | cons j way =>
      rw [walkPath, descend_down h0] at h
      · rcases readPtr_held (E := E) hheld b i b n with hrun | ⟨hrun, hr⟩
        · rw [Prog.bind_stop hrun] at h
          cases h
        · rw [Prog.bind_eq hrun] at h
          rw [if_neg hr]
          cases way <;> exact (Option.some.inj h).symm
      · exact List.cons_ne_nil j way

theorem ppb_pow (hk : k < 2 ^ 20) : wmul 64 k k = k ^ 2 ∧ wmul 64 (k ^ 2) k = k ^ 3 := by
  have hk2 : k ^ 2 < 2 ^ 40 := calc
    k ^ 2 < (2 ^ 20) ^ 2 := Nat.pow_lt_pow_left hk (by decide)
    _ = 2 ^ 40 := by decide
  have hk3 : k ^ 3 < 2 ^ 60 := calc
    k ^ 3 < (2 ^ 20) ^ 3 := Nat.pow_lt_pow_left hk (by decide)
    _ = 2 ^ 60 := by decide
  rw [Nat.pow_succ k 2, Nat.pow_two] at *
  exact ⟨wmul_eq (by omega), wmul_eq (by omega)⟩

/-- The four descents of the source are one. -/
theorem bmap_walk (hpos : 0 < (s.fsAt fs).layout.blockSize / 4)
    (hk : (s.fsAt fs).layout.blockSize / 4 < 2 ^ 20)
    (h : locate ((s.fsAt fs).layout.blockSize / 4) fb = some (slot, way)) (inode : Mem) :
    ext2Bmap E fs inode fb s = walkPath E fs way (true, iBlock inode slot) s := by
  unfold ext2Bmap
  rw [Prog.bind_eq (show getFs fs s = (some (s.fsAt fs), s) from rfl)]
  generalize (s.fsAt fs).layout.blockSize / 4 = k at hpos hk h
  obtain ⟨hsq, hcube⟩ := ppb_pow hk
  have hcast : ∀ i ∈ way, i % 2 ^ 32 = i := fun i hi =>
    Nat.mod_eq_of_lt (Nat.lt_trans (locate_path hpos h i hi) (by omega))
  simp only [hsq, hcube]
  unfold locate at h
  simp only [locateTree, Nat.pow_one, Nat.reduceAdd, path, Nat.pow_zero, Nat.div_one] at h
  split_ifs at h ⊢ with h0 h1 h2 h3
  · cases h
    rfl
  · cases h
    rw [hcast _ (by simp)]
    rfl
  · cases h
    rw [hcast _ (by simp), hcast (_ % k) (by simp)]
    rfl
  · cases h
    rw [hcast _ (by simp), hcast _ (by simp), hcast (_ % k) (by simp)]
    rfl

theorem bmap_beyond (hk : (s.fsAt fs).layout.blockSize / 4 < 2 ^ 20)
    (h : locate ((s.fsAt fs).layout.blockSize / 4) fb = none) (inode : Mem) :
    ext2Bmap E fs inode fb s = (some (false, 0), s) := by
  unfold ext2Bmap
  rw [Prog.bind_eq (show getFs fs s = (some (s.fsAt fs), s) from rfl)]
  generalize (s.fsAt fs).layout.blockSize / 4 = k at hk h
  obtain ⟨hsq, hcube⟩ := ppb_pow hk
  have hfb := locate_none.mp h
  simp only [hsq, hcube]
  rw [if_neg (by omega), if_neg (by omega), if_neg (by omega), if_neg (by omega)]
  rfl

theorem bmap_free (h : Sectored E.lbaSize (s.fsAt fs)) (hfree : (s.fsAt fs).lock = false)
    (hpos : 0 < (s.fsAt fs).layout.blockSize / 4) (hk : (s.fsAt fs).layout.blockSize / 4 < 2 ^ 20)
    (inode : Mem) (fb : Nat) :
    (ext2Bmap E fs inode fb s).1 = some (bmapTree E s (s.fsAt fs) inode fb) := by
  unfold bmapTree
  cases hloc : locate ((s.fsAt fs).layout.blockSize / 4) fb with
  | none => rw [bmap_beyond hk hloc]
  | some found =>
    obtain ⟨slot, way⟩ := found
    rw [bmap_walk hpos hk hloc]
    exact walkPath_run h hfree (locate_path hpos hloc) (iBlock inode slot)

theorem bmap_held (hheld : (s.fsAt fs).lock = true)
    (hpos : 0 < (s.fsAt fs).layout.blockSize / 4) (hk : (s.fsAt fs).layout.blockSize / 4 < 2 ^ 20)
    (h : (ext2Bmap E fs inode fb s).1 = some r) : r = bmapTree E s (s.fsAt fs) inode fb := by
  unfold bmapTree
  cases hloc : locate ((s.fsAt fs).layout.blockSize / 4) fb with
  | none =>
    rw [bmap_beyond hk hloc] at h
    cases h
    rfl
  | some found =>
    obtain ⟨slot, way⟩ := found
    rw [bmap_walk hpos hk hloc] at h
    exact walkPath_held hheld s.transfers.length (iBlock inode slot) h

theorem bmapTree_failed (h : (bmapTree E s p inode fb).1 = false) :
    (bmapTree E s p inode fb).2 = 0 := by
  unfold bmapTree at h ⊢
  cases hloc : locate (p.layout.blockSize / 4) fb with
  | none => rfl
  | some found =>
    rw [hloc] at h
    exact treePtr_failed h

/-- `ext2_bmap` is the pointer tree. When it returns, its result is the tree's,
and it returns unless the lock is held; its reads are those of the way to the
file block, whose digits are all indices into a pointer block. -/
theorem bmap_eq_tree
    (hbs : (s.fsAt fs).layout.blockSize = 1024 ∨ (s.fsAt fs).layout.blockSize = 2048 ∨
      (s.fsAt fs).layout.blockSize = 4096)
    (hl : E.lbaSize ∣ (s.fsAt fs).layout.blockSize) (inode : Mem) (fb : Nat) :
    ((s.fsAt fs).lock = false →
      (ext2Bmap E fs inode fb s).1 = some (bmapTree E s (s.fsAt fs) inode fb)) ∧
    (∀ r, (ext2Bmap E fs inode fb s).1 = some r → r = bmapTree E s (s.fsAt fs) inode fb) ∧
    ((bmapTree E s (s.fsAt fs) inode fb).1 = false → (bmapTree E s (s.fsAt fs) inode fb).2 = 0) ∧
    ∀ k, k = (s.fsAt fs).layout.blockSize / 4 →
      (locate k fb = none ↔ 12 + k + k ^ 2 + k ^ 3 ≤ fb) ∧
      ∀ slot way, locate k fb = some (slot, way) →
        ext2Bmap E fs inode fb s = walkPath E fs way (true, iBlock inode slot) s ∧
        ∀ i ∈ way, i < k := by
  have hsec : Sectored E.lbaSize (s.fsAt fs) := ⟨hl, by omega, by omega⟩
  have hpos : 0 < (s.fsAt fs).layout.blockSize / 4 := by omega
  have hk : (s.fsAt fs).layout.blockSize / 4 < 2 ^ 20 := by omega
  refine ⟨fun hfree => bmap_free hsec hfree hpos hk inode fb, fun r hr => ?_, bmapTree_failed, ?_⟩
  · cases hlock : (s.fsAt fs).lock with
    | false =>
      rw [bmap_free hsec hlock hpos hk inode fb] at hr
      exact (Option.some.inj hr).symm
    | true => exact bmap_held hlock hpos hk hr
  · rintro k rfl
    exact ⟨locate_none, fun slot way hloc => ⟨bmap_walk hpos hk hloc inode, locate_path hpos hloc⟩⟩

def mappedVolume : Kern :=
  (freshKern (diskImage [(21 * 1024 + 12, 4, 77)])).putFs 1 { Partition.zero with
    sb := ⟨diskImage [(4, 4, 1024), (20, 4, 1)]⟩
    layout := { Partition.zero.layout with blockSize := 1024 } }

theorem bmap_eq_tree_mapped :
    (ext2Bmap allOk 1 (diskImage [(88, 4, 21)]) 15 mappedVolume).1 = some (true, 77) := by
  have hbs : (mappedVolume.fsAt 1).layout.blockSize = 1024 := rfl
  have h := bmap_eq_tree (E := allOk) (.inl hbs) (by decide) (diskImage [(88, 4, 21)]) 15
  exact (h.1 rfl).trans (by decide +kernel)

end

end TomatoOs.Fs.Ext2
