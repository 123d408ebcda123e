import Mathlib.Algebra.Order.Floor.Div
import TomatoOs.Lib.Bytes
import TomatoOs.Lib.Words

/-!
# Superblocks

`super.c`: what `ext2_validate_sb` accepts, and the numbers that
`ext2_compute_layout` derives from it. The two compute the same sizes with
different formulas, in 64 and in 32 bits; on what the first accepts the second
is exact.
-/

namespace TomatoOs.Fs.Ext2

open Lib

structure Superblock where
  bytes : Mem

section
variable (sb : Superblock)

def Superblock.sInodesCount : Nat := sb.bytes.load 0 4

def Superblock.sBlocksCount : Nat := sb.bytes.load 4 4

def Superblock.sFirstDataBlock : Nat := sb.bytes.load 20 4

def Superblock.sLogBlockSize : Nat := sb.bytes.load 24 4

def Superblock.sBlocksPerGroup : Nat := sb.bytes.load 32 4

def Superblock.sInodesPerGroup : Nat := sb.bytes.load 40 4

def Superblock.sMagic : Nat := sb.bytes.load 56 2

def Superblock.revision : Nat := sb.bytes.load 76 4

def Superblock.sFirstIno : Nat := sb.bytes.load 84 4

def Superblock.inodeSize : Nat := sb.bytes.load 88 2

def Superblock.sFeatureIncompat : Nat := sb.bytes.load 96 4

def Superblock.sFeatureRoCompat : Nat := sb.bytes.load 100 4

end

def sizeofSuperblock : Nat := 348

def sizeofGroupDesc : Nat := 32

def ext2Magic : Nat := 0xEF53

def unsupportedIncompat : Nat := 2 ^ 32 - 1 - 0x0002

def unsupportedRoCompat : Nat := 2 ^ 32 - 1 - 0x0003

-- ---------------------------------------------------------------------------
-- Validation
-- ---------------------------------------------------------------------------

section
variable (sb : Superblock)

def Superblock.bs : Nat := 1024 * 2 ^ sb.sLogBlockSize

def Superblock.inodeBytes : Nat := if sb.revision ≥ 1 then sb.inodeSize else 128

def Superblock.firstIno : Nat := if sb.revision ≥ 1 then sb.sFirstIno else 11

def Superblock.groups : Nat :=
  (sb.sBlocksCount - sb.sFirstDataBlock + sb.sBlocksPerGroup - 1) / sb.sBlocksPerGroup

def Superblock.itb : Nat := (sb.sInodesPerGroup * sb.inodeBytes + sb.bs - 1) / sb.bs

def Superblock.gdtBlocks : Nat := (sb.groups * sizeofGroupDesc + sb.bs - 1) / sb.bs

end

def sbReject (bad : Prop) [Decidable bad] (why : String) (rest : Except String Unit) :
    Except String Unit :=
  if bad then .error why else rest

theorem sbReject_ok {bad : Prop} [Decidable bad] :
    sbReject bad why rest = .ok () ↔ ¬bad ∧ rest = .ok () := by
  unfold sbReject
  split
  · rename_i h
    constructor
    · intro he
      cases he
    · exact fun hn => absurd h hn.1
  · rename_i h
    exact ⟨fun he => ⟨h, he⟩, fun hn => hn.2⟩

def ext2ValidateSb (sb : Superblock) (lbaSize : Nat) : Except String Unit :=
  let lba := lbaSize % 2 ^ 32
  sbReject (sb.sLogBlockSize > 2) "block size above 4096 not supported" <|
  sbReject (lba = 0 ∨ sb.bs < lba ∨ sb.bs % lba ≠ 0)
    "block size not a multiple of disk sector size" <|
  sbReject (sb.revision > 1) "unknown revision level" <|
  sbReject (sb.sFeatureIncompat &&& unsupportedIncompat ≠ 0)
    "unsupported incompat features %x, refusing to mount" <|
  sbReject (sb.revision ≥ 1 ∧ (sb.inodeSize < 128 ∨ sb.inodeSize > sb.bs ∨
    sb.inodeSize &&& sb.inodeSize - 1 ≠ 0)) "invalid inode size" <|
  sbReject (sb.revision ≥ 1 ∧ sb.sFirstIno < 11) "invalid first inode" <|
  sbReject (sb.sBlocksCount = 0) "zero block count" <|
  sbReject (sb.sFirstDataBlock ≥ sb.sBlocksCount) "first data block beyond end of fs" <|
  sbReject (sb.sBlocksPerGroup = 0 ∨ sb.sBlocksPerGroup > 8 * sb.bs) "invalid blocks per group" <|
  sbReject (sb.sInodesPerGroup = 0 ∨ sb.sInodesPerGroup > 8 * sb.bs) "invalid inodes per group" <|
  sbReject (sb.sInodesCount = 0 ∨ sb.sInodesCount > sb.groups * sb.sInodesPerGroup)
    "inode count inconsistent with group layout" <|
  sbReject (sb.sInodesCount < sb.firstIno) "too few inodes" <|
  sbReject (sb.itb ≥ sb.sBlocksPerGroup) "inode table larger than a block group" <|
  sbReject (sb.sFirstDataBlock + 1 + sb.gdtBlocks > sb.sBlocksCount)
    "group descriptor table does not fit" <|
  .ok ()

-- ---------------------------------------------------------------------------
-- Layout
-- ---------------------------------------------------------------------------

/-- The fields of `struct ext2_partition` that `ext2_compute_layout` sets. -/
structure Layout where
  blockSize : Nat
  sectorsPerBlock : Nat
  groupCount : Nat
  inodeSize : Nat
  firstIno : Nat
  readOnly : Bool
  inodesPerBlock : Nat
  itbPerGroup : Nat
  descPerBlock : Nat
  gdbCount : Nat
deriving DecidableEq

def ext2ComputeLayout [Monad m] (ar : Arith m) (sb : Superblock) (lbaSize : Nat) : m Layout := do
  let blockSize ← ar.shl 32 1024 sb.sLogBlockSize
  let sectorsPerBlock ← ar.cast 32 (← ar.div blockSize lbaSize)
  let dataBlocks ← ar.sub 32 sb.sBlocksCount sb.sFirstDataBlock
  -- the sum is one of 64 bits
  let sum ← ar.sub 64 (← ar.add 64 dataBlocks sb.sBlocksPerGroup) 1
  let groupCount ← ar.cast 32 (← ar.div sum sb.sBlocksPerGroup)
  let inodeSize := if sb.revision = 0 then 128 else sb.inodeSize
  let firstIno := if sb.revision = 0 then 11 else sb.sFirstIno
  let readOnly := sb.sFeatureRoCompat &&& unsupportedRoCompat != 0
  let inodesPerBlock ← ar.div blockSize inodeSize
  let itbPerGroup ← ar.div (← ar.sub 32 (← ar.add 32 sb.sInodesPerGroup inodesPerBlock) 1)
    inodesPerBlock
  let descPerBlock ← ar.div blockSize sizeofGroupDesc
  let gdbCount ← ar.div (← ar.sub 32 (← ar.add 32 groupCount descPerBlock) 1) descPerBlock
  return { blockSize, sectorsPerBlock, groupCount, inodeSize, firstIno, readOnly, inodesPerBlock,
           itbPerGroup, descPerBlock, gdbCount }

-- ---------------------------------------------------------------------------
-- What is accepted
-- ---------------------------------------------------------------------------

structure Superblock.Accepted (sb : Superblock) (lbaSize : Nat) : Prop where
  log : sb.sLogBlockSize ≤ 2
  lba : 0 < lbaSize % 2 ^ 32 ∧ lbaSize % 2 ^ 32 ≤ sb.bs ∧ sb.bs % (lbaSize % 2 ^ 32) = 0
  revision : sb.revision ≤ 1
  inode : sb.revision = 1 →
    128 ≤ sb.inodeSize ∧ sb.inodeSize ≤ sb.bs ∧ sb.inodeSize &&& sb.inodeSize - 1 = 0
  first : sb.sFirstDataBlock < sb.sBlocksCount
  perGroup : 0 < sb.sBlocksPerGroup ∧ sb.sBlocksPerGroup ≤ 8 * sb.bs
  inodesPerGroup : 0 < sb.sInodesPerGroup ∧ sb.sInodesPerGroup ≤ 8 * sb.bs
  inodes : 0 < sb.sInodesCount ∧ sb.sInodesCount ≤ sb.groups * sb.sInodesPerGroup
  firstIno : sb.firstIno ≤ sb.sInodesCount
  table : sb.itb < sb.sBlocksPerGroup
  descriptors : sb.sFirstDataBlock + 1 + sb.gdtBlocks ≤ sb.sBlocksCount

theorem accepted_of_validate (h : ext2ValidateSb sb lbaSize = .ok ()) : sb.Accepted lbaSize := by
  simp only [ext2ValidateSb, sbReject_ok] at h
  obtain ⟨h1, h2, h3, -, h5, -, -, h8, h9, h10, h11, h12, h13, h14, -⟩ := h
  refine ⟨by omega, by omega, by omega, fun hr => ?_, by omega, by omega, by omega, by omega,
    by omega, by omega, by omega⟩
  have h5 := not_and.mp h5 (by omega)
  omega

section
variable {sb : Superblock} {lbaSize : Nat}

theorem Superblock.Accepted.bs_cases (h : sb.Accepted lbaSize) :
    sb.bs = 1024 ∨ sb.bs = 2048 ∨ sb.bs = 4096 := by
  have hlog := h.log
  rw [Superblock.bs]
  generalize sb.sLogBlockSize = k at hlog ⊢
  interval_cases k <;> simp

/-- The size of an inode divides the block size: both are powers of two. -/
theorem Superblock.Accepted.inodeBytes (h : sb.Accepted lbaSize) :
    128 ≤ sb.inodeBytes ∧ sb.inodeBytes ≤ sb.bs ∧ sb.inodeBytes ∣ sb.bs := by
  have hpow : ∃ k, sb.bs = 2 ^ k := ⟨10 + sb.sLogBlockSize, by rw [Superblock.bs, Nat.pow_add]⟩
  obtain ⟨k, hk⟩ := hpow
  have hrange : 128 ≤ sb.inodeBytes ∧ sb.inodeBytes ≤ sb.bs ∧ ∃ l, sb.inodeBytes = 2 ^ l := by
    rw [Superblock.inodeBytes]
    split
    · rename_i hrev
      obtain ⟨hlo, hhi, hand⟩ := h.inode (Nat.le_antisymm h.revision hrev)
      exact ⟨hlo, hhi, (Nat.and_sub_one_eq_zero_iff_isPowerOfTwo (by omega)).mp hand⟩
    · have := h.bs_cases
      exact ⟨Nat.le_refl _, by omega, 7, rfl⟩
  obtain ⟨hlo, hhi, l, hl⟩ := hrange
  refine ⟨hlo, hhi, ?_⟩
  rw [hl, hk] at hhi ⊢
  exact Nat.pow_dvd_pow 2 ((Nat.pow_le_pow_iff_right (by decide)).mp hhi)

theorem Superblock.blocksCount_lt (sb : Superblock) : sb.sBlocksCount < 2 ^ 32 :=
  Mem.load_lt sb.bytes 4 4

/-- A group has two blocks at least, as its inode table needs one. -/
theorem Superblock.Accepted.two_blocks (h : sb.Accepted lbaSize) : 2 ≤ sb.sBlocksPerGroup := by
  have hbs := h.bs_cases
  have hpos : 0 < sb.sInodesPerGroup * sb.inodeBytes :=
    Nat.mul_pos h.inodesPerGroup.1 (by have := h.inodeBytes; omega)
  have hitb : 0 < sb.itb := Nat.div_pos (by omega) (by omega)
  have := h.table
  omega

theorem Superblock.Accepted.groups_bounds (h : sb.Accepted lbaSize) :
    0 < sb.groups ∧ sb.groups ≤ 2 ^ 31 := by
  have htwo := h.two_blocks
  have hfirst := h.first
  have hlt := sb.blocksCount_lt
  refine ⟨Nat.div_pos (by omega) (by omega), ?_⟩
  calc sb.groups
    _ ≤ (sb.sBlocksCount - sb.sFirstDataBlock + sb.sBlocksPerGroup) / sb.sBlocksPerGroup :=
      Nat.div_le_div_right (Nat.sub_le _ 1)
    _ = (sb.sBlocksCount - sb.sFirstDataBlock) / sb.sBlocksPerGroup + 1 :=
      Nat.add_div_right _ (by omega)
    _ ≤ (sb.sBlocksCount - sb.sFirstDataBlock) / 2 + 1 :=
      Nat.add_le_add_right (Nat.div_le_div_left htwo (by decide)) 1
    _ ≤ 2 ^ 31 := by omega

end

-- ---------------------------------------------------------------------------
-- The layout of an accepted superblock
-- ---------------------------------------------------------------------------

def Superblock.layout (sb : Superblock) (lbaSize : Nat) : Layout :=
  { blockSize := sb.bs
    sectorsPerBlock := sb.bs / lbaSize
    groupCount := sb.groups
    inodeSize := sb.inodeBytes
    firstIno := sb.firstIno
    readOnly := sb.sFeatureRoCompat &&& unsupportedRoCompat != 0
    inodesPerBlock := sb.bs / sb.inodeBytes
    itbPerGroup := sb.itb
    descPerBlock := sb.bs / sizeofGroupDesc
    gdbCount := sb.gdtBlocks }

theorem ceil_units (hu : 0 < u) (hk : 0 < k) (n : Nat) :
    (n * u + k * u - 1) / (k * u) = (n + k - 1) / k := by
  have hsum : n * u + k * u - 1 = (n + k - 1) * u + (u - 1) := by
    have : (n + k - 1) * u + u = n * u + k * u := by
      rw [← Nat.succ_mul, ← Nat.add_mul]
      congr 1
      omega
    omega
  have hdiv : ((n + k - 1) * u + (u - 1)) / u = n + k - 1 := by
    rw [Nat.mul_comm, Nat.mul_add_div hu, Nat.div_eq_of_lt (by omega), Nat.add_zero]
  rw [hsum, Nat.mul_comm k u, ← Nat.div_div_eq_div_mul, hdiv]

section
variable {sb : Superblock} {lbaSize : Nat}

theorem Superblock.Accepted.itb_eq (h : sb.Accepted lbaSize) :
    (sb.sInodesPerGroup + sb.bs / sb.inodeBytes - 1) / (sb.bs / sb.inodeBytes) = sb.itb := by
  obtain ⟨hlo, hhi, k, hk⟩ := h.inodeBytes
  have hpos : 0 < k := Nat.pos_of_ne_zero fun h0 => by simp [h0] at hk; omega
  rw [Superblock.itb, hk, Nat.mul_div_cancel_left k (by omega), Nat.mul_comm sb.inodeBytes k,
    ceil_units (by omega) hpos]

theorem Superblock.Accepted.gdt_eq (h : sb.Accepted lbaSize) :
    (sb.groups + sb.bs / sizeofGroupDesc - 1) / (sb.bs / sizeofGroupDesc) = sb.gdtBlocks := by
  have hbs : sb.bs = sb.bs / sizeofGroupDesc * sizeofGroupDesc := by
    have := h.bs_cases
    simp only [sizeofGroupDesc]
    omega
  have hpos : 0 < sb.bs / sizeofGroupDesc := by
    have := h.bs_cases
    simp only [sizeofGroupDesc]
    omega
  rw [Superblock.gdtBlocks]
  nth_rewrite 3 [hbs]
  nth_rewrite 4 [hbs]
  rw [ceil_units (by decide) hpos]

/-- On an accepted superblock the layout is the exact one, and no expression
wraps or divides by zero. -/
theorem computeLayout_eq (h : sb.Accepted lbaSize) (hl : lbaSize < 2 ^ 32) :
    ext2ComputeLayout checked sb lbaSize = some (sb.layout lbaSize) ∧
      ext2ComputeLayout wrapping sb lbaSize = sb.layout lbaSize := by
  have hbs := h.bs_cases
  have hlba := h.lba
  rw [Nat.mod_eq_of_lt hl] at hlba
  have hcount := sb.blocksCount_lt
  have hfirst := h.first
  have hper := h.perGroup
  have hinodes := h.inodesPerGroup
  have hgroups := h.groups_bounds
  obtain ⟨hlo, hhi, hdvd⟩ := h.inodeBytes
  have hsize : (if sb.revision = 0 then 128 else sb.inodeSize) = sb.inodeBytes := by
    rw [Superblock.inodeBytes]
    split_ifs <;> first | rfl | omega
  have hino : (if sb.revision = 0 then 11 else sb.sFirstIno) = sb.firstIno := by
    rw [Superblock.firstIno]
    split_ifs <;> first | rfl | omega
  have hipb : 0 < sb.bs / sb.inodeBytes ∧ sb.bs / sb.inodeBytes ≤ 4096 :=
    ⟨Nat.div_pos hhi (by omega), Nat.le_trans (Nat.div_le_self ..) (by omega)⟩
  have hdpb : 0 < sb.bs / sizeofGroupDesc ∧ sb.bs / sizeofGroupDesc ≤ 4096 := by
    simp only [sizeofGroupDesc]
    omega
  have hsec : sb.bs / lbaSize ≤ 4096 := Nat.le_trans (Nat.div_le_self ..) (by omega)
  obtain ⟨c1, w1⟩ : checked.shl 32 1024 sb.sLogBlockSize = some sb.bs ∧
      wrapping.shl 32 1024 sb.sLogBlockSize = sb.bs :=
    checked_shl (by rw [← Superblock.bs]; omega)
  obtain ⟨c2, w2⟩ := checked_div (a := sb.bs) (b := lbaSize) (by omega)
  obtain ⟨c3, w3⟩ := checked_cast (a := sb.bs / lbaSize) (w := 32) (by omega)
  obtain ⟨c4, w4⟩ := checked_sub (a := sb.sBlocksCount) (b := sb.sFirstDataBlock) (w := 32)
    (by omega) hcount
  obtain ⟨⟨c5, w5⟩, ⟨c6, w6⟩, c7, w7⟩ := checked_roundUp
    (a := sb.sBlocksCount - sb.sFirstDataBlock) (w := 64) (by omega) hper.1
  rw [← Superblock.groups] at c7 w7
  obtain ⟨c8, w8⟩ := checked_cast (a := sb.groups) (w := 32) (by omega)
  obtain ⟨c9, w9⟩ := checked_div (a := sb.bs) (b := sb.inodeBytes) (by omega)
  obtain ⟨⟨c10, w10⟩, ⟨c11, w11⟩, c12, w12⟩ := checked_roundUp
    (a := sb.sInodesPerGroup) (w := 32) (by omega) hipb.1
  obtain ⟨c13, w13⟩ := checked_div (a := sb.bs) (b := sizeofGroupDesc) (by decide)
  obtain ⟨⟨c14, w14⟩, ⟨c15, w15⟩, c16, w16⟩ := checked_roundUp
    (a := sb.groups) (w := 32) (by omega) hdpb.1
  constructor
  · simp only [ext2ComputeLayout, hsize, hino]
    refine bind_some c1 <| bind_some c2 <| bind_some c3 <| bind_some c4 <| bind_some c5 <|
      bind_some c6 <| bind_some c7 <| bind_some c8 <| bind_some c9 <| bind_some c10 <|
      bind_some c11 <| bind_some c12 <| bind_some c13 <| bind_some c14 <| bind_some c15 <|
      bind_some c16 ?_
    rw [h.itb_eq, h.gdt_eq]
    rfl
  · simp only [ext2ComputeLayout, hsize, hino, w1, w2, w3, w4, w5, w6, w7, w8, w9, w10, w11, w12, w13,
      w14, w15, w16, h.itb_eq, h.gdt_eq, bind, pure]
    rfl

/-- What `ext2_validate_sb` accepts has a layout that its fields determine
exactly, with room for the descriptors and a group for every inode. -/
theorem layout_of_accepted (hl : lbaSize < 2 ^ 32) (h : ext2ValidateSb sb lbaSize = .ok ()) :
    let L : Layout := ext2ComputeLayout wrapping sb lbaSize
    ext2ComputeLayout checked sb lbaSize = some L ∧
      L.blockSize % lbaSize = 0 ∧ L.blockSize ≤ 4096 ∧
      L.groupCount = (sb.sBlocksCount - sb.sFirstDataBlock) ⌈/⌉ sb.sBlocksPerGroup ∧
      1 ≤ L.groupCount ∧ L.inodesPerBlock * L.inodeSize = L.blockSize ∧
      L.itbPerGroup = sb.itb ∧ L.gdbCount = sb.gdtBlocks ∧
      sb.sFirstDataBlock + 1 + L.gdbCount ≤ sb.sBlocksCount ∧
      ∀ ino, 1 ≤ ino → ino ≤ sb.sInodesCount → (ino - 1) / sb.sInodesPerGroup < L.groupCount := by
  intro L
  have hacc := accepted_of_validate h
  obtain ⟨hchecked, hL⟩ := computeLayout_eq hacc hl
  have hL : L = sb.layout lbaSize := hL
  have hlba := hacc.lba
  rw [Nat.mod_eq_of_lt hl] at hlba
  have hgroups : sb.groups = (sb.sBlocksCount - sb.sFirstDataBlock) ⌈/⌉ sb.sBlocksPerGroup :=
    (Nat.ceilDiv_eq_add_pred_div ..).symm
  have hbs := hacc.bs_cases
  rw [hchecked, hL]
  simp only [Superblock.layout]
  refine ⟨trivial, hlba.2.2, by omega, hgroups, hacc.groups_bounds.1,
    Nat.div_mul_cancel hacc.inodeBytes.2.2, trivial, trivial, hacc.descriptors, fun ino hlo hhi => ?_⟩
  have := hacc.inodes.2
  exact (Nat.div_lt_iff_lt_mul hacc.inodesPerGroup.1).mpr (by omega)

def Superblock.ofFields (fields : List (Nat × Nat × Nat)) : Superblock :=
  ⟨fields.foldl (fun m f => Mem.store m f.1 f.2.1 f.2.2) fun _ => 0⟩

def smallSuperblock : Superblock :=
  .ofFields [(0, 4, 128), (4, 4, 1024), (20, 4, 1), (32, 4, 8192), (40, 4, 128), (56, 2, ext2Magic)]

theorem layout_of_accepted_small :
    ext2ValidateSb smallSuperblock 512 = .ok () ∧
      (ext2ComputeLayout wrapping smallSuperblock 512 : Layout).itbPerGroup = 16 := by
  have h : ext2ValidateSb smallSuperblock 512 = .ok () := by decide +kernel
  obtain ⟨-, -, -, -, -, -, hitb, -⟩ := layout_of_accepted (by decide) h
  have hsmall : smallSuperblock.itb = 16 := by decide +kernel
  exact ⟨h, hitb.trans hsmall⟩

end

end TomatoOs.Fs.Ext2
