import TomatoOs.Fs.Ext2.Lookup

/-!
# Writing

The writing half of `io.c`, and `ext2_write_superblock`. A block may have several
sectors or be a part of one; in both cases a write changes the bytes of that block
of the partition and no others, and a read finds them there.
-/

namespace TomatoOs.Fs.Ext2

open Lib Memory

-- ---------------------------------------------------------------------------
-- Programs
-- ---------------------------------------------------------------------------

section
variable (E : Env)

def ext2WriteBlocks (fs block buf : Nat) : Prog Kern Bool := do
  let p ← getFs fs
  if p.layout.readOnly then return false
  else if block ≥ p.sb.sBlocksCount then return false
  else
    let r := bytesToBlocks (wmul 64 block p.layout.blockSize) p.layout.blockSize E.lbaSize
    let lba := wadd 64 p.lbaStart r.lba
    if p.layout.blockSize ≥ E.lbaSize then diskWrite E buf lba r.sizeInBlocks
    else
      locked fs do
        let ok ← diskRead E p.ioBuf lba 1
        if ok then
          memcpyPage (p.ioBuf + r.offset) buf p.layout.blockSize
          diskWrite E p.ioBuf lba 1
        else return false

def memcpySuperblock (dst : Nat) (sb : Superblock) : Prog Kern Unit := fun s =>
  (some (), { s with ram := s.ram.paste dst sb.bytes 0 sizeofSuperblock })

def ext2WriteSuperblock (fs : Nat) : Prog Kern Bool := do
  let p ← getFs fs
  if p.layout.readOnly then return false
  else
    let r := bytesToBlocks 1024 1024 E.lbaSize
    let lba := wadd 64 p.lbaStart r.lba
    let ok ← locked fs do
      let ok ← diskRead E p.ioBuf lba r.sizeInBlocks
      if ok then
        memcpySuperblock (p.ioBuf + r.offset) p.sb
        diskWrite E p.ioBuf lba r.sizeInBlocks
      else return false
    if ok then
      setFs fs fun p => { p with sbDirty := false }
      return true
    else return false

end

-- ---------------------------------------------------------------------------
-- Read, change in part, write back
-- ---------------------------------------------------------------------------

def patchPage (dst : Nat) (src : Mem → Mem) (off n : Nat) : Prog Kern Unit := fun s =>
  (some (), { s with ram := s.ram.paste dst (src s.ram) off n })

def rewrite (E : Env) (fs ioBuf lba len : Nat) (change : Prog Kern Unit) : Prog Kern Bool :=
  locked fs do
    let ok ← diskRead E ioBuf lba len
    if ok then
      change
      diskWrite E ioBuf lba len
    else return false

/-- After a call that was to write `n` bytes at `pos` of the partition. -/
structure Written (l start pos n : Nat) (bytes : Mem) (s : Kern) (ok : Bool) (t : Kern) : Prop where
  fields : t.fsAt = s.fsAt
  failed : ok = false → t.sectors = s.sectors
  done : ok = true → Patched l s.sectors t.sectors start pos n bytes

section
variable {E : Env} {s t : Kern} {fs : Nat} {p : Partition}

def sectorPage (E : Env) (s : Kern) (ioBuf lba len : Nat) : Mem :=
  s.ram.paste ioBuf (s.diskByte E.lbaSize lba) 0 (len * E.lbaSize)

theorem sectorPage_byte (hl : 0 < E.lbaSize) (hj : j < len * E.lbaSize) :
    sectorPage E s ioBuf (wadd 64 start q) len (ioBuf + j) =
      byteAt E.lbaSize s.sectors start (q * E.lbaSize + j) := by
  rw [sectorPage, Mem.paste_inside _ _ _ _ hj, Nat.zero_add]
  exact byteAt_later hl q j

theorem rewrite_patched (hl : 0 < E.lbaSize) (hq : q + len ≤ 2 ^ 64)
    (hin : off + n ≤ len * E.lbaSize) (hsrc : ∀ j < n, src (a + j) = bytes j) :
    Patched E.lbaSize s.sectors (overwrite E.lbaSize s.sectors
      ((sectorPage E s ioBuf (wadd 64 start q) len).paste (ioBuf + off) src a n) ioBuf
      (wadd 64 start q) len) start (q * E.lbaSize + off) n bytes := by
  refine (overwrite_patched hl hq _ ioBuf).narrow (Nat.le_add_right ..) (by omega)
    (fun j hj hno => ?_) fun j hj => ?_
  · have hout : ¬Within (ioBuf + off) n (ioBuf + j) := by
      unfold Within at *
      omega
    rw [Mem.paste_outside hout, sectorPage_byte hl hj]
  · rw [Nat.add_sub_cancel_left, ← Nat.add_assoc, Mem.paste_inside _ _ _ _ hj, hsrc j hj]

/-- Some bytes of `len` sectors are replaced, by bytes that reading the sectors
into the page does not change. -/
theorem rewrite_triple (ioBuf start : Nat) (src : Mem → Mem) (hfree : (s.fsAt fs).lock = false)
    (hl : 0 < E.lbaSize) (hq : q + len ≤ 2 ^ 64) (hin : off + n ≤ len * E.lbaSize)
    (hsrc : ∀ ram : Mem, (∀ x, ¬Within ioBuf (len * E.lbaSize) x → ram x = s.ram x) →
      ∀ j < n, src ram (a + j) = bytes j) :
    Triple (rewrite E fs ioBuf (wadd 64 start q) len (patchPage (ioBuf + off) src a n)) s
      (fun ok t => Written E.lbaSize start (q * E.lbaSize + off) n bytes s ok t ∧
        (ok = true ↔ E.readOk s.transfers.length = true ∧ E.writeOk s.writes = true))
      fun _ => False := by
  refine locked_triple hfree ?_
  have hrest : ∀ (ok : Bool) (t : Kern), t.fsAt = (s.putFs fs ((s.fsAt fs).setLock true)).fsAt →
      (ok = false → t.sectors = s.sectors) →
      (ok = true → Patched E.lbaSize s.sectors t.sectors start (q * E.lbaSize + off) n bytes) →
      Written E.lbaSize start (q * E.lbaSize + off) n bytes s ok
        (t.putFs fs ((t.fsAt fs).setLock false)) := by
    intro ok t ht hno hyes
    rw [Kern.unlocked hfree ht]
    exact ⟨rfl, hno, hyes⟩
  refine Triple.step rfl ?_
  have hlen : (s.putFs fs ((s.fsAt fs).setLock true)).transfers.length = s.transfers.length := rfl
  rw [hlen]
  cases hr : E.readOk s.transfers.length with
  | false =>
    refine Triple.pure ⟨hrest _ _ rfl (fun _ => rfl) fun h => absurd h Bool.false_ne_true, ?_⟩
    exact ⟨fun h => absurd h Bool.false_ne_true, fun h => absurd h.1 Bool.false_ne_true⟩
  | true =>
    refine Triple.step rfl (Triple.of_run rfl ⟨hrest _ _ rfl (fun h => if_neg ?_) fun h => ?_, ?_⟩)
    · exact Bool.eq_false_iff.mp h
    · have hok : E.writeOk s.writes = true := h
      show Patched E.lbaSize s.sectors (if E.writeOk s.writes = true then
        overwrite E.lbaSize s.sectors ((sectorPage E s ioBuf (wadd 64 start q) len).paste (ioBuf + off)
          (src (sectorPage E s ioBuf (wadd 64 start q) len)) a n) ioBuf (wadd 64 start q) len
        else s.sectors) start _ n bytes
      rw [if_pos hok]
      exact rewrite_patched hl hq hin (hsrc _ fun x hx => Mem.paste_outside hx)
    · exact ⟨fun h => ⟨rfl, h⟩, fun h => h.2⟩

-- ---------------------------------------------------------------------------
-- Blocks
-- ---------------------------------------------------------------------------

/-- A block is some whole sectors, or a sector is some whole blocks. -/
structure Sized (l : Nat) (p : Partition) : Prop where
  whole : l ∣ p.layout.blockSize ∨ p.layout.blockSize ∣ l
  block : 0 < p.layout.blockSize ∧ p.layout.blockSize ≤ 4096
  sector : 0 < l ∧ l ≤ 4096

theorem Sized.sectored (h : Sized l p) (hle : l ≤ p.layout.blockSize) : Sectored l p := by
  refine ⟨?_, h.block.1, h.block.2⟩
  rcases h.whole with hdvd | hdvd
  · exact hdvd
  · rw [Nat.le_antisymm hle (Nat.le_of_dvd h.sector.1 hdvd)]

theorem Sized.range (h : Sized l p) (hlt : p.layout.blockSize < l)
    (hb : b < p.sb.sBlocksCount) :
    bytesToBlocks (wmul 64 b p.layout.blockSize) p.layout.blockSize l =
      ⟨b * p.layout.blockSize / l, 1, b * p.layout.blockSize % l⟩ := by
  obtain ⟨hpos, hpage⟩ := h.block
  obtain ⟨hl, hle⟩ := h.sector
  have hmul : wmul 64 b p.layout.blockSize = b * p.layout.blockSize :=
    p.sb.wmul_block hpage hb
  have hdown : ∀ x, alignDown x l = x / l * l := fun x => by
    have := Nat.div_add_mod' x l
    unfold alignDown
    omega
  have hup : alignUp p.layout.blockSize l = l := by
    rw [alignUp, Nat.mod_eq_of_lt hlt, if_neg (by omega), wadd_eq (by omega)]
    omega
  have hmod := Nat.div_add_mod' (b * p.layout.blockSize) l
  rw [hmul, bytesToBlocks, hup, hdown, Nat.mul_div_cancel _ hl, Nat.div_self hl, if_neg (by decide)]
  congr 1
  omega

theorem Sized.place (h : Sized l p) (hlt : p.layout.blockSize < l) (b : Nat) :
    b * p.layout.blockSize / l * l + b * p.layout.blockSize % l = b * p.layout.blockSize ∧
      b * p.layout.blockSize % l + p.layout.blockSize ≤ l := by
  have hdvd : p.layout.blockSize ∣ l := by
    rcases h.whole with hdvd | hdvd
    · exact absurd (Nat.le_of_dvd h.block.1 hdvd) (Nat.not_le.mpr hlt)
    · exact hdvd
  exact ⟨Nat.div_add_mod' .., mul_mod_add_le hdvd h.sector.1 b⟩

theorem readBlocks_bytes (h : Sized E.lbaSize (s.fsAt fs)) :
    Triple (ext2ReadBlocks E fs b dst) s
      (fun ok u => ok = true → ∀ j < (s.fsAt fs).layout.blockSize, u.ram (dst + j) =
        byteAt E.lbaSize s.sectors (s.fsAt fs).lbaStart (b * (s.fsAt fs).layout.blockSize + j))
      fun _ => True := by
  rcases Nat.lt_or_ge b (s.fsAt fs).sb.sBlocksCount with hb | hb
  · rcases Nat.lt_or_ge (s.fsAt fs).layout.blockSize E.lbaSize with hlt | hle
    · cases hlock : (s.fsAt fs).lock with
      | true => exact Triple.of_stop (readBlocks_spins hlock hb hlt dst) trivial
      | false =>
        obtain ⟨hpos, hend⟩ := h.place hlt b
        refine Triple.step rfl ?_
        rw [if_neg (Nat.not_le.mpr hb)]
        simp only [h.range hlt hb, if_neg (Nat.not_le.mpr hlt)]
        refine locked_triple hlock (Triple.step rfl ?_)
        cases E.readOk (s.putFs fs ((s.fsAt fs).setLock true)).transfers.length with
        | false => exact Triple.step rfl (Triple.pure fun hf => absurd hf Bool.false_ne_true)
        | true =>
          refine Triple.step rfl (Triple.pure fun _ j hj => ?_)
          show (sectorPage E s (s.fsAt fs).ioBuf (wadd 64 (s.fsAt fs).lbaStart
            (b * (s.fsAt fs).layout.blockSize / E.lbaSize)) 1).paste dst (sectorPage E s _ _ 1)
            ((s.fsAt fs).ioBuf + b * (s.fsAt fs).layout.blockSize % E.lbaSize)
            (s.fsAt fs).layout.blockSize (dst + j) = _
          rw [Mem.paste_inside _ _ _ _ hj, Nat.add_assoc, sectorPage_byte h.sector.1 (by omega),
            ← Nat.add_assoc, hpos]
    · refine Triple.of_run (readBlocks_eq (h.sectored hle) hb dst) fun hok j hj => ?_
      simp only [hok, if_true]
      exact (h.sectored hle).read s.ram dst b hj
  · exact Triple.of_run (readBlocks_out hb dst) fun hf => absurd hf Bool.false_ne_true

theorem readBlocks_at (h : Sized l p) (hl : E.lbaSize = l) (hfs : s.fsAt fs = p)
    (hread : ext2ReadBlocks E fs b dst s = (some true, u)) (hj : j < p.layout.blockSize) :
    u.ram (dst + j) = byteAt l s.sectors p.lbaStart (b * p.layout.blockSize + j) := by
  subst hl hfs
  exact (readBlocks_bytes h).run hread rfl j hj

theorem Sized.of_powers (hbs : ∃ i, p.layout.blockSize = 2 ^ i) (hl : ∃ i, l = 2 ^ i)
    (hpage : p.layout.blockSize ≤ 4096) (hle : l ≤ 4096) : Sized l p := by
  obtain ⟨i, hi⟩ := hbs
  obtain ⟨k, rfl⟩ := hl
  have hpos := Nat.two_pow_pos i
  refine ⟨?_, ⟨by omega, hpage⟩, Nat.two_pow_pos k, hle⟩
  rw [hi]
  rcases Nat.le_total k i with hki | hik
  · exact .inl (Nat.pow_dvd_pow 2 hki)
  · exact .inr (Nat.pow_dvd_pow 2 hik)

theorem blocks_apart (hne : b' ≠ b) (hj : j < n) : ¬Within (b * n) n (b' * n + j) := by
  rintro ⟨hlo, hhi⟩
  rcases Nat.lt_or_gt_of_ne hne with hlt | hgt
  · have := Nat.mul_le_mul_right n hlt
    rw [Nat.succ_mul] at this
    omega
  · have := Nat.mul_le_mul_right n hgt
    rw [Nat.succ_mul] at this
    omega

theorem Sized.sectors_fit (h : Sized l p) (hb : b < p.sb.sBlocksCount) :
    b * p.layout.blockSize / l + p.layout.blockSize ≤ 2 ^ 64 := by
  have hend := p.sb.block_lt h.block.2 hb
  have hle := Nat.div_le_self (b * p.layout.blockSize) l
  omega

theorem Sized.overwrites (h : Sized l p) (hle : l ≤ p.layout.blockSize)
    (hb : b < p.sb.sBlocksCount) (disk : Nat → Mem) (ram : Mem) (buf : Nat) :
    Patched l disk (overwrite l disk ram buf
        (wadd 64 p.lbaStart (b * p.layout.blockSize / l)) (p.layout.blockSize / l))
      p.lbaStart (b * p.layout.blockSize) p.layout.blockSize fun j => ram (buf + j) := by
  have hsec := h.sectored hle
  have hfit : b * p.layout.blockSize / l + p.layout.blockSize / l ≤ 2 ^ 64 :=
    Nat.le_trans (Nat.add_le_add_left (Nat.div_le_self ..) _) (h.sectors_fit hb)
  have hpatch : Patched l disk (overwrite l disk ram buf
      (wadd 64 p.lbaStart (b * p.layout.blockSize / l)) (p.layout.blockSize / l))
      p.lbaStart _ _ _ := overwrite_patched hsec.sector hfit ram buf
  rwa [Nat.div_mul_cancel (Dvd.dvd.mul_left hsec.dvd b), Nat.div_mul_cancel hsec.dvd] at hpatch

theorem writeBlocks_triple (h : Sized E.lbaSize (s.fsAt fs)) (hfree : (s.fsAt fs).lock = false)
    (hapart : Apart buf (s.fsAt fs).layout.blockSize (s.fsAt fs).ioBuf E.lbaSize) :
    Triple (ext2WriteBlocks E fs b buf) s
      (fun ok t => Written E.lbaSize (s.fsAt fs).lbaStart (b * (s.fsAt fs).layout.blockSize)
          (s.fsAt fs).layout.blockSize (fun j => s.ram (buf + j)) s ok t ∧
        (ok = true ↔ (s.fsAt fs).layout.readOnly = false ∧ b < (s.fsAt fs).sb.sBlocksCount ∧
          (E.lbaSize ≤ (s.fsAt fs).layout.blockSize ∨ E.readOk s.transfers.length = true) ∧
          E.writeOk s.writes = true))
      fun _ => False := by
  have hno : ∀ P : Prop, false = true → P := fun _ h => absurd h Bool.false_ne_true
  have hkeep : Written E.lbaSize (s.fsAt fs).lbaStart (b * (s.fsAt fs).layout.blockSize)
      (s.fsAt fs).layout.blockSize (fun j => s.ram (buf + j)) s false s :=
    ⟨rfl, fun _ => rfl, hno _⟩
  refine Triple.step rfl ?_
  split
  · rename_i hro
    exact Triple.pure ⟨hkeep, hno _, fun hok => absurd (hok.1.symm.trans hro) Bool.false_ne_true⟩
  split
  · rename_i hro hb
    exact Triple.pure ⟨hkeep, hno _, fun hok => absurd hok.2.1 (Nat.not_lt.mpr hb)⟩
  rename_i hro hb
  have hb := Nat.lt_of_not_le hb
  have hro := Bool.eq_false_iff.mpr hro
  rcases Nat.lt_or_ge (s.fsAt fs).layout.blockSize E.lbaSize with hlt | hle
  · obtain ⟨hpos, hend⟩ := h.place hlt b
    have hq : b * (s.fsAt fs).layout.blockSize / E.lbaSize + 1 ≤ 2 ^ 64 :=
      Nat.le_trans (Nat.add_le_add_left h.block.1 _) (h.sectors_fit hb)
    have hin : b * (s.fsAt fs).layout.blockSize % E.lbaSize + (s.fsAt fs).layout.blockSize ≤
        1 * E.lbaSize := by rwa [Nat.one_mul]
    have hsrc : ∀ ram : Mem, (∀ x, ¬Within (s.fsAt fs).ioBuf (1 * E.lbaSize) x → ram x = s.ram x) →
        ∀ j < (s.fsAt fs).layout.blockSize, ram (buf + j) = s.ram (buf + j) := by
      intro ram hram j hj
      rw [Nat.one_mul] at hram
      exact hram _ (hapart.symm.not_within ⟨Nat.le_add_right .., by omega⟩)
    have hrun := rewrite_triple (s.fsAt fs).ioBuf (s.fsAt fs).lbaStart (fun ram => ram) hfree
      h.sector.1 hq hin hsrc
    rw [hpos] at hrun
    simp only [h.range hlt hb, if_neg (Nat.not_le.mpr hlt)]
    refine Triple.mono hrun ?_ fun _ hf => hf
    rintro ok t ⟨hw, hok⟩
    refine ⟨hw, hok.trans ⟨fun hok => ⟨hro, hb, .inr hok.1, hok.2⟩, ?_⟩⟩
    rintro ⟨-, -, hle | hr, hwrite⟩
    · exact absurd hle (Nat.not_le.mpr hlt)
    · exact ⟨hr, hwrite⟩
  · have hsec := h.sectored hle
    simp only [hsec.range hb, if_pos hle]
    refine Triple.of_run rfl ⟨⟨rfl, fun hf => if_neg (Bool.eq_false_iff.mp hf), fun hok => ?_⟩, ?_⟩
    · have hok : E.writeOk s.writes = true := hok
      show Patched E.lbaSize s.sectors (if E.writeOk s.writes = true then _ else s.sectors) _ _ _ _
      rw [if_pos hok]
      exact h.overwrites hle hb s.sectors s.ram buf
    · exact ⟨fun hok => ⟨hro, hb, .inl hle, hok⟩, fun hok => hok.2.2.2⟩

/-- What is written to a block is read from it, and nothing else on the disk
changes; a write that fails changes nothing. -/
theorem write_then_read (hbs : ∃ i, (s.fsAt fs).layout.blockSize = 2 ^ i)
    (hlba : ∃ i, E.lbaSize = 2 ^ i) (hpage : (s.fsAt fs).layout.blockSize ≤ 4096)
    (hle : E.lbaSize ≤ 4096) (hfree : (s.fsAt fs).lock = false)
    (hapart : Apart buf (s.fsAt fs).layout.blockSize (s.fsAt fs).ioBuf E.lbaSize) (b : Nat) :
    ∃ ok t, ext2WriteBlocks E fs b buf s = (some ok, t) ∧ t.fsAt = s.fsAt ∧
      (ok = true ↔ (s.fsAt fs).layout.readOnly = false ∧ b < (s.fsAt fs).sb.sBlocksCount ∧
        (E.lbaSize ≤ (s.fsAt fs).layout.blockSize ∨ E.readOk s.transfers.length = true) ∧
        E.writeOk s.writes = true) ∧
      (ok = false → t.sectors = s.sectors) ∧
      (ok = true →
        (∀ E' dst u, E'.lbaSize = E.lbaSize → ext2ReadBlocks E' fs b dst t = (some true, u) →
          ∀ j < (s.fsAt fs).layout.blockSize, u.ram (dst + j) = s.ram (buf + j)) ∧
        (∀ b' < (s.fsAt fs).sb.sBlocksCount, b' ≠ b → ∀ E₁ E₂ dst u v,
          E₁.lbaSize = E.lbaSize → E₂.lbaSize = E.lbaSize →
          ext2ReadBlocks E₁ fs b' dst s = (some true, u) →
          ext2ReadBlocks E₂ fs b' dst t = (some true, v) →
          ∀ j < (s.fsAt fs).layout.blockSize, v.ram (dst + j) = u.ram (dst + j)) ∧
        ∀ k j, ¬(k < 2 ^ 64 ∧ j < E.lbaSize ∧ Within (b * (s.fsAt fs).layout.blockSize)
            (s.fsAt fs).layout.blockSize (wsub 64 k (s.fsAt fs).lbaStart * E.lbaSize + j)) →
          t.sectors k j = s.sectors k j) := by
  have hsized := Sized.of_powers hbs hlba hpage hle
  obtain ⟨ok, t, hrun, hw, hok⟩ := (writeBlocks_triple hsized hfree hapart (b := b)).returns
  refine ⟨ok, t, hrun, hw.fields, hok, hw.failed, fun hdone => ?_⟩
  have hp := hw.done hdone
  have hfs : t.fsAt fs = s.fsAt fs := by rw [hw.fields]
  have hdisk : ∀ c < (s.fsAt fs).sb.sBlocksCount,
      c * (s.fsAt fs).layout.blockSize + (s.fsAt fs).layout.blockSize ≤ 2 ^ 64 * E.lbaSize := by
    intro c hc
    have hend := (s.fsAt fs).sb.block_lt hpage hc
    have hall := Nat.mul_le_mul_left (2 ^ 64) hsized.sector.1
    omega
  refine ⟨fun E' dst u hl hread j hj => ?_, fun b' hb' hne E₁ E₂ dst u v hl₁ hl₂ hold hnew j hj => ?_,
    fun k j hno => hp.sector hno⟩
  · rw [readBlocks_at hsized hl hfs hread hj]
    exact hp.inside (hdisk b (hok.mp hdone).2.1) hj
  · rw [readBlocks_at hsized hl₂ hfs hnew hj, readBlocks_at hsized hl₁ rfl hold hj]
    exact hp.outside (by have := hdisk b' hb'; omega) (blocks_apart hne hj)

def narrowVolume : Kern :=
  { (freshKern fun _ => 0).putFs 1 { Partition.zero with
      sb := ⟨diskImage [(4, 4, 16)]⟩
      layout := { Partition.zero.layout with blockSize := 512 }
      ioBuf := 4096 } with
    ram := diskImage [(8192, 4, 77)] }

def wideSectors : Env := { allOk with lbaSize := 1024 }

/-- Block 7 is written and read again. -/
theorem write_then_read_narrow :
    ∃ t u, ext2WriteBlocks wideSectors 1 7 8192 narrowVolume = (some true, t) ∧
      ext2ReadBlocks wideSectors 1 7 12288 t = (some true, u) ∧
      ∀ j < 512, u.ram (12288 + j) = narrowVolume.ram (8192 + j) := by
  obtain ⟨u, hread⟩ := Prog.exists_state (show (ext2ReadBlocks wideSectors 1 7 12288
    (ext2WriteBlocks wideSectors 1 7 8192 narrowVolume).2).1 = some true by decide +kernel)
  have hwrite : (ext2WriteBlocks wideSectors 1 7 8192 narrowVolume).1 = some true := by
    decide +kernel
  have hbs : (narrowVolume.fsAt 1).layout.blockSize = 2 ^ 9 := rfl
  have hapart : Apart 8192 (narrowVolume.fsAt 1).layout.blockSize (narrowVolume.fsAt 1).ioBuf
    wideSectors.lbaSize := by decide
  obtain ⟨ok, t, hrun, -, -, -, hdone⟩ := write_then_read ⟨9, hbs⟩ ⟨10, rfl⟩ (by decide) (by decide)
    rfl hapart 7
  rw [hrun] at hwrite hread
  cases hwrite
  exact ⟨t, u, hrun, hread, (hdone rfl).1 wideSectors 12288 u rfl hread⟩

-- ---------------------------------------------------------------------------
-- The superblock
-- ---------------------------------------------------------------------------

/-- The sectors that the superblock is read from and written to have it, at byte
1024 of the partition. -/
structure SuperblockRange (l : Nat) : Prop where
  sector : 0 < l
  few : (bytesToBlocks 1024 1024 l).lba + (bytesToBlocks 1024 1024 l).sizeInBlocks ≤ 2 ^ 64
  place : (bytesToBlocks 1024 1024 l).lba * l + (bytesToBlocks 1024 1024 l).offset = 1024
  room : (bytesToBlocks 1024 1024 l).offset + sizeofSuperblock ≤
    (bytesToBlocks 1024 1024 l).sizeInBlocks * l

theorem superblockRange (hl : l = 512 ∨ l = 1024 ∨ l = 2048 ∨ l = 4096) : SuperblockRange l := by
  rcases hl with rfl | rfl | rfl | rfl <;> exact ⟨by decide, by decide, by decide, by decide⟩

theorem readSuperblock_bytes (h : SuperblockRange E.lbaSize)
    (hok : E.readOk s.transfers.length = true) :
    Triple (ext2ReadSuperblock E fs) s
      (fun ok v => ok = ((v.fsAt fs).sb.sMagic == ext2Magic) ∧ ∀ j < sizeofSuperblock,
        (v.fsAt fs).sb.bytes j = byteAt E.lbaSize s.sectors (s.fsAt fs).lbaStart (1024 + j))
      fun _ => False := by
  let r := bytesToBlocks 1024 1024 E.lbaSize
  let page := sectorPage E s (s.fsAt fs).ioBuf (wadd 64 (s.fsAt fs).lbaStart r.lba) r.sizeInBlocks
  let sb : Superblock :=
    ⟨(s.fsAt fs).sb.bytes.paste 0 page ((s.fsAt fs).ioBuf + r.offset) sizeofSuperblock⟩
  have hbytes : ∀ j < sizeofSuperblock,
      sb.bytes j = byteAt E.lbaSize s.sectors (s.fsAt fs).lbaStart (1024 + j) := by
    intro j hj
    have hpaste : sb.bytes (0 + j) = page ((s.fsAt fs).ioBuf + r.offset + j) :=
      Mem.paste_inside _ _ _ _ hj
    have hroom : r.offset + sizeofSuperblock ≤ r.sizeInBlocks * E.lbaSize := h.room
    have hplace : r.lba * E.lbaSize + r.offset = 1024 := h.place
    have hbyte : page ((s.fsAt fs).ioBuf + (r.offset + j)) = byteAt E.lbaSize s.sectors
        (s.fsAt fs).lbaStart (r.lba * E.lbaSize + (r.offset + j)) :=
      sectorPage_byte h.sector (by omega)
    rwa [Nat.zero_add, Nat.add_assoc, hbyte, ← Nat.add_assoc, hplace] at hpaste
  let t := (diskRead E (s.fsAt fs).ioBuf (wadd 64 (s.fsAt fs).lbaStart r.lba) r.sizeInBlocks s).2
  have hread : diskRead E (s.fsAt fs).ioBuf (wadd 64 (s.fsAt fs).lbaStart r.lba) r.sizeInBlocks s =
      (some true, t) := Prod.ext (congrArg some hok) rfl
  have hpage : t.ram = page := if_pos hok
  refine Triple.step rfl (Triple.step hread ?_)
  rw [if_pos rfl]
  refine Triple.step (show getRam t = (some page, t) from by rw [getRam, hpage]) ?_
  refine Triple.step rfl (Triple.pure ?_)
  rw [Kern.putFs_fs]
  exact ⟨rfl, hbytes⟩

theorem writeSuperblock_triple (h : SuperblockRange E.lbaSize) (hfree : (s.fsAt fs).lock = false) :
    Triple (ext2WriteSuperblock E fs) s
      (fun ok t => (∃ b, t.fsAt fs = { s.fsAt fs with sbDirty := b } ∧
          (ok = false → b = (s.fsAt fs).sbDirty)) ∧
        (ok = false → t.sectors = s.sectors) ∧
        (ok = true → Patched E.lbaSize s.sectors t.sectors (s.fsAt fs).lbaStart 1024
          sizeofSuperblock (s.fsAt fs).sb.bytes) ∧
        (ok = true ↔ (s.fsAt fs).layout.readOnly = false ∧
          E.readOk s.transfers.length = true ∧ E.writeOk s.writes = true))
      fun _ => False := by
  have hno : ∀ P : Prop, false = true → P := fun _ h => absurd h Bool.false_ne_true
  refine Triple.step rfl ?_
  split
  · rename_i hro
    exact Triple.pure ⟨⟨_, rfl, fun _ => rfl⟩, fun _ => rfl, hno _, hno _,
      fun hok => absurd (hok.1.symm.trans hro) Bool.false_ne_true⟩
  rename_i hro
  have hro := Bool.eq_false_iff.mpr hro
  have hrun := rewrite_triple (s.fsAt fs).ioBuf (s.fsAt fs).lbaStart (fun _ => (s.fsAt fs).sb.bytes)
    hfree h.sector h.few h.room fun _ _ j _ => congrArg (s.fsAt fs).sb.bytes (Nat.zero_add j)
  rw [h.place] at hrun
  refine Triple.bind hrun ?_
  rintro ok t ⟨hw, hok⟩
  have hfs : t.fsAt fs = s.fsAt fs := by rw [hw.fields]
  cases ok with
  | false =>
    refine Triple.pure ⟨⟨_, hfs, fun _ => rfl⟩, hw.failed, hno _, hno _, fun hyes => ?_⟩
    exact hok.mpr hyes.2
  | true =>
    refine Triple.step rfl (Triple.pure ⟨⟨false, ?_, fun hf => ?_⟩, fun hf => ?_, hw.done, ?_⟩)
    · rw [Kern.putFs_fs, hfs]
    · cases hf
    · cases hf
    · exact ⟨fun _ => ⟨hro, hok.mp rfl⟩, fun _ => rfl⟩

/-- The superblock that is written back is the one that is read next, by any
partition that starts there, and the rest of the disk is unchanged; a write that
fails changes neither the disk nor the mark. -/
theorem superblock_write_back
    (hl : E.lbaSize = 512 ∨ E.lbaSize = 1024 ∨ E.lbaSize = 2048 ∨ E.lbaSize = 4096)
    (hmagic : (s.fsAt fs).sb.sMagic = ext2Magic) (hfree : (s.fsAt fs).lock = false) :
    ∃ ok t, ext2WriteSuperblock E fs s = (some ok, t) ∧ (t.fsAt fs).lock = false ∧
      (ok = true ↔ (s.fsAt fs).layout.readOnly = false ∧
        E.readOk s.transfers.length = true ∧ E.writeOk s.writes = true) ∧
      (ok = false → t.sectors = s.sectors ∧ (t.fsAt fs).sbDirty = (s.fsAt fs).sbDirty) ∧
      (ok = true →
        (∀ E' fs' u, E'.lbaSize = E.lbaSize → u.sectors = t.sectors →
          (u.fsAt fs').lbaStart = (s.fsAt fs).lbaStart → E'.readOk u.transfers.length = true →
          ∃ v, ext2ReadSuperblock E' fs' u = (some true, v) ∧
            ∀ j < sizeofSuperblock, (v.fsAt fs').sb.bytes j = (s.fsAt fs).sb.bytes j) ∧
        ∀ k j, ¬(k < 2 ^ 64 ∧ j < E.lbaSize ∧ Within 1024 sizeofSuperblock
            (wsub 64 k (s.fsAt fs).lbaStart * E.lbaSize + j)) →
          t.sectors k j = s.sectors k j) := by
  have h := superblockRange hl
  obtain ⟨ok, t, hrun, ⟨b, hfs, hdirty⟩, hfailed, hdone, hok⟩ :=
    (writeSuperblock_triple h hfree).returns
  refine ⟨ok, t, hrun, by rw [hfs]; exact hfree, hok, fun hno => ⟨hfailed hno, ?_⟩, fun hyes => ?_⟩
  · rw [hfs]
    exact hdirty hno
  · have hp := hdone hyes
    refine ⟨fun E' fs' u hl' hsec hstart hread => ?_, fun k j hno => hp.sector hno⟩
    obtain ⟨ok', v, hrun', hmag, hbytes⟩ := (readSuperblock_bytes (hl' ▸ h) hread).returns
    have hsame : ∀ j < sizeofSuperblock, (v.fsAt fs').sb.bytes j = (s.fsAt fs).sb.bytes j := by
      intro j hj
      rw [hbytes j hj, hl', hsec, hstart]
      exact hp.inside (by have := h.sector; unfold sizeofSuperblock; omega) hj
    have hfound : (v.fsAt fs').sb.sMagic = ext2Magic := by
      refine Eq.trans ?_ hmagic
      exact Mem.load_congr fun x hx => hsame x (by have := hx.2; unfold sizeofSuperblock; omega)
    rw [hmag, hfound] at hrun'
    exact ⟨v, hrun', hsame⟩

/-- The small disk is mounted and its superblock written back. -/
theorem superblock_write_back_small :
    ∃ t, ext2WriteSuperblock allOk 1 mountedSmall = (some true, t) ∧
      ∃ v, ext2ReadSuperblock allOk 1 t = (some true, v) ∧
        ∀ j < sizeofSuperblock, (v.fsAt 1).sb.bytes j = (mountedSmall.fsAt 1).sb.bytes j := by
  have hmagic : (mountedSmall.fsAt 1).sb.sMagic = ext2Magic := by decide +kernel
  have hfree : (mountedSmall.fsAt 1).lock = false := by decide +kernel
  have hwritable : (mountedSmall.fsAt 1).layout.readOnly = false := by decide +kernel
  obtain ⟨ok, t, hrun, -, hok, -, hdone⟩ := superblock_write_back (E := allOk) (.inl rfl) hmagic hfree
  cases hok.mpr ⟨hwritable, rfl, rfl⟩
  have hstart : (t.fsAt 1).lbaStart = (mountedSmall.fsAt 1).lbaStart := by
    have ht : t = (ext2WriteSuperblock allOk 1 mountedSmall).2 := by rw [hrun]
    rw [ht]
    decide +kernel
  exact ⟨t, hrun, (hdone rfl).1 allOk 1 t rfl rfl hstart rfl⟩

end

end TomatoOs.Fs.Ext2
