import TomatoOs.Lib.Bytes

/-!
# Segment descriptors and interrupt gates

`setGdtGate`, `write_tss` and `setIdtGate` scatter a base, a limit and a few
attributes over the bytes of a table entry. The processor gathers them again;
what it finds there is the meaning of an entry. `setGdtGate` never assigns
`limit_high`, so the upper bits of a limit are whatever the entry held before.
-/

namespace TomatoOs.Cpu

open Lib

-- ---------------------------------------------------------------------------
-- gdt.c
-- ---------------------------------------------------------------------------

structure TssEntry where
  rsp0 : Nat
  iopbOffset : Nat
deriving DecidableEq

def sizeofTssEntry : Nat := 10

/-- The globals of `gdt.c`: the bytes of `gdt_entries` and of `gdt_tss_entry`, and
`tss`. -/
structure Gdt where
  entries : Mem
  tssEntry : Mem
  tss : TssEntry

def putLimitHigh (m : Mem) (entry limitHigh : Nat) : Mem :=
  m.store (entry + 6) 1 (m.load (entry + 6) 1 / 16 * 16 + limitHigh % 16)

def putFlags (m : Mem) (entry flags : Nat) : Mem :=
  m.store (entry + 6) 1 (m.load (entry + 6) 1 % 16 + 16 * (flags % 16))

def setGdtGate (num base limit access gran : Nat) (s : Gdt) : Gdt :=
  let entry := 8 * num
  let m := s.entries.store entry 2 (limit % 2 ^ 16)
  let m := m.store (entry + 2) 2 (base % 2 ^ 16)
  let m := m.store (entry + 4) 1 (base / 2 ^ 16 % 2 ^ 8)
  let m := m.store (entry + 7) 1 (base / 2 ^ 24 % 2 ^ 8)
  let m := putFlags m entry gran
  let m := m.store (entry + 5) 1 access
  { s with entries := m }

/-- The entry is built in `gdt_tss_entry` and copied over two slots. -/
def writeTss (num base limit access gran : Nat) (s : Gdt) : Gdt :=
  let m := s.tssEntry.store 0 2 (limit % 2 ^ 16)
  let m := m.store 2 2 (base % 2 ^ 16)
  let m := m.store 4 1 (base / 2 ^ 16 % 2 ^ 8)
  let m := m.store 7 1 (base / 2 ^ 24 % 2 ^ 8)
  let m := m.store 8 4 (base / 2 ^ 32)
  let m := m.store 5 1 access
  let m := putLimitHigh m 0 (limit / 2 ^ 16 % 2 ^ 4)
  let m := putFlags m 0 (gran % 2 ^ 4)
  let m := m.store 12 4 0
  { entries := s.entries.paste (8 * num) m 0 16
    tssEntry := m
    tss := { rsp0 := 0xFFFFFFFF80000000, iopbOffset := sizeofTssEntry } }

/-- `initGdt` up to the loads of the registers, with the address of `tss`. -/
def initGdt (tss : Nat) (s : Gdt) : Gdt :=
  let s := setGdtGate 0 0 0 0 0 s
  let s := setGdtGate 1 0 0xFFFFF 0x9A 0xA s
  let s := setGdtGate 2 0 0xFFFFF 0x92 0xC s
  let s := setGdtGate 3 0 0xFFFFF 0xFA 0xA s
  let s := setGdtGate 4 0 0xFFFFF 0xF2 0xC s
  writeTss 5 tss (sizeofTssEntry - 1) 0x89 0 s

-- ---------------------------------------------------------------------------
-- idt.c
-- ---------------------------------------------------------------------------

def setIdtGate (num base sel flags : Nat) (idt : Mem) : Mem :=
  let entry := 16 * num
  let m := idt.store entry 2 (base % 2 ^ 16)
  let m := m.store (entry + 6) 2 (base / 2 ^ 16 % 2 ^ 16)
  let m := m.store (entry + 8) 4 (base / 2 ^ 32)
  let m := m.store (entry + 2) 2 sel
  let m := m.store (entry + 5) 1 flags
  m.store (entry + 4) 1 0

-- ---------------------------------------------------------------------------
-- What the processor reads
-- ---------------------------------------------------------------------------

structure Segment where
  base : Nat
  limit : Nat
  access : Nat
  flags : Nat
deriving DecidableEq

def segmentAt (m : Mem) (entry : Nat) : Segment :=
  let w := m.load entry 8
  { base := w / 2 ^ 16 % 2 ^ 24 + 2 ^ 24 * (w / 2 ^ 56)
    limit := w % 2 ^ 16 + 2 ^ 16 * (w / 2 ^ 48 % 2 ^ 4)
    access := w / 2 ^ 40 % 2 ^ 8
    flags := w / 2 ^ 52 % 2 ^ 4 }

/-- A system descriptor: the second slot has the upper half of the base. -/
def systemSegmentAt (m : Mem) (entry : Nat) : Segment :=
  { segmentAt m entry with
    base := (segmentAt m entry).base + 2 ^ 32 * (m.load (entry + 8) 8 % 2 ^ 32) }

structure Gate where
  handler : Nat
  selector : Nat
  ist : Nat
  flags : Nat
deriving DecidableEq

def gateAt (m : Mem) (entry : Nat) : Gate :=
  let w := m.load entry 8
  { handler := w % 2 ^ 16 + 2 ^ 16 * (w / 2 ^ 48) + 2 ^ 32 * (m.load (entry + 8) 8 % 2 ^ 32)
    selector := w / 2 ^ 16 % 2 ^ 16
    ist := w / 2 ^ 32 % 2 ^ 3
    flags := w / 2 ^ 40 % 2 ^ 8 }

def SameOutside (a n : Nat) (m m' : Mem) : Prop := ∀ x, ¬Within a n x → m' x = m x

-- ---------------------------------------------------------------------------
-- The fields of an entry
-- ---------------------------------------------------------------------------

section
variable {m m' : Mem} {s : Gdt}

theorem SameOutside.rfl : SameOutside a n m m := fun _ _ => Eq.refl _

theorem SameOutside.store (h : SameOutside a n m m') (hlo : a ≤ b) (hhi : b + k ≤ a + n) :
    SameOutside a n m (m'.store b k v) := by
  intro x hx
  have hb : ¬Within b k x := fun hw => hx ⟨hlo.trans hw.1, hw.2.trans_le hhi⟩
  rw [Mem.store_outside hb, h x hx]

theorem load_slot (m : Mem) (entry : Nat) :
    m.load entry 8 = m.load entry 2 + 2 ^ 16 * m.load (entry + 2) 2 +
      2 ^ 32 * m.load (entry + 4) 1 + 2 ^ 40 * m.load (entry + 5) 1 +
      2 ^ 48 * m.load (entry + 6) 1 + 2 ^ 56 * m.load (entry + 7) 1 := by
  have h2 := m.load_add (entry + 2) 2 4
  have h4 := m.load_add (entry + 4) 1 3
  have h5 := m.load_add (entry + 5) 1 2
  have h6 := m.load_add (entry + 6) 1 1
  rw [m.load_add entry 2 6, h2, h4, h5, h6]
  ring

theorem segmentAt_eq (m : Mem) (entry : Nat) :
    segmentAt m entry =
      { base := m.load (entry + 2) 2 + 2 ^ 16 * m.load (entry + 4) 1 + 2 ^ 24 * m.load (entry + 7) 1
        limit := m.load entry 2 + 2 ^ 16 * (m.load (entry + 6) 1 % 16)
        access := m.load (entry + 5) 1
        flags := m.load (entry + 6) 1 / 16 } := by
  have h0 := m.load_lt entry 2
  have h2 := m.load_lt (entry + 2) 2
  have h4 := m.load_lt (entry + 4) 1
  have h5 := m.load_lt (entry + 5) 1
  have h6 := m.load_lt (entry + 6) 1
  have h7 := m.load_lt (entry + 7) 1
  rw [segmentAt, load_slot]
  simp only [Segment.mk.injEq]
  omega

theorem segmentAt_congr (h : ∀ x, Within entry 8 x → m' x = m x) :
    segmentAt m' entry = segmentAt m entry := by
  rw [segmentAt, segmentAt, Mem.load_congr h]

theorem base_split (base : Nat) :
    base % 2 ^ 16 + 2 ^ 16 * (base / 2 ^ 16 % 2 ^ 8) + 2 ^ 24 * (base / 2 ^ 24 % 2 ^ 8) =
      base % 2 ^ 32 := by
  have h24 : base / 2 ^ 24 = base / 2 ^ 16 / 2 ^ 8 :=
    (Nat.div_div_eq_div_mul base (2 ^ 16) (2 ^ 8)).symm
  have h32 : base / 2 ^ 32 = base / 2 ^ 24 / 2 ^ 8 :=
    (Nat.div_div_eq_div_mul base (2 ^ 24) (2 ^ 8)).symm
  omega

-- ---------------------------------------------------------------------------
-- setGdtGate
-- ---------------------------------------------------------------------------

theorem setGdtGate_fields (num base limit gran : Nat) (ha : access < 2 ^ 8) (s : Gdt) :
    let m := (setGdtGate num base limit access gran s).entries
    m.load (8 * num) 2 = limit % 2 ^ 16 ∧ m.load (8 * num + 2) 2 = base % 2 ^ 16 ∧
      m.load (8 * num + 4) 1 = base / 2 ^ 16 % 2 ^ 8 ∧ m.load (8 * num + 5) 1 = access ∧
      m.load (8 * num + 6) 1 = s.entries.load (8 * num + 6) 1 % 16 + 16 * (gran % 16) ∧
      m.load (8 * num + 7) 1 = base / 2 ^ 24 % 2 ^ 8 := by
  simp (disch := first | omega | (unfold Apart; omega)) only [setGdtGate, putFlags,
    Mem.load_store_eq, Mem.load_store_of_apart, and_self]

/-- The upper four bits of the limit come from the entry as it was. -/
theorem segmentAt_setGdtGate (num limit : Nat) (hb : base < 2 ^ 32) (ha : access < 2 ^ 8)
    (hg : gran < 2 ^ 4) (s : Gdt) :
    segmentAt (setGdtGate num base limit access gran s).entries (8 * num) =
      { base, access, flags := gran
        limit := limit % 2 ^ 16 + 2 ^ 16 * ((segmentAt s.entries (8 * num)).limit / 2 ^ 16) } := by
  obtain ⟨h0, h2, h4, h5, h6, h7⟩ := setGdtGate_fields num base limit gran ha s
  have hlow := s.entries.load_lt (8 * num) 2
  rw [segmentAt_eq, segmentAt_eq, h0, h2, h4, h5, h6, h7, base_split, Nat.mod_eq_of_lt hb]
  simp only [Segment.mk.injEq, true_and]
  omega

theorem setGdtGate_sameOutside (num base limit access gran : Nat) (s : Gdt) :
    SameOutside (8 * num) 8 s.entries (setGdtGate num base limit access gran s).entries := by
  refine SameOutside.store (SameOutside.store (SameOutside.store (SameOutside.store
    (SameOutside.store (SameOutside.store .rfl ?_ ?_) ?_ ?_) ?_ ?_) ?_ ?_) ?_ ?_) ?_ ?_ <;> omega

-- ---------------------------------------------------------------------------
-- write_tss
-- ---------------------------------------------------------------------------

theorem writeTss_fields (num limit gran : Nat) (hb : base < 2 ^ 64) (ha : access < 2 ^ 8)
    (s : Gdt) :
    let m := (writeTss num base limit access gran s).tssEntry
    m.load 0 2 = limit % 2 ^ 16 ∧ m.load 2 2 = base % 2 ^ 16 ∧
      m.load 4 1 = base / 2 ^ 16 % 2 ^ 8 ∧ m.load 5 1 = access ∧
      m.load 6 1 = limit / 2 ^ 16 % 2 ^ 4 + 16 * (gran % 2 ^ 4) ∧
      m.load 7 1 = base / 2 ^ 24 % 2 ^ 8 ∧ m.load 8 4 = base / 2 ^ 32 := by
  have h6 := s.tssEntry.load_lt 6 1
  simp (disch := first | omega | (unfold Apart; omega)) only [writeTss, putFlags, putLimitHigh,
    Nat.zero_add, Mem.load_store_eq, Mem.load_store_of_apart, true_and, and_true]
  omega

theorem writeTss_load (num base limit access gran : Nat) (s : Gdt) (h : o + n ≤ 16) :
    (writeTss num base limit access gran s).entries.load (8 * num + o) n =
      (writeTss num base limit access gran s).tssEntry.load o n := by
  refine Mem.load_eq fun i hi => ?_
  simp only [writeTss]
  rw [Nat.add_assoc, Mem.paste_inside _ _ _ _ (by omega), Nat.zero_add]

theorem systemSegmentAt_writeTss (num : Nat) (hb : base < 2 ^ 64) (hl : limit < 2 ^ 20)
    (ha : access < 2 ^ 8) (hg : gran < 2 ^ 4) (s : Gdt) :
    systemSegmentAt (writeTss num base limit access gran s).entries (8 * num) =
      { base, limit, access, flags := gran } := by
  obtain ⟨h0, h2, h4, h5, h6, h7, h8⟩ := writeTss_fields num limit gran hb ha s
  have hcopy := fun o n => writeTss_load num base limit access gran s (o := o) (n := n)
  have hupper : (writeTss num base limit access gran s).entries.load (8 * num + 8) 8 % 2 ^ 32 =
      base / 2 ^ 32 := by
    rw [Mem.load_add _ _ 4 4, hcopy 8 4 (by decide), h8]
    omega
  have hlow := hcopy 0 2 (by decide)
  rw [Nat.add_zero] at hlow
  rw [systemSegmentAt, hupper, segmentAt_eq, hlow, hcopy 2 2 (by decide), hcopy 4 1 (by decide),
    hcopy 5 1 (by decide), hcopy 6 1 (by decide), hcopy 7 1 (by decide), h0, h2, h4, h5, h6, h7,
    base_split, Nat.mod_add_div]
  simp only [Segment.mk.injEq, true_and]
  omega

theorem writeTss_sameOutside (num base limit access gran : Nat) (s : Gdt) :
    SameOutside (8 * num) 16 s.entries (writeTss num base limit access gran s).entries :=
  fun _ hx => Mem.paste_outside hx

-- ---------------------------------------------------------------------------
-- setIdtGate
-- ---------------------------------------------------------------------------

theorem gateAt_setIdtGate (num : Nat) (hb : base < 2 ^ 64) (hs : sel < 2 ^ 16) (hf : flags < 2 ^ 8)
    (idt : Mem) :
    gateAt (setIdtGate num base sel flags idt) (16 * num) =
      { handler := base, selector := sel, ist := 0, flags } := by
  -- the six fields that are assigned
  have hfields : (setIdtGate num base sel flags idt).load (16 * num) 2 = base % 2 ^ 16 ∧
      (setIdtGate num base sel flags idt).load (16 * num + 2) 2 = sel ∧
      (setIdtGate num base sel flags idt).load (16 * num + 4) 1 = 0 ∧
      (setIdtGate num base sel flags idt).load (16 * num + 5) 1 = flags ∧
      (setIdtGate num base sel flags idt).load (16 * num + 6) 2 = base / 2 ^ 16 % 2 ^ 16 ∧
      (setIdtGate num base sel flags idt).load (16 * num + 8) 4 = base / 2 ^ 32 := by
    simp (disch := first | omega | (unfold Apart; omega)) only [setIdtGate, Mem.load_store_eq,
      Mem.load_store_of_apart, and_self]
  obtain ⟨h0, h2, h4, h5, h6, h8⟩ := hfields
  have hmid : (setIdtGate num base sel flags idt).load (16 * num + 6) 1 +
      256 * (setIdtGate num base sel flags idt).load (16 * num + 7) 1 = base / 2 ^ 16 % 2 ^ 16 :=
    (Mem.load_add _ (16 * num + 6) 1 1).symm.trans h6
  have hupper : (base / 2 ^ 32 +
      256 ^ 4 * Mem.load (setIdtGate num base sel flags idt) (16 * num + 8 + 4) 4) % 2 ^ 32 =
        base / 2 ^ 32 := by
    omega
  have hslot : Mem.load (setIdtGate num base sel flags idt) (16 * num) 8 =
      base % 2 ^ 16 + 2 ^ 16 * sel + 2 ^ 40 * flags + 2 ^ 48 * (base / 2 ^ 16 % 2 ^ 16) := by
    rw [load_slot, h0, h2, h4, h5]
    omega
  rw [gateAt, hslot, Mem.load_add _ (16 * num + 8) 4 4, h8, hupper]
  simp only [Gate.mk.injEq]
  omega

theorem setIdtGate_sameOutside (num base sel flags : Nat) (idt : Mem) :
    SameOutside (16 * num) 16 idt (setIdtGate num base sel flags idt) := by
  refine SameOutside.store (SameOutside.store (SameOutside.store (SameOutside.store
    (SameOutside.store (SameOutside.store .rfl ?_ ?_) ?_ ?_) ?_ ?_) ?_ ?_) ?_ ?_) ?_ ?_ <;> omega

-- ---------------------------------------------------------------------------
-- What is kept of the values
-- ---------------------------------------------------------------------------

/-- The entry decodes to the values it was made from, and no other changes. -/
def GdtGateKept (num base limit access gran : Nat) (s : Gdt) : Prop :=
  segmentAt (setGdtGate num base limit access gran s).entries (8 * num) =
      { base, limit, access, flags := gran } ∧
    SameOutside (8 * num) 8 s.entries (setGdtGate num base limit access gran s).entries

def TssKept (num base limit access gran : Nat) (s : Gdt) : Prop :=
  systemSegmentAt (writeTss num base limit access gran s).entries (8 * num) =
      { base, limit, access, flags := gran } ∧
    SameOutside (8 * num) 16 s.entries (writeTss num base limit access gran s).entries

def IdtGateKept (num base sel flags : Nat) (idt : Mem) : Prop :=
  gateAt (setIdtGate num base sel flags idt) (16 * num) =
      { handler := base, selector := sel, ist := 0, flags } ∧
    SameOutside (16 * num) 16 idt (setIdtGate num base sel flags idt)

theorem gdtGateKept_iff (num limit : Nat) (hb : base < 2 ^ 32) (ha : access < 2 ^ 8)
    (hg : gran < 2 ^ 4) (s : Gdt) :
    GdtGateKept num base limit access gran s ↔
      (segmentAt s.entries (8 * num)).limit / 2 ^ 16 = limit / 2 ^ 16 := by
  rw [GdtGateKept, segmentAt_setGdtGate num limit hb ha hg s,
    and_iff_left (setGdtGate_sameOutside num base limit access gran s)]
  simp only [Segment.mk.injEq, true_and, and_true]
  omega

/-- Of the three encoders only `setGdtGate` loses anything: it is lossless exactly
where the entry already has the upper four bits of the limit. -/
theorem descriptors_kept_iff (s : Gdt) (idt : Mem) (num tssNum vector : Nat) (base : BitVec 32)
    (tssBase handler : BitVec 64) (limit tssLimit : BitVec 20) (access tssAccess flags : BitVec 8)
    (gran tssGran : BitVec 4) (sel : BitVec 16) :
    GdtGateKept num base.toNat limit.toNat access.toNat gran.toNat s ∧
        TssKept tssNum tssBase.toNat tssLimit.toNat tssAccess.toNat tssGran.toNat s ∧
        IdtGateKept vector handler.toNat sel.toNat flags.toNat idt ↔
      (segmentAt s.entries (8 * num)).limit / 2 ^ 16 = limit.toNat / 2 ^ 16 := by
  have htss : TssKept tssNum tssBase.toNat tssLimit.toNat tssAccess.toNat tssGran.toNat s :=
    ⟨systemSegmentAt_writeTss tssNum tssBase.isLt tssLimit.isLt tssAccess.isLt tssGran.isLt s,
      writeTss_sameOutside _ _ _ _ _ s⟩
  have hidt : IdtGateKept vector handler.toNat sel.toNat flags.toNat idt :=
    ⟨gateAt_setIdtGate vector handler.isLt sel.isLt flags.isLt idt,
      setIdtGate_sameOutside _ _ _ _ idt⟩
  rw [and_iff_left ⟨htss, hidt⟩]
  exact gdtGateKept_iff num limit.toNat base.isLt access.isLt gran.isLt s

/-- The kernel's code segment, as `initGdt` sets it in a table of zeroes. -/
theorem code_segment_cut :
    ¬GdtGateKept 1 0 0xFFFFF 0x9A 0xA
      { entries := fun _ => 0, tssEntry := fun _ => 0, tss := ⟨0, 0⟩ } := by
  rintro ⟨h, -⟩
  exact absurd h (by decide)

-- ---------------------------------------------------------------------------
-- initGdt
-- ---------------------------------------------------------------------------

theorem segmentAt_setGdtGate_ne (h : k ≠ num) (base limit access gran : Nat) (s : Gdt) :
    segmentAt (setGdtGate num base limit access gran s).entries (8 * k) =
      segmentAt s.entries (8 * k) := by
  refine segmentAt_congr fun x hx => setGdtGate_sameOutside num base limit access gran s x ?_
  unfold Within at *
  omega

theorem segmentAt_writeTss_ne (h : k < num) (base limit access gran : Nat) (s : Gdt) :
    segmentAt (writeTss num base limit access gran s).entries (8 * k) =
      segmentAt s.entries (8 * k) := by
  refine segmentAt_congr fun x hx => writeTss_sameOutside num base limit access gran s x ?_
  unfold Within at *
  omega

/-- The segments of the kernel and of user programs have the limit 0xFFFF, with
upper bits from before, and the task state segment is as it was asked for. -/
theorem initGdt_segments (ht : tss < 2 ^ 64) (s : Gdt) :
    (∀ p ∈ [(1, 0x9A, 0xA), (2, 0x92, 0xC), (3, 0xFA, 0xA), (4, 0xF2, 0xC)],
      segmentAt (initGdt tss s).entries (8 * p.1) =
        { base := 0, access := p.2.1, flags := p.2.2
          limit := 0xFFFF + 2 ^ 16 * ((segmentAt s.entries (8 * p.1)).limit / 2 ^ 16) }) ∧
      systemSegmentAt (initGdt tss s).entries (8 * 5) =
        { base := tss, limit := 9, access := 0x89, flags := 0 } := by
  refine ⟨?_, systemSegmentAt_writeTss 5 ht (by decide) (by decide) (by decide) _⟩
  simp only [List.forall_mem_cons, List.not_mem_nil, IsEmpty.forall_iff, implies_true, and_true]
  refine ⟨?_, ?_, ?_, ?_⟩ <;>
    simp (disch := decide) only [initGdt, segmentAt_writeTss_ne, segmentAt_setGdtGate_ne,
      segmentAt_setGdtGate, Nat.reducePow, Nat.reduceMod]

end

end TomatoOs.Cpu
