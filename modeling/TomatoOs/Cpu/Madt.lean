import TomatoOs.Lib.Bytes
import TomatoOs.Lib.Records
import TomatoOs.Lib.Words

/-!
# The tables that describe the interrupt controllers

`find_MADT` goes through the entries of the RSDT, and the loop in `init_apic`
through the records of the MADT behind its header. Both take their lengths from
the firmware. What they read is logged by its offset from the start of the
table, so that `reads_inside_iff` can say when it lies inside; `parses_iff` says
which well-formed tables the loop gets through.
-/

namespace TomatoOs.Cpu

open Lib

def sizeofHeader : Nat := 36

def sizeofMadt : Nat := 44

def tableLength (table : Mem) : Nat := table.load 4 4

def bytesAt (o n : Nat) : List Nat := List.range' o n

-- ---------------------------------------------------------------------------
-- find_MADT
-- ---------------------------------------------------------------------------

def isMadt (m : Mem) (header : Nat) : Bool :=
  [m header, m (header + 1), m (header + 2), m (header + 3)] = [0x41, 0x50, 0x49, 0x43]

def findLoop (m : Mem) (rsdt hhdm : Nat) : Nat → Nat → List Nat → Option Nat × List Nat
  | 0, _, reads => (none, reads)
  | k + 1, i, reads =>
    let o := sizeofHeader + 4 * i
    let header := wadd 64 ((m.behind rsdt).load o 4) hhdm
    let reads := reads ++ bytesAt o 4
    if isMadt m header then (some header, reads) else findLoop m rsdt hhdm k (i + 1) reads

/-- `find_MADT`, with the offsets of the entries it read. -/
def findMadt (m : Mem) (rsdt hhdm : Nat) : Option Nat × List Nat :=
  findLoop m rsdt hhdm (wsub 64 (tableLength (m.behind rsdt)) sizeofHeader / 4) 0 []

-- ---------------------------------------------------------------------------
-- init_apic
-- ---------------------------------------------------------------------------

structure IOApic where
  entryType : Nat
  recordLength : Nat
  ioapicId : Nat
  rsvd : Nat
  ioapicAddr : Nat
  globalSystemInterruptBase : Nat
deriving DecidableEq

def ioApicAt (table : Mem) (o : Nat) : IOApic :=
  { entryType := table.load o 1
    recordLength := table.load (o + 1) 1
    ioapicId := table.load (o + 2) 1
    rsvd := table.load (o + 3) 1
    ioapicAddr := table.load (o + 4) 4
    globalSystemInterruptBase := table.load (o + 8) 4 }

def entryType (table : Mem) (o : Nat) : Nat := table.load o 1

def recordLength (table : Mem) (o : Nat) : Nat := table.load (o + 1) 1

def irqSource (table : Mem) (o : Nat) : Nat := table.load (o + 3) 1

def globalSystemInterrupt (table : Mem) (o : Nat) : Nat := table.load (o + 4) 4

/-- What the loop leaves behind: the fields of `kernel`, where `iso` is the
offset of the record, the pages it maps, and the offsets it read. -/
structure Apic where
  ioapicDevice : IOApic
  ioapicAddr : Nat
  irqOverrides : Nat → Nat
  iso : Nat
  ioapicCount : Nat
  mapped : List (Nat × Nat)
  reads : List Nat

def Apic.read (s : Apic) (o n : Nat) : Apic := { s with reads := s.reads ++ bytesAt o n }

section
variable (table : Mem) (hhdm : Nat)

def madtRecord (s : Apic) (o : Nat) : Apic :=
  let s := s.read o 1
  match entryType table o with
  | 1 =>
    let ioapic := ioApicAt table o
    { s.read o 12 with
      ioapicDevice := ioapic
      ioapicAddr := ioapic.ioapicAddr
      mapped := s.mapped ++ [(wadd 64 ioapic.ioapicAddr hhdm, ioapic.ioapicAddr)]
      ioapicCount := s.ioapicCount + 1 }
  | 2 =>
    let source := irqSource table o
    let s := s.read (o + 3) 1
    if source < 16 then
      { s.read (o + 4) 4 with
        irqOverrides := Function.update s.irqOverrides source (globalSystemInterrupt table o)
        iso := o }
    else { s with iso := o }
  | _ => s

/-- The loop up to `stop`, until it halts (`false`) or is through; `left` is
`256 - entry_index`. -/
def madtLoop (stop : Nat) (left o : Nat) (s : Apic) : Bool × Apic :=
  if o < stop then
    let s := s.read (o + 1) 1
    if recordLength table o < 2 ∨ stop < o + recordLength table o then (false, s)
    else
      let s := madtRecord table hhdm s o
      match left with
      | 0 => (false, s)
      | left + 1 => madtLoop stop left (o + recordLength table o) s
  else (true, s)

def parseMadt (s : Apic) : Bool × Apic :=
  madtLoop table hhdm (tableLength table) 256 sizeofMadt
    { s with
      irqOverrides := fun i => if i < 16 then i else s.irqOverrides i
      ioapicCount := 0, reads := [] }

end

-- ---------------------------------------------------------------------------
-- Reading inside the tables
-- ---------------------------------------------------------------------------

/-- What is read of the record at `o` lies below `stop`. The fields of a record
are read only if its length lets it pass. -/
def Fits (table : Mem) (stop o : Nat) : Prop :=
  o + 2 ≤ stop ∧ (2 ≤ recordLength table o → o + recordLength table o ≤ stop →
    (entryType table o = 1 → o + 12 ≤ stop) ∧
      (entryType table o = 2 → o + 4 ≤ stop ∧ (irqSource table o < 16 → o + 8 ≤ stop)))

/-- `o` is the start of a record, with at most `left` others from `start` on
before it. -/
def Visited (table : Mem) (left start o : Nat) : Prop :=
  ∃ os, Records.Tiled (recordLength table) start os o ∧ (∀ p ∈ os, 2 ≤ recordLength table p) ∧
    os.length ≤ left

section
variable {table : Mem} {s : Apic}

theorem below_iff : (∀ r ∈ bytesAt o n, r < stop) ↔ n = 0 ∨ o + n ≤ stop := by
  simp only [bytesAt, List.mem_range'_1]
  constructor
  · intro h
    by_contra hn
    have := h (o + n - 1) (by omega)
    omega
  · intro h r hr
    omega

theorem madtRecord_reads (hhdm : Nat) (s : Apic) (ho : o < stop) :
    (∀ r ∈ (madtRecord table hhdm s o).reads, r < stop) ↔ (∀ r ∈ s.reads, r < stop) ∧
      (entryType table o = 1 → o + 12 ≤ stop) ∧
      (entryType table o = 2 → o + 4 ≤ stop ∧ (irqSource table o < 16 → o + 8 ≤ stop)) := by
  simp only [madtRecord]
  split
  · rename_i h
    simp only [Apic.read, List.forall_mem_append, below_iff, h]
    grind
  · rename_i h
    split
    · rename_i hsource
      simp only [Apic.read, List.forall_mem_append, below_iff, h, hsource]
      grind
    · rename_i hsource
      simp only [Apic.read, List.forall_mem_append, below_iff, h, hsource]
      grind
  · simp only [Apic.read, List.forall_mem_append, below_iff]
    grind

theorem visited_succ (hlen : 2 ≤ recordLength table o) :
    Visited table (left + 1) o p ↔
      p = o ∨ Visited table left (o + recordLength table o) p := by
  constructor
  · rintro ⟨os, htiled, hlens, hle⟩
    cases os with
    | nil => exact .inl htiled.symm
    | cons q os =>
      obtain ⟨-, htiled⟩ := htiled
      refine .inr ⟨os, htiled, fun p hp => hlens p (List.mem_cons_of_mem _ hp), ?_⟩
      exact Nat.le_of_succ_le_succ hle
  · rintro (rfl | ⟨os, htiled, hlens, hle⟩)
    · exact ⟨[], rfl, nofun, Nat.zero_le _⟩
    · exact ⟨o :: os, ⟨rfl, htiled⟩, List.forall_mem_cons.mpr ⟨hlen, hlens⟩, Nat.succ_le_succ hle⟩

theorem visited_last {P : Nat → Prop} (ho : o < stop)
    (hlast : left = 0 ∨ recordLength table o < 2 ∨ stop < o + recordLength table o) :
    (∀ p, Visited table left o p → p < stop → P p) ↔ P o := by
  refine ⟨fun h => h o ⟨[], rfl, nofun, Nat.zero_le _⟩ ho, ?_⟩
  rintro hP p ⟨os, htiled, hlens, hle⟩ hp
  cases os with
  | nil =>
    cases htiled
    exact hP
  | cons q os =>
    obtain ⟨rfl, htiled⟩ := htiled
    have hnext := htiled.le
    have hlen := hlens q List.mem_cons_self
    have hpos : 1 ≤ left := Nat.le_trans (Nat.succ_le_succ (Nat.zero_le _)) hle
    omega

theorem Visited.le (h : Visited table left o p) : o ≤ p := by
  obtain ⟨os, htiled, -⟩ := h
  exact htiled.le

section
variable {hhdm stop left o : Nat}

theorem madtLoop_end (ho : stop ≤ o) : madtLoop table hhdm stop left o s = (true, s) := by
  rw [madtLoop, if_neg (Nat.not_lt.mpr ho)]

theorem madtLoop_zero (hlen : 2 ≤ recordLength table o) (hin : o + recordLength table o ≤ stop) :
    madtLoop table hhdm stop 0 o s = (false, madtRecord table hhdm (s.read (o + 1) 1) o) := by
  rw [madtLoop, if_pos (by omega), if_neg (by omega)]

theorem madtLoop_succ (hlen : 2 ≤ recordLength table o) (hin : o + recordLength table o ≤ stop) :
    madtLoop table hhdm stop (left + 1) o s = madtLoop table hhdm stop left
      (o + recordLength table o) (madtRecord table hhdm (s.read (o + 1) 1) o) := by
  rw [madtLoop, if_pos (by omega), if_neg (by omega)]

end

theorem read_below (s : Apic) :
    (∀ r ∈ (s.read (o + 1) 1).reads, r < stop) ↔ (∀ r ∈ s.reads, r < stop) ∧ o + 2 ≤ stop := by
  simp only [Apic.read, List.forall_mem_append, below_iff, Nat.one_ne_zero, false_or]

/-- Whatever the loop reads lies below `stop` exactly if every record that it
visits fits. -/
theorem madtLoop_reads (hhdm stop left o : Nat) (s : Apic) :
    (∀ r ∈ (madtLoop table hhdm stop left o s).2.reads, r < stop) ↔
      (∀ r ∈ s.reads, r < stop) ∧ ∀ p, Visited table left o p → p < stop → Fits table stop p := by
  fun_induction madtLoop table hhdm stop left o s with
  | case1 left o s ho s' hbad =>
    have hvacuous : 2 ≤ recordLength table o → ¬o + recordLength table o ≤ stop := by omega
    rw [visited_last ho (.inr hbad), read_below, Fits]
    grind
  | case2 o s ho s' hgood =>
    rw [visited_last ho (.inl rfl), madtRecord_reads hhdm _ ho, read_below, Fits]
    grind
  | case3 o s ho s' hgood s'' left ih =>
    have hlen : 2 ≤ recordLength table o := by omega
    refine ih.trans ?_
    rw [madtRecord_reads hhdm _ ho, read_below]
    simp only [visited_succ hlen, or_imp, forall_and, forall_eq, Fits]
    grind
  | case4 left o s ho =>
    refine ⟨fun h => ⟨h, fun p hp hlt => absurd hp.le ?_⟩, fun h => h.1⟩
    omega

theorem findLoop_keeps (m : Mem) (rsdt hhdm k i : Nat) (hr : r ∈ reads) :
    r ∈ (findLoop m rsdt hhdm k i reads).2 := by
  induction k generalizing i reads with
  | zero => exact hr
  | succ k ih =>
    rw [findLoop]
    split
    · exact List.mem_append_left _ hr
    · exact ih (i + 1) (List.mem_append_left _ hr)

theorem findLoop_inside (m : Mem) (rsdt hhdm : Nat) (hk : sizeofHeader + 4 * (i + k) ≤ stop)
    (hr : ∀ r ∈ reads, r < stop) : ∀ r ∈ (findLoop m rsdt hhdm k i reads).2, r < stop := by
  induction k generalizing i reads with
  | zero => exact hr
  | succ k ih =>
    have hreads : ∀ r ∈ reads ++ bytesAt (sizeofHeader + 4 * i) 4, r < stop := by
      rw [List.forall_mem_append, below_iff]
      exact ⟨hr, .inr (by omega)⟩
    rw [findLoop]
    split
    · exact hreads
    · exact ih (by omega) hreads

/-- The number of entries wraps around if there is no room for the header. -/
theorem findMadt_reads (m : Mem) (rsdt hhdm : Nat) :
    (∀ r ∈ (findMadt m rsdt hhdm).2, r < tableLength (m.behind rsdt)) ↔
      sizeofHeader ≤ tableLength (m.behind rsdt) := by
  have hlt : tableLength (m.behind rsdt) < 2 ^ 32 := (m.behind rsdt).load_lt 4 4
  generalize hn : tableLength (m.behind rsdt) = n at hlt
  rw [findMadt, hn]
  constructor
  · intro h
    by_contra hshort
    obtain ⟨k, hk⟩ : ∃ k, wsub 64 n sizeofHeader / 4 = k + 1 := by
      refine Nat.exists_eq_add_one.mpr ?_
      simp only [wsub, sizeofHeader] at hshort ⊢
      omega
    have hfirst : sizeofHeader ∈ (findLoop m rsdt hhdm (k + 1) 0 []).2 := by
      rw [findLoop]
      split
      · exact List.mem_cons_self
      · exact findLoop_keeps m rsdt hhdm k 1 List.mem_cons_self
    exact hshort (h _ (hk ▸ hfirst)).le
  · intro hle
    refine findLoop_inside m rsdt hhdm ?_ (List.forall_mem_nil _)
    rw [wsub_eq hle (by omega)]
    omega

/-- Both walks stay inside their tables exactly if the RSDT has room for its
header, and every record of the MADT that is visited fits. -/
theorem reads_inside_iff (m : Mem) (rsdt hhdm : Nat) (table : Mem) (s : Apic) :
    (∀ r ∈ (findMadt m rsdt hhdm).2, r < tableLength (m.behind rsdt)) ∧
        (∀ r ∈ (parseMadt table hhdm s).2.reads, r < tableLength table) ↔
      sizeofHeader ≤ tableLength (m.behind rsdt) ∧
        ∀ o, Visited table 256 sizeofMadt o → o < tableLength table →
          Fits table (tableLength table) o := by
  rw [findMadt_reads, parseMadt, madtLoop_reads]
  simp

end

def blankTable (length : Nat) : Mem := Mem.store (fun _ => 0) 4 4 length

def blankApic : Apic :=
  { ioapicDevice := ⟨0, 0, 0, 0, 0, 0⟩, ioapicAddr := 0, irqOverrides := fun _ => 0, iso := 0
    ioapicCount := 0, mapped := [], reads := [] }

/-- An RSDT without room for a header is read, and so is the byte behind a MADT
that ends within a record's header. -/
theorem reads_outside :
    (¬∀ r ∈ (findMadt (fun _ => 0) 0 0).2, r < tableLength (Mem.behind (fun _ => 0) 0)) ∧
      ¬∀ r ∈ (parseMadt (blankTable 45) 0 blankApic).2.reads, r < tableLength (blankTable 45) := by
  constructor
  · rw [findMadt_reads]
    decide
  · intro h
    exact absurd (h 45 (by decide +kernel)) (by decide +kernel)

-- ---------------------------------------------------------------------------
-- Well-formed tables
-- ---------------------------------------------------------------------------

def sizeofRecord : Nat → Nat
  | 0 => 8
  | 1 => 12
  | 2 => 10
  | 3 => 10
  | 4 => 6
  | 5 => 12
  | 9 => 16
  | _ => 2

structure WellFormed (table : Mem) (os : List Nat) : Prop where
  tiled : Records.Tiled (recordLength table) sizeofMadt os (tableLength table)
  sizes : ∀ o ∈ os, sizeofRecord (entryType table o) ≤ recordLength table o

def isIoApic (table : Mem) (o : Nat) : Bool := entryType table o = 1

def isOverride (table : Mem) (i o : Nat) : Bool := entryType table o = 2 ∧ irqSource table o = i

/-- The loop got through, and the last records of each kind are in force. -/
structure Parses (table : Mem) (os : List Nat) (r : Bool × Apic) : Prop where
  through : r.1 = true
  overrides : ∀ i < 16, r.2.irqOverrides i =
    ((Records.last? (isOverride table i) os).map (globalSystemInterrupt table)).getD i
  device : ∀ o, Records.last? (isIoApic table) os = some o →
    r.2.ioapicDevice = ioApicAt table o ∧ r.2.ioapicAddr = (ioApicAt table o).ioapicAddr

section
variable {table : Mem} {s : Apic}

def madtRound (table : Mem) (hhdm : Nat) (s : Apic) (o : Nat) : Apic :=
  madtRecord table hhdm (s.read (o + 1) 1) o

theorem madtLoop_through (hhdm : Nat) (s : Apic) (h : Records.Tiled (recordLength table) o os stop)
    (hlens : ∀ p ∈ os, 2 ≤ recordLength table p) (hle : os.length ≤ left) :
    madtLoop table hhdm stop left o s = (true, os.foldl (madtRound table hhdm) s) := by
  induction os generalizing o left s with
  | nil => exact madtLoop_end (Nat.le_of_eq h.symm)
  | cons q os ih =>
    obtain ⟨rfl, h⟩ := h
    obtain ⟨hlen, hlens⟩ := List.forall_mem_cons.mp hlens
    cases left with
    | zero => cases hle
    | succ left =>
      rw [madtLoop_succ hlen h.le]
      exact ih _ h hlens (Nat.le_of_succ_le_succ hle)

theorem madtLoop_overflows (hhdm : Nat) (s : Apic)
    (h : Records.Tiled (recordLength table) o os stop)
    (hlens : ∀ p ∈ os, 2 ≤ recordLength table p) (hlt : left < os.length) :
    (madtLoop table hhdm stop left o s).1 = false := by
  induction os generalizing o left s with
  | nil => cases hlt
  | cons q os ih =>
    obtain ⟨rfl, h⟩ := h
    obtain ⟨hlen, hlens⟩ := List.forall_mem_cons.mp hlens
    cases left with
    | zero => rw [madtLoop_zero hlen h.le]
    | succ left =>
      rw [madtLoop_succ hlen h.le]
      exact ih _ h hlens (Nat.lt_of_succ_lt_succ hlt)

theorem rounds_overrides (hhdm : Nat) (hi : i < 16) (os : List Nat) (s : Apic) :
    (os.foldl (madtRound table hhdm) s).irqOverrides i =
      ((Records.last? (isOverride table i) os).map (globalSystemInterrupt table)).getD
        (s.irqOverrides i) := by
  refine Records.foldl_last (fun s : Apic => s.irqOverrides i) (fun s o ho => ?_)
    (fun s o ho => ?_) os s
  · obtain ⟨htype, rfl⟩ := of_decide_eq_true ho
    simp [madtRound, madtRecord, Apic.read, htype, hi]
  · have hne := of_decide_eq_false ho
    simp only [madtRound, madtRecord, Apic.read]
    split
    · rfl
    · rename_i htype
      split
      · exact Function.update_of_ne (fun heq => hne ⟨htype, heq.symm⟩) ..
      · rfl
    · rfl

theorem rounds_device (table : Mem) (hhdm : Nat) (os : List Nat) (s : Apic) :
    ((os.foldl (madtRound table hhdm) s).ioapicDevice,
        (os.foldl (madtRound table hhdm) s).ioapicAddr) =
      ((Records.last? (isIoApic table) os).map fun o =>
        (ioApicAt table o, (ioApicAt table o).ioapicAddr)).getD (s.ioapicDevice, s.ioapicAddr) := by
  refine Records.foldl_last (fun s : Apic => (s.ioapicDevice, s.ioapicAddr))
    (fun s o ho => ?_) (fun s o ho => ?_) os s
  · simp [madtRound, madtRecord, Apic.read, of_decide_eq_true ho]
  · have hne := of_decide_eq_false ho
    simp only [madtRound, madtRecord, Apic.read]
    split
    · rename_i htype
      exact absurd htype hne
    · split <;> rfl
    · rfl

theorem sizeofRecord_pos (t : Nat) : 2 ≤ sizeofRecord t := by
  unfold sizeofRecord
  split <;> decide

/-- A well-formed table is parsed exactly if it has at most 256 records. -/
theorem parses_iff (hhdm : Nat) (s : Apic) (h : WellFormed table os) :
    Parses table os (parseMadt table hhdm s) ↔ os.length ≤ 256 := by
  have hlens : ∀ o ∈ os, 2 ≤ recordLength table o :=
    fun o ho => (sizeofRecord_pos _).trans (h.sizes o ho)
  constructor
  · intro hp
    by_contra hlt
    have hthrough := hp.through
    rw [parseMadt, madtLoop_overflows hhdm _ h.tiled hlens (Nat.lt_of_not_le hlt)] at hthrough
    cases hthrough
  · intro hle
    rw [parseMadt, madtLoop_through hhdm _ h.tiled hlens hle]
    refine ⟨rfl, fun i hi => ?_, fun o ho => Prod.mk.inj ?_⟩
    · rw [rounds_overrides hhdm hi]
      simp [hi]
    · rw [rounds_device, ho]
      rfl

end

def smallMadt : Mem :=
  let table := Mem.store (blankTable 66) 44 2 0x0C01
  let table := Mem.store table 48 4 0xFEC00000
  let table := Mem.store table 56 2 0x0A02
  Mem.store table 60 4 2

theorem parses_iff_small : Parses smallMadt [44, 56] (parseMadt smallMadt 0 blankApic) :=
  (parses_iff 0 blankApic ⟨by decide +kernel, by decide +kernel⟩).mpr (by decide)

def processors (n : Nat) : Mem := fun o =>
  if o < 44 then blankTable (44 + 8 * n) o else if (o - 44) % 8 = 1 then 8 else 0

theorem too_many_processors :
    ∃ os, WellFormed (processors 257) os ∧ (parseMadt (processors 257) 0 blankApic).1 = false :=
  ⟨(List.range 257).map (44 + 8 * ·), ⟨by decide +kernel, by decide +kernel⟩, by decide +kernel⟩

end TomatoOs.Cpu
