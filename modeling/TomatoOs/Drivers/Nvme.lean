import TomatoOs.Lib.PhaseRing
import TomatoOs.Mem.Paging
import TomatoOs.Mem.Pmm

/-!
# The NVMe driver

`nvme.c`: the admin queue and one pair of I/O queues, both in memory that the
driver shares with the controller. The waiting loops poll the slot under the
head; one round of each loop is a function here, and what the controller does
between two rounds is left to the runs built on top of them.
-/

namespace TomatoOs.Drivers

open Lib Memory

def pageSize : Nat := 4096

structure NvmeCommand where
  cdw0 : Nat
  nsid : Nat
  prp1 : Nat
  prp2 : Nat
  cdw10 : Nat
  /-- the first two words of `cdw11_15` -/
  cdw11 : Nat
  cdw12 : Nat
deriving DecidableEq

def NvmeCommand.zero : NvmeCommand := ⟨0, 0, 0, 0, 0, 0, 0⟩

/-- The word of `struct nvme_completion` that the driver looks at. -/
structure NvmeCompletion where
  status : Nat
deriving DecidableEq

def NvmeCompletion.zero : NvmeCompletion := ⟨0⟩

/-- `status & 0x1` -/
def NvmeCompletion.tag (c : NvmeCompletion) : Nat := c.status % 2

structure NvmeQueue where
  address : Nat
  size : Nat
deriving DecidableEq

structure NvmePairQueue where
  sq : NvmeQueue
  cq : NvmeQueue
  sqTail : Nat
  cqHead : Nat
  phase : Nat
  qid : Nat
  sqDoorbell : Nat
  cqDoorbell : Nat
  lock : Bool
deriving DecidableEq

/-- The controller's record. The stride is `4 << dstrd` with four bits of
`dstrd`. -/
structure NvmeController where
  bar0 : Nat
  stride : Nat
  pageSize : Nat
  maxQueueEntries : Nat
  adminSq : NvmeQueue
  adminCq : NvmeQueue
  adminSqTail : Nat
  adminCqHead : Nat
  adminPhase : Nat
  mpsmin : Nat
  stride_pos : 0 < stride
  stride_le : stride ≤ 2 ^ 17
deriving DecidableEq

/-- What the driver works on: the page tables, the page allocator, and the
memory it shares with the controller. Queue pages are arrays of entries, behind
the physical address of the page; page lists are words of 64 bits. -/
structure Machine where
  tables : Vmm
  pmm : Pmm
  commands : Nat → Nat → NvmeCommand
  completions : Nat → Nat → NvmeCompletion
  words : Nat → Nat
  registers : Nat → Nat

def setEntry (f : Nat → Nat → α) (page i : Nat) (x : α) : Nat → Nat → α :=
  Function.update f page (Function.update (f page) i x)

@[simp] theorem setEntry_page (f : Nat → Nat → α) (page i : Nat) (x : α) :
    setEntry f page i x page = Function.update (f page) i x := Function.update_self ..

def Machine.writeRegister (m : Machine) (r v : Nat) : Machine :=
  { m with registers := Function.update m.registers r v }

-- ---------------------------------------------------------------------------
-- I/O queues
-- ---------------------------------------------------------------------------

structure IoRequest where
  opcode : Nat
  nsid : Nat
  buffer : Nat
  lba : Nat
  numBlocks : Nat
  transferBytes : Nat
deriving DecidableEq

def fillList (m : Machine) (buffer list : Nat) : Nat → Nat → Machine × Bool
  | 0, _ => (m, true)
  | k + 1, i =>
    let phys := getPhysicalAddress m.tables (wadd 64 buffer (wmul 64 i pageSize))
    if phys = 0 then (m, false)
    else
      fillList { m with words := Function.update m.words (wadd 64 list (8 * (i - 1))) phys }
        buffer list k (i + 1)

/-- The second data pointer, and the pages it needs. A list page that could
not be had is used all the same. -/
def dataPointer (m : Machine) (buffer numPages : Nat) : Machine × Option Nat :=
  if numPages = 1 then (m, some 0)
  else if numPages = 2 then
    let second := getPhysicalAddress m.tables (wadd 64 buffer pageSize)
    (m, if second = 0 then none else some second)
  else
    let (pmm, list) := pmmAllocPage m.pmm pageSize
    match fillList { m with pmm } buffer list (numPages - 1) 1 with
    | (m, true) => (m, some list)
    | (m, false) => ({ m with pmm := pmmFree m.pmm list 1 }, none)

/-- The command that `nvme_send_io` writes into the queue, unless a page of the
buffer has no physical address. -/
def buildCommand (m : Machine) (r : IoRequest) : Machine × Option NvmeCommand :=
  let phys := getPhysicalAddress m.tables r.buffer
  if phys = 0 then (m, none)
  else
    match dataPointer m r.buffer (pageNeeded r.transferBytes) with
    | (m, none) => (m, none)
    | (m, some prp2) =>
      (m, some { cdw0 := r.opcode, nsid := r.nsid, prp1 := phys, prp2,
                 cdw10 := r.lba % 2 ^ 32, cdw11 := r.lba / 2 ^ 32 % 2 ^ 32,
                 cdw12 := wsub 32 r.numBlocks 1 })

def queueCommand (m : Machine) (q : NvmePairQueue) (cmd : NvmeCommand) : Machine × NvmePairQueue :=
  let tail := wadd 64 q.sqTail 1 % wadd 64 q.sq.size 1
  ({ m with commands := setEntry m.commands q.sq.address q.sqTail cmd }.writeRegister
      q.sqDoorbell tail,
    { q with sqTail := tail })

def nvmeSendIo (m : Machine) (q : NvmePairQueue) (r : IoRequest) : Machine × NvmePairQueue :=
  match buildCommand m r with
  | (m, none) => (m, q)
  | (m, some cmd) => queueCommand m q cmd

/-- One round of `nvme_wait_io`: the completion under the head, once its tag is
the expected one. -/
def pollIo (m : Machine) (q : NvmePairQueue) : Option (NvmeCompletion × Machine × NvmePairQueue) :=
  let entry := m.completions q.cq.address q.cqHead
  if entry.tag = q.phase then
    let head := wadd 64 q.cqHead 1 % wadd 64 q.cq.size 1
    some (entry, m.writeRegister q.cqDoorbell (head % 2 ^ 32),
      { q with cqHead := head, phase := if head = 0 then q.phase ^^^ 1 else q.phase })
  else none

/-- `(status >> 1) & 0x7FFF` -/
def NvmeCompletion.statusCode (c : NvmeCompletion) : Nat := c.status / 2 % 2 ^ 15

-- ---------------------------------------------------------------------------
-- The admin queue
-- ---------------------------------------------------------------------------

def nvmeSubmitAdmin (m : Machine) (ctrl : NvmeController) (cmd : NvmeCommand) :
    Machine × NvmeController :=
  let next := wadd 64 ctrl.adminSqTail 1
  let tail := if next > 63 then 0 else next
  ({ m with commands := setEntry m.commands ctrl.adminSq.address ctrl.adminSqTail cmd }.writeRegister
      (wadd 64 ctrl.bar0 0x1000) tail,
    { ctrl with adminSqTail := tail })

/-- One round of `nvme_wait_admin`. It looks at eight bits of the status code. -/
def pollAdmin (m : Machine) (ctrl : NvmeController) : Option (Bool × Machine × NvmeController) :=
  let entry := m.completions ctrl.adminCq.address ctrl.adminCqHead
  if entry.tag = ctrl.adminPhase then
    let next := wadd 64 ctrl.adminCqHead 1
    let head := if next > 63 then 0 else next
    some (entry.status / 2 % 2 ^ 8 = 0,
      m.writeRegister (wadd 64 ctrl.bar0 (0x1000 + ctrl.stride)) (head % 2 ^ 32),
      { ctrl with
        adminCqHead := head
        adminPhase := if next > 63 then ctrl.adminPhase ^^^ 1 else ctrl.adminPhase })
  else none

-- ---------------------------------------------------------------------------
-- Initialisation
-- ---------------------------------------------------------------------------

theorem stride_bounds (cap : Nat) :
    0 < 4 <<< (cap / 2 ^ 32 % 16) ∧ 4 <<< (cap / 2 ^ 32 % 16) ≤ 2 ^ 17 := by
  have hlt : cap / 2 ^ 32 % 16 < 16 := Nat.mod_lt _ (by decide)
  generalize cap / 2 ^ 32 % 16 = d at hlt
  decide +revert

def Machine.mapPage (m : Machine) (virt phys flags numPages : Nat) : Machine :=
  let tables := Memory.mapPage (fun k => m.pmm.drawn (k - m.tables.calls)) m.tables virt phys flags
    numPages
  { m with tables, pmm := Pmm.draw^[tables.calls - m.tables.calls] m.pmm }

/-- `nvme_init` up to the point where the controller is ready: `cap` and `vs`
are what its registers hold. The pages of the admin queues are taken as they
are. -/
def nvmeInit (m : Machine) (hhdm pciBar0 pciBar1 progIf cap vs : Nat) :
    Option (Machine × NvmeController) :=
  if progIf ≠ 0x02 then none
  else
    let barPhys := pciBar1 <<< 32 ||| pciBar0 &&& 0xFFFFFFF0
    let bar0 := wadd 64 hhdm barPhys
    -- `PTE_PRESENT | PTE_WRITABLE | PTE_NOCACHE`
    let m := m.mapPage bar0 barPhys (1 ||| 2 ||| 16) 4
    if vs / 2 ^ 16 % 2 ^ 16 < 1 then none
    else if cap / 2 ^ 37 % 2 ^ 8 % 2 = 0 then none
    else if 0 < cap / 2 ^ 48 % 16 then none
    else
      let (pmm, sqPhys) := pmmAllocPage m.pmm 4096
      let (pmm, cqPhys) := pmmAllocPage pmm 4096
      -- `AQA`, `ASQ`, `ACQ` and `CC`
      let m := { m with pmm }.writeRegister (wadd 64 bar0 0x24) (63 ||| 63 <<< 16)
      let m := m.writeRegister (wadd 64 bar0 0x28) sqPhys
      let m := m.writeRegister (wadd 64 bar0 0x30) cqPhys
      let m := m.writeRegister (wadd 64 bar0 0x14) (6 <<< 16 ||| 4 <<< 20 ||| 1)
      some (m,
        { bar0, stride := 4 <<< (cap / 2 ^ 32 % 16), pageSize := 4096,
          maxQueueEntries := (cap % 2 ^ 16 + 1) % 2 ^ 16,
          adminSq := ⟨sqPhys, 63⟩, adminCq := ⟨cqPhys, 63⟩,
          adminSqTail := 0, adminCqHead := 0, adminPhase := 1, mpsmin := cap / 2 ^ 48 % 16,
          stride_pos := (stride_bounds cap).1, stride_le := (stride_bounds cap).2 })

def nvmeAllocQueue (m : Machine) : Machine × NvmeQueue :=
  let (pmm, phys) := pmmAllocPage m.pmm 4096
  ({ m with
      pmm
      commands := Function.update m.commands phys fun _ => .zero
      completions := Function.update m.completions phys fun _ => .zero },
    ⟨phys, 63⟩)

/-- `wait` is what a call of `nvme_wait_admin` comes to, with all that the
controller does meanwhile; `block` is the memory that `kmalloc` returned, and
`qid` is `nvme_qid_ptr`. -/
def nvmeCreateIoQueue (wait : Machine → NvmeController → Bool × Machine × NvmeController)
    (m : Machine) (ctrl : NvmeController) (block : NvmePairQueue) (qid : Nat) :
    Machine × NvmeController × Nat × Option NvmePairQueue :=
  let (m, cq) := nvmeAllocQueue m
  let (m, sq) := nvmeAllocQueue m
  let queue := { block with cq, sq, phase := 1, qid, lock := false }
  let (m, ctrl) := nvmeSubmitAdmin m ctrl
    { NvmeCommand.zero with
      cdw0 := 0x05, cdw10 := cq.size <<< 16 ||| qid, cdw11 := 0x1, prp1 := cq.address }
  match wait m ctrl with
  | (false, m, ctrl) => (m, ctrl, qid, none)
  | (true, m, ctrl) =>
    let (m, ctrl) := nvmeSubmitAdmin m ctrl
      { NvmeCommand.zero with
        cdw0 := 0x01, cdw10 := sq.size <<< 16 ||| qid, cdw11 := qid <<< 16 ||| 0x1,
        prp1 := sq.address }
    match wait m ctrl with
    | (false, m, ctrl) => (m, ctrl, qid, none)
    | (true, m, ctrl) =>
      let base := wadd 64 ctrl.bar0 0x1000
      (m, ctrl, wadd 8 qid 1,
        some { queue with
          sqDoorbell := wadd 64 base (wmul 32 (2 * qid) ctrl.stride)
          cqDoorbell := wadd 64 base (wmul 32 (2 * qid + 1) ctrl.stride) })

-- ---------------------------------------------------------------------------
-- The controller's side of a completion queue
-- ---------------------------------------------------------------------------

/-- What the controller has posted, and which of it each slot holds. -/
structure Posted where
  items : List NvmeCompletion
  origin : Nat → Option Nat

def Posted.empty : Posted := ⟨[], fun _ => none⟩

/-- The controller writes the next slot, with the tag of its pass. -/
def postCompletion (m : Machine) (page : Nat) (p : Posted) (c : NvmeCompletion) :
    Machine × Posted :=
  let k := p.items.length
  let c := { status := 2 * c.statusCode + PhaseRing.phase 64 k }
  ({ m with completions := setEntry m.completions page (k % 64) c },
    ⟨p.items ++ [c], Function.update p.origin (k % 64) (some k)⟩)

def Posted.Holds (p : Posted) (m : Machine) (page : Nat) (init : Nat → NvmeCompletion) : Prop :=
  PhaseRing.Holds 64 (fun x : NvmeCompletion × Option Nat => x.1.tag) (fun i => (init i, none))
    (fun i => (m.completions page i, p.origin i)) (p.items.mapIdx fun j c => (c, some j))

theorem tag_stamped (code k : Nat) : (2 * code + PhaseRing.phase 64 k) % 2 = PhaseRing.phase 64 k := by
  rw [PhaseRing.phase]
  split_ifs <;> omega

theorem posted_empty (m : Machine) (page : Nat) :
    Posted.empty.Holds m page (m.completions page) := .nil

theorem postCompletion_length (m : Machine) (page : Nat) (p : Posted) (c : NvmeCompletion) :
    (postCompletion m page p c).2.items.length = p.items.length + 1 :=
  List.length_append.trans (by rw [List.length_singleton])

theorem postCompletion_holds {p : Posted} (h : p.Holds m page init) (c : NvmeCompletion) :
    (postCompletion m page p c).2.Holds (postCompletion m page p c).1 page init := by
  have hpush := PhaseRing.Holds.push (x := ({
    status := 2 * c.statusCode + PhaseRing.phase 64 p.items.length }, some p.items.length)) h (by
      rw [List.length_mapIdx]
      exact tag_stamped ..)
  rw [List.length_mapIdx] at hpush
  simp only [postCompletion, Posted.Holds, List.mapIdx_concat, setEntry_page]
  convert hpush using 2
  rename_i i
  by_cases hi : i = p.items.length % 64
  · subst hi
    simp
  · simp [hi]

theorem Posted.Holds.under {p : Posted} (h : p.Holds m page init) (hc : p.items[k]? = some c)
    (hroom : p.items.length ≤ k + 64) :
    m.completions page (k % 64) = c ∧ p.origin (k % 64) = some k ∧ c.tag = PhaseRing.phase 64 k := by
  have hx : (p.items.mapIdx fun j c => (c, some j))[k]? = some (c, some k) := by
    rw [List.getElem?_mapIdx, hc]
    rfl
  obtain ⟨hslot, htag⟩ := PhaseRing.Holds.under h hx (by rwa [List.length_mapIdx])
  simp only [Prod.mk.injEq] at hslot
  rw [hslot.1] at htag
  exact ⟨hslot.1, hslot.2, htag⟩

theorem Posted.Holds.beyond {p : Posted} (h : p.Holds m page init) (hi : i < 64)
    (hle : p.items.length ≤ i) : m.completions page i = init i ∧ p.origin i = none := by
  have hslot := PhaseRing.Holds.unwritten h i hi (by rwa [List.length_mapIdx])
  simpa using hslot

theorem Posted.Holds.ready {p : Posted} (h : p.Holds m page init)
    (hinit : ∀ i < 64, (init i).tag = 0) (hle : k ≤ p.items.length)
    (hroom : p.items.length ≤ k + 64) :
    (m.completions page (k % 64)).tag = PhaseRing.phase 64 k ↔ k < p.items.length := by
  have hlen : (p.items.mapIdx fun j c => (c, some j)).length = p.items.length := List.length_mapIdx
  have htake := PhaseRing.Holds.take (m := k) h (by decide)
    (fun i hi => by
      rw [hinit i hi]
      decide)
    (by rwa [hlen]) (by rwa [hlen])
  rwa [hlen] at htake

def idleMachine (c : NvmeCompletion) : Machine :=
  { tables := ⟨0x1000, fun _ _ => .zero, 0⟩
    pmm := ⟨0x100000, 16, fun _ => 0⟩
    commands := fun _ _ => .zero
    completions := fun _ _ => c
    words := fun _ => 0
    registers := fun _ => 0 }

end TomatoOs.Drivers
