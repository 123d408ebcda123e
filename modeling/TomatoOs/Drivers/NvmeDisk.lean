import TomatoOs.Drivers.NvmePointers
import TomatoOs.Fs.Ext2.Mount

/-!
# The driver as a disk

`nvme_read` and `nvme_write` are the two functions behind `struct disk`. Called one after
the other, with a controller that does what a command says and answers it in time, they
are the transfers that the file system counts on, on every path through the data pointers
and round the rings. The lists of pages are written to the memory that the buffers are in,
and the controller reads them there.
-/

namespace TomatoOs.Drivers

open Lib Memory Fs.Ext2

-- ---------------------------------------------------------------------------
-- A controller at work
-- ---------------------------------------------------------------------------

/-- The round of the waiting loop before which the controller answers, and with what code. -/
structure Service where
  round : Nat
  status : Nat
deriving DecidableEq

/-- The driver with its queue, the memory that holds the buffers and the lists, the pages
that were taken for lists, a namespace, and the numbers of the commands that the controller
fetched and of the answers it posted. -/
structure NvmeWorld where
  machine : Machine
  queue : NvmePairQueue
  nsid : Nat
  lbaSize : Nat
  ram : Mem
  lists : List Nat
  sectors : Nat → Mem
  fetched : Nat
  posted : Posted
  results : List Bool

def NvmeCommand.page (cmd : NvmeCommand) (ram : Mem) (n i : Nat) : Nat :=
  if i = 0 then cmd.prp1
  else if n = 2 then cmd.prp2
  else ram.load (cmd.prp2 + 8 * (i - 1)) 8

/-- The first `bytes` bytes of `src`, one page after the other, in `k` pages. -/
def pastePages (ram : Mem) (page : Nat → Nat) (src : Mem) (bytes : Nat) : Nat → Mem
  | 0 => ram
  | k + 1 =>
    (pastePages ram page src bytes k).paste (page k) src (pageSize * k)
      (min pageSize (bytes - pageSize * k))

def fromPages (ram : Mem) (page : Nat → Nat) : Mem := fun j =>
  ram (page (j / pageSize) + j % pageSize)

def NvmeWorld.serve (w : NvmeWorld) (cmd : NvmeCommand) : NvmeWorld :=
  let lba := cmd.cdw10 + 2 ^ 32 * cmd.cdw11
  let len := cmd.cdw12 % 2 ^ 16 + 1
  let bytes := len * w.lbaSize
  let n := (bytes + 4095) / 4096
  let page := cmd.page w.ram n
  if cmd.nsid ≠ w.nsid then w
  else if cmd.cdw0 % 2 ^ 8 = 0x02 then
    { w with ram := pastePages w.ram page (byteAt w.lbaSize w.sectors lba) bytes n }
  else if cmd.cdw0 % 2 ^ 8 = 0x01 then
    { w with sectors := overwrite w.lbaSize w.sectors (fromPages w.ram page) 0 lba len }
  else w

/-- A call of `nvme_read` or `nvme_write` for the buffer, which lies at `phys` in memory. -/
structure DiskCall where
  kind : IoKind
  buffer : Nat
  phys : Nat
  lba : Nat
  len : Nat
  service : Service
deriving DecidableEq

def DiskCall.pages (c : DiskCall) (l : Nat) : Nat := (c.len * l + 4095) / 4096

def Service.completion (a : Service) : NvmeCompletion :=
  { status := 2 * a.status }

def NvmeWorld.device (w : NvmeWorld) (a : Service) (k : Nat)
    (completions : Nat → Nat → NvmeCompletion) : Nat → Nat → NvmeCompletion :=
  if k = a.round then
    (postCompletion { w.machine with completions } w.queue.cq.address w.posted
      a.completion).1.completions
  else completions

def NvmeWorld.io (w : NvmeWorld) (c : DiskCall) : Bool × Machine × NvmePairQueue :=
  nvmeIo c.kind (w.device c.service) w.machine w.queue w.nsid w.lbaSize c.buffer c.lba c.len

def NvmeWorld.tailBell (w : NvmeWorld) (c : DiskCall) : Nat :=
  (nvmeSendIo w.machine (w.queue.setLock c.kind true)
    (ioRequest c.kind w.nsid w.lbaSize c.buffer c.lba c.len)).1.registers w.queue.sqDoorbell

def putWords (ram : Mem) (words : Nat → Nat) : List Nat → Mem
  | [] => ram
  | a :: as => putWords (ram.store a 8 (words a)) words as

def NvmeWorld.listPage (w : NvmeWorld) : Nat := (pmmAllocPage w.machine.pmm pageSize).2

/-- The call has returned, and the data is where it was. -/
def NvmeWorld.answered (w : NvmeWorld) (c : DiskCall) : NvmeWorld :=
  { w with
    machine := (w.io c).2.1
    queue := (w.io c).2.2
    ram := putWords w.ram (w.io c).2.1.words (listWrites w.machine c.buffer (c.pages w.lbaSize))
    lists := if c.pages w.lbaSize = 1 ∨ c.pages w.lbaSize = 2 then w.lists
      else w.listPage :: w.lists
    fetched := w.fetched + 1
    posted := (postCompletion w.machine w.queue.cq.address w.posted c.service.completion).2
    results := w.results ++ [(w.io c).1] }

/-- A call that sends a command, which is answered before the call gives up. A command
that fails has no effect. -/
def NvmeWorld.step (w : NvmeWorld) (c : DiskCall) : Option NvmeWorld :=
  if c.buffer % pageSize = 0 ∧ w.tailBell c ≠ w.fetched % 64 ∧
      c.service.round < c.kind.timeout / 10 then
    if c.service.status = 0 then
      some ((w.answered c).serve
        ((w.answered c).machine.commands w.queue.sq.address (w.fetched % 64)))
    else some (w.answered c)
  else none

-- ---------------------------------------------------------------------------
-- The disk of the file system
-- ---------------------------------------------------------------------------

/-- The call as the file system makes it; it succeeds as the controller says. -/
def DiskCall.onDisk (l : Nat) (c : DiskCall) : Prog Kern Bool :=
  let E : Env :=
    { lbaSize := l, readOk := fun _ => decide (c.service.status = 0)
      writeOk := fun _ => decide (c.service.status = 0), pageOk := fun _ _ => true
      kmallocOk := fun _ => true }
  match c.kind with
  | .read => diskRead E c.phys c.lba c.len
  | .write => diskWrite E c.phys c.lba c.len

def diskCalls (l : Nat) : List DiskCall → Prog Kern (List Bool)
  | [] => pure []
  | c :: calls => do
    let ok ← c.onDisk l
    let oks ← diskCalls l calls
    return ok :: oks

/-- The pages that only the driver and the controller use. -/
def NvmeWorld.own (w : NvmeWorld) : List Nat := w.queue.sq.address :: w.queue.cq.address :: w.lists

/-- Memory and namespace hold the same as memory and disk, but for the driver's own pages. -/
structure NvmeWorld.Shows (w : NvmeWorld) (s : Kern) : Prop where
  ram : ∀ x, (∀ p ∈ w.own, ¬Within p pageSize x) → w.ram x = s.ram x
  sectors : w.sectors = s.sectors

/-- Between two calls: every command is answered, every answer taken, and the driver's own
pages are in use. -/
structure NvmeWorld.Synced (w : NvmeWorld) (init : Nat → NvmeCompletion) : Prop where
  sized : w.queue.Sized
  lock : w.queue.lock = false
  tail : w.queue.sqTail = w.fetched % 64
  head : w.queue.cqHead = w.fetched % 64
  phase : w.queue.phase = PhaseRing.phase 64 w.fetched
  ring : w.posted.Holds w.machine w.queue.cq.address init
  posted : w.posted.items.length = w.fetched
  blank : ∀ i < 64, (init i).tag = 0
  pmm : w.machine.pmm.Sound
  own : ∀ i, w.machine.pmm.Free i → w.machine.pmm.page i ∉ w.own
  lba : 0 < w.lbaSize ∧ w.lbaSize < 2 ^ 32

/-- The buffer is mapped, page by page, to the memory at `phys`, no longer than a command
can say and apart from the driver's own pages, and there is a page for the list if it takes
one. The answer is in time. -/
structure NvmeWorld.Proper (w : NvmeWorld) (c : DiskCall) : Prop where
  aligned : c.buffer % pageSize = 0
  buffer : c.buffer < 2 ^ 64
  phys : c.phys ≠ 0
  mapped : ∀ i < c.pages w.lbaSize, bufferPage w.machine.tables c.buffer i = c.phys + pageSize * i
  lba : c.lba < 2 ^ 64
  len : 1 ≤ c.len ∧ c.len ≤ 2 ^ 16
  pages : c.pages w.lbaSize ≤ 513
  apart : ∀ p ∈ w.own, Apart p pageSize c.phys (c.len * w.lbaSize)
  room : c.pages w.lbaSize ≤ 2 ∨
    (∃ i, w.machine.pmm.Free i) ∧ Apart w.listPage pageSize c.phys (c.len * w.lbaSize)
  round : c.service.round < c.kind.timeout / 10
  status : c.service.status < 2 ^ 15

-- ---------------------------------------------------------------------------
-- Data
-- ---------------------------------------------------------------------------

section
variable {ram src : Mem} {page : Nat → Nat} {phys n bytes : Nat}

theorem pastePages_linear (k : Nat) (hpage : ∀ i < k, page i = phys + pageSize * i) :
    pastePages ram page src bytes k = ram.paste phys src 0 (min bytes (pageSize * k)) := by
  induction k with
  | zero =>
    funext x
    rw [pastePages, Mem.paste_outside]
    unfold Within
    omega
  | succ k ih =>
    funext x
    rw [pastePages, ih fun i hi => hpage i (by omega), hpage k (by omega)]
    simp only [Mem.paste, Within, Nat.mul_succ, Nat.zero_add]
    unfold pageSize
    split_ifs
    · congr 1
      omega
    all_goals first | rfl | omega

theorem fromPages_linear (hpage : ∀ i < n, page i = phys + pageSize * i)
    (hj : j < pageSize * n) : fromPages ram page j = ram (phys + j) := by
  have hdiv : j / pageSize < n := Nat.div_lt_of_lt_mul hj
  rw [fromPages, hpage _ hdiv, Nat.add_assoc, Nat.div_add_mod]

end

-- ---------------------------------------------------------------------------
-- Lists
-- ---------------------------------------------------------------------------

section
variable {ram : Mem} {words : Nat → Nat} {as : List Nat} {s : Vmm}

theorem putWords_outside (h : ∀ a ∈ as, ¬Within a 8 x) : putWords ram words as x = ram x := by
  induction as generalizing ram with
  | nil => rfl
  | cons a as ih =>
    rw [List.forall_mem_cons] at h
    rw [putWords, ih h.2, Mem.store_outside h.1]

theorem putWords_load (hp : as.Pairwise fun a b => Apart a 8 b 8) (ha : a ∈ as)
    (hv : words a < 2 ^ 64) : (putWords ram words as).load a 8 = words a := by
  induction as generalizing ram with
  | nil => cases ha
  | cons b as ih =>
    obtain ⟨hb, hp⟩ := List.pairwise_cons.mp hp
    rcases List.mem_cons.mp ha with rfl | ha
    · -- the later words are elsewhere
      have hlater : ∀ x, Within a 8 x → putWords (ram.store a 8 (words a)) words as x =
          ram.store a 8 (words a) x := fun x hx =>
        putWords_outside fun b hmem => (hb b hmem).symm.not_within hx
      rw [putWords, Mem.load_congr hlater, Mem.load_store_eq _ hv]
    · exact ih hp ha

theorem bufferPage_lt (s : Vmm) (buffer i : Nat) : bufferPage s buffer i < 2 ^ 64 := by
  unfold bufferPage getPhysicalAddress
  dsimp only
  split_ifs
  all_goals first | exact Nat.two_pow_pos 64 | exact wadd_lt ..

theorem fillWrites_pairwise (hmapped : ∀ j, i ≤ j → j < i + k → bufferPage s buffer j ≠ 0)
    (hi : 1 ≤ i) (hfit : list + 8 * (i + k - 1) ≤ 2 ^ 64) :
    (fillWrites s buffer list k i).Pairwise fun a b => Apart a 8 b 8 := by
  induction k generalizing i with
  | zero => exact List.Pairwise.nil
  | succ k ih =>
    have hrest : ∀ j, i + 1 ≤ j → j < i + 1 + k → bufferPage s buffer j ≠ 0 :=
      fun j hlo hhi => hmapped j (by omega) (by omega)
    rw [fillWrites, if_neg (hmapped i (Nat.le_refl i) (by omega))]
    refine List.Pairwise.cons (fun b hb => ?_) (ih hrest (by omega) (by omega))
    obtain ⟨j, hlo, hhi, rfl⟩ := (mem_fillWrites hrest).mp hb
    rw [wadd_eq (by omega), wadd_eq (by omega)]
    exact .inl (by omega)

end

-- ---------------------------------------------------------------------------
-- The wait
-- ---------------------------------------------------------------------------

section
variable {m : Machine} {q : NvmePairQueue} {posted : Posted} {init : Nat → NvmeCompletion}

theorem stamped_statusCode (c : NvmeCompletion) (k : Nat) :
    NvmeCompletion.statusCode { status := 2 * c.statusCode + PhaseRing.phase 64 k } =
      c.statusCode := by
  have hphase : PhaseRing.phase 64 k ≤ 1 := by
    rw [PhaseRing.phase]
    split <;> omega
  have hlt : c.statusCode < 2 ^ 15 := Nat.mod_lt _ (by decide)
  generalize c.statusCode = code at hlt
  simp only [NvmeCompletion.statusCode]
  omega

theorem pollIo_blank (h : posted.Holds m q.cq.address init) (hblank : ∀ i < 64, (init i).tag = 0)
    (hhead : q.cqHead = posted.items.length % 64)
    (hphase : q.phase = PhaseRing.phase 64 posted.items.length) : pollIo m q = none := by
  have hready := mt (h.ready hblank (Nat.le_refl _) (Nat.le_add_right ..)).mp (Nat.lt_irrefl _)
  rw [← hhead, ← hphase] at hready
  rw [pollIo, if_neg hready]

theorem pollIo_posted (h : posted.Holds m q.cq.address init) (hcq : q.cq.size = 63)
    (hhead : q.cqHead = posted.items.length % 64)
    (hphase : q.phase = PhaseRing.phase 64 posted.items.length) (c : NvmeCompletion) :
    ∃ entry registers, entry.statusCode = c.statusCode ∧
      pollIo (postCompletion m q.cq.address posted c).1 q = some (entry,
        { m with completions := (postCompletion m q.cq.address posted c).1.completions, registers },
        { q with
          cqHead := (posted.items.length + 1) % 64
          phase := PhaseRing.phase 64 (posted.items.length + 1) }) := by
  have hlast : (postCompletion m q.cq.address posted c).2.items[posted.items.length]? = some
      { status := 2 * c.statusCode + PhaseRing.phase 64 posted.items.length } :=
    List.getElem?_concat_length
  obtain ⟨hslot, -, htag⟩ := (postCompletion_holds h c).under hlast (by
    rw [postCompletion_length]
    omega)
  rw [← hhead] at hslot
  have hnext : wadd 64 q.cqHead 1 % wadd 64 q.cq.size 1 = (posted.items.length + 1) % 64 := by
    rw [hhead, hcq, next_index]
  refine ⟨_, Function.update m.registers q.cqDoorbell ((posted.items.length + 1) % 64 % 2 ^ 32),
    stamped_statusCode c posted.items.length, ?_⟩
  rw [pollIo, hslot, if_pos (htag.trans hphase.symm), hnext, PhaseRing.phase_succ, hphase]
  rfl

theorem nvmeWaitIo_answers (h : posted.Holds m q.cq.address init)
    (hblank : ∀ i < 64, (init i).tag = 0) (hcq : q.cq.size = 63)
    (hhead : q.cqHead = posted.items.length % 64)
    (hphase : q.phase = PhaseRing.phase 64 posted.items.length) (c : NvmeCompletion)
    (device : Nat → (Nat → Nat → NvmeCompletion) → Nat → Nat → NvmeCompletion)
    (last : Nat) (hdevice : ∀ k, device k m.completions = if k = last then
      (postCompletion m q.cq.address posted c).1.completions else m.completions)
    (rounds k : Nat) (hlo : k ≤ last) (hhi : last < k + rounds) :
    ∃ registers, nvmeWaitIo device rounds k m q = (decide (c.statusCode = 0),
      { m with completions := (postCompletion m q.cq.address posted c).1.completions, registers },
      { q with
        cqHead := (posted.items.length + 1) % 64
        phase := PhaseRing.phase 64 (posted.items.length + 1) }) := by
  induction rounds generalizing k with
  | zero => omega
  | succ rounds ih =>
    rw [nvmeWaitIo, hdevice]
    rcases Nat.eq_or_lt_of_le hlo with rfl | hlt
    · obtain ⟨entry, registers, hcode, hpoll⟩ := pollIo_posted h hcq hhead hphase c
      rw [if_pos rfl, show { m with
        completions := (postCompletion m q.cq.address posted c).1.completions } =
        (postCompletion m q.cq.address posted c).1 from rfl, hpoll]
      exact ⟨registers, by simp only [hcode]⟩
    · rw [if_neg (by omega), pollIo_blank h hblank hhead hphase]
      exact ih (k + 1) hlt (by omega)

end

-- ---------------------------------------------------------------------------
-- One call
-- ---------------------------------------------------------------------------

section
variable {w : NvmeWorld} {c : DiskCall} {init : Nat → NvmeCompletion} {m m1 : Machine}

theorem SecondPointer.frame (h : SecondPointer m buffer n m1 prp2) :
    ∃ pmm words, m1 = { m with pmm, words } := by
  cases h with
  | one => exact ⟨_, _, rfl⟩
  | two => exact ⟨_, _, rfl⟩
  | list => exact ⟨_, _, rfl⟩

theorem SecondPointer.sound (h : SecondPointer m buffer n m1 prp2) (hm : m.pmm.Sound) :
    m1.pmm.Sound := by
  cases h with
  | one => exact hm
  | two => exact hm
  | list =>
    rcases pmmAllocPage_page hm with ⟨i, -, ha⟩ | ⟨-, ha⟩
    · show (pmmAllocPage m.pmm pageSize).1.Sound
      rw [pageSize, ha]
      exact hm.take i
    · show (pmmAllocPage m.pmm pageSize).1.Sound
      rw [pageSize, ha]
      exact hm

theorem NvmeWorld.Proper.pages_pos (h : w.Proper c) (hl : 0 < w.lbaSize) :
    0 < c.pages w.lbaSize := by
  have hpos : 0 < c.len * w.lbaSize := Nat.mul_pos h.len.1 hl
  unfold DiskCall.pages
  omega

theorem NvmeWorld.Proper.page_ne (h : w.Proper c) (hi : i < c.pages w.lbaSize) :
    bufferPage w.machine.tables c.buffer i ≠ 0 := by
  have := h.phys
  rw [h.mapped i hi]
  omega

def NvmeWorld.command (w : NvmeWorld) (c : DiskCall) (prp2 : Nat) : NvmeCommand :=
  (ioRequest c.kind w.nsid w.lbaSize c.buffer c.lba c.len).command w.machine.tables prp2

theorem setLock_queue (q : NvmePairQueue) (hlock : q.lock = false) (kind : IoKind)
    (tail head phase : Nat) :
    NvmePairQueue.setLock { q.setLock kind true with
        sqTail := tail, cqHead := head, phase := phase } kind false =
      { q with sqTail := tail, cqHead := head, phase := phase } := by
  cases kind with
  | read => simp only [NvmePairQueue.setLock, hlock]
  | write => rfl

/-- The command goes under the tail, and its answer is the one that is taken. -/
theorem NvmeWorld.Synced.io (h : w.Synced init) (hc : w.Proper c) :
    ∃ m1 prp2 registers, SecondPointer w.machine c.buffer (c.pages w.lbaSize) m1 prp2 ∧
      w.tailBell c = (w.fetched + 1) % 64 ∧
      w.io c = (decide (c.service.status = 0),
        { m1 with
          commands := setEntry m1.commands w.queue.sq.address (w.fetched % 64) (w.command c prp2)
          completions := (postCompletion w.machine w.queue.cq.address w.posted
            c.service.completion).1.completions
          registers },
        { w.queue with
          sqTail := (w.fetched + 1) % 64
          cqHead := (w.fetched + 1) % 64
          phase := PhaseRing.phase 64 (w.fetched + 1) }) := by
  have hn : pageNeeded (wmul 64 c.len w.lbaSize) = c.pages w.lbaSize :=
    pageNeeded_blocks hc.len.2 h.lba.2
  have hfirst : getPhysicalAddress w.machine.tables c.buffer ≠ 0 := by
    rw [← bufferPage_zero hc.buffer]
    exact hc.page_ne (hc.pages_pos h.lba.1)
  obtain ⟨m1, prp2, hd, hsecond⟩ := dataPointer_some (m := w.machine) (n := c.pages w.lbaSize)
    fun i _ hi => hc.page_ne hi
  rw [← hn] at hd
  have hsend := nvmeSendIo_eq (q := w.queue.setLock c.kind true)
    (r := ioRequest c.kind w.nsid w.lbaSize c.buffer c.lba c.len) hfirst hd
  obtain ⟨pmm, words, rfl⟩ := hsecond.frame
  have htail : wadd 64 (w.queue.setLock c.kind true).sqTail 1 %
      wadd 64 (w.queue.setLock c.kind true).sq.size 1 = (w.fetched + 1) % 64 := by
    obtain ⟨hsq, hslot⟩ := setLock_slot w.queue c.kind true
    rw [hsq, hslot, h.tail, h.sized.sq, next_index]
  have hcode : c.service.completion.statusCode = c.service.status := by
    have := hc.status
    simp only [Service.completion, NvmeCompletion.statusCode]
    omega
  have hlocked : (w.queue.setLock c.kind true).cq = w.queue.cq ∧
      (w.queue.setLock c.kind true).sq = w.queue.sq ∧
      (w.queue.setLock c.kind true).sqTail = w.fetched % 64 ∧
      (w.queue.setLock c.kind true).cqHead = w.fetched % 64 ∧
      (w.queue.setLock c.kind true).phase = PhaseRing.phase 64 w.fetched ∧
      (w.queue.setLock c.kind true).sqDoorbell = w.queue.sqDoorbell := by
    cases c.kind <;> exact ⟨rfl, rfl, h.tail, h.head, h.phase, rfl⟩
  obtain ⟨hcq, hsq, hslot, hhead, hphase, hbell⟩ := hlocked
  rw [queueCommand, htail] at hsend
  have hposted := h.posted
  obtain ⟨registers, hwait⟩ := nvmeWaitIo_answers
    (m := Machine.writeRegister { w.machine with
      pmm := pmm, words := words
      commands := setEntry w.machine.commands (w.queue.setLock c.kind true).sq.address
        (w.queue.setLock c.kind true).sqTail (w.command c prp2) }
      (w.queue.setLock c.kind true).sqDoorbell ((w.fetched + 1) % 64))
    (q := { w.queue.setLock c.kind true with sqTail := (w.fetched + 1) % 64 })
    (by rw [hcq]; exact h.ring) h.blank (by rw [hcq]; exact h.sized.cq)
    (by rw [hposted]; exact hhead) (by rw [hposted]; exact hphase) c.service.completion
    (w.device c.service) c.service.round
    (fun k => by rw [hcq]; rfl) (c.kind.timeout / 10) 0 (Nat.zero_le _)
    (by rw [Nat.zero_add]; exact hc.round)
  refine ⟨_, prp2, registers, hsecond, ?_, ?_⟩
  · rw [NvmeWorld.tailBell, hsend, ← hbell]
    exact Function.update_self ..
  · rw [NvmeWorld.io, nvmeIo, if_neg (not_not_intro hc.aligned), hsend]
    refine (congrArg (fun r : Bool × Machine × NvmePairQueue =>
      (r.1, r.2.1, r.2.2.setLock c.kind false)) hwait).trans ?_
    refine Prod.ext (by simp only [hcode]) (Prod.ext ?_ ?_)
    · simp only [hsq, hslot, hcq]
      rfl
    · rw [hposted]
      exact setLock_queue w.queue h.lock c.kind ..

theorem NvmeWorld.Synced.listPage (h : w.Synced init) (hc : w.Proper c)
    (h1 : c.pages w.lbaSize ≠ 1) (h2 : c.pages w.lbaSize ≠ 2) :
    ∃ i, w.machine.pmm.Free i ∧
      pmmAllocPage w.machine.pmm pageSize = (w.machine.pmm.take i, w.machine.pmm.page i) := by
  have hpos := hc.pages_pos h.lba.1
  obtain ⟨⟨j, hfree⟩, -⟩ := hc.room.resolve_left (by omega)
  exact (pmmAllocPage_page h.pmm).resolve_right fun hnone => hnone.1 j hfree

theorem NvmeWorld.Synced.list_in_page (h : w.Synced init) (hc : w.Proper c)
    (ha : a ∈ listWrites w.machine c.buffer (c.pages w.lbaSize)) :
    (c.pages w.lbaSize ≠ 1 ∧ c.pages w.lbaSize ≠ 2) ∧
      w.listPage ≤ a ∧ a + 8 ≤ w.listPage + pageSize := by
  rw [listWrites] at ha
  split at ha
  · cases ha
  rename_i hn
  have hn := not_or.mp hn
  obtain ⟨i, hfree, halloc⟩ := h.listPage hc hn.1 hn.2
  have hend := h.pmm.page_end hfree
  have h513 := hc.pages
  obtain ⟨j, hlo, hhi, rfl⟩ := (mem_fillWrites fun j _ hj => hc.page_ne (by omega)).mp ha
  refine ⟨hn, ?_⟩
  rw [NvmeWorld.listPage, halloc]
  unfold pageSize
  rw [wadd_eq (by omega)]
  omega

theorem SecondPointer.load (h : SecondPointer w.machine c.buffer (c.pages w.lbaSize) m1 prp2)
    (hw : w.Synced init) (hc : w.Proper c) (h2 : c.pages w.lbaSize ≠ 2) (hi : i ≠ 0)
    (hlt : i < c.pages w.lbaSize) :
    (putWords w.ram m1.words (listWrites w.machine c.buffer (c.pages w.lbaSize))).load
      (prp2 + 8 * (i - 1)) 8 = bufferPage w.machine.tables c.buffer i := by
  cases h with
  | one h1 => omega
  | two h2' => exact absurd h2' h2
  | list h1 h2 words hlist =>
    obtain ⟨k, hk, halloc⟩ := hw.listPage hc h1 h2
    have h513 := hc.pages
    have hend := hw.pmm.page_end hk
    rw [halloc] at hlist ⊢
    have hentry := hlist (by omega) (i - 1) (by omega)
    rw [Nat.sub_add_cancel (by omega)] at hentry
    have hmapped : ∀ j, 1 ≤ j → j < 1 + (c.pages w.lbaSize - 1) →
        bufferPage w.machine.tables c.buffer j ≠ 0 := fun j _ hj => hc.page_ne (by omega)
    rw [listWrites, if_neg (not_or.mpr ⟨h1, h2⟩), halloc]
    refine (putWords_load (fillWrites_pairwise hmapped (Nat.le_refl 1) (by omega)) ?_ ?_).trans hentry
    · exact (mem_fillWrites hmapped).mpr ⟨i, by omega, by omega, (wadd_eq (by omega)).symm⟩
    · exact hentry.trans_lt (bufferPage_lt ..)

theorem SecondPointer.page (h : SecondPointer w.machine c.buffer (c.pages w.lbaSize) m1 prp2)
    (hw : w.Synced init) (hc : w.Proper c) :
    ∀ i < c.pages w.lbaSize, (w.command c prp2).page
      (putWords w.ram m1.words (listWrites w.machine c.buffer (c.pages w.lbaSize)))
      (c.pages w.lbaSize) i = c.phys + pageSize * i := by
  intro i hi
  rw [← hc.mapped i hi, NvmeCommand.page]
  split
  · rename_i hzero
    rw [hzero, bufferPage_zero hc.buffer]
    rfl
  rename_i hne
  split
  · rename_i h2
    cases h with
    | one h1 => omega
    | two _ =>
      rw [show i = 1 by omega]
      rfl
    | list _ h2' => exact absurd h2 h2'
  · rename_i h2
    exact h.load hw hc h2 hne hi

def NvmeWorld.transfer (w : NvmeWorld) (c : DiskCall) : NvmeWorld :=
  match c.kind with
  | .read =>
    { w with ram := w.ram.paste c.phys (byteAt w.lbaSize w.sectors c.lba) 0 (c.len * w.lbaSize) }
  | .write => { w with sectors := overwrite w.lbaSize w.sectors w.ram c.phys c.lba c.len }

/-- A controller that does what the command says does what the call is for. -/
theorem NvmeWorld.serve_command {w' : NvmeWorld} (hc : w.Proper c) (hnsid : w'.nsid = w.nsid)
    (hl : w'.lbaSize = w.lbaSize)
    (hpage : ∀ i < c.pages w.lbaSize,
      (w.command c prp2).page w'.ram (c.pages w.lbaSize) i = c.phys + pageSize * i) :
    w'.serve (w.command c prp2) = w'.transfer c := by
  have hstart : (w.command c prp2).cdw10 + 2 ^ 32 * (w.command c prp2).cdw11 = c.lba :=
    block_halves hc.lba
  have hcount : (w.command c prp2).cdw12 % 2 ^ 16 + 1 = c.len :=
    (blockCount_iff hc.len.1).mpr hc.len.2
  have hbytes : c.len * w.lbaSize ≤ pageSize * c.pages w.lbaSize := by
    unfold DiskCall.pages pageSize
    omega
  have hpages : (c.len * w.lbaSize + 4095) / 4096 = c.pages w.lbaSize := rfl
  have hspace : ¬(w.command c prp2).nsid ≠ w'.nsid := not_not_intro hnsid.symm
  rw [NvmeWorld.serve, hstart, hcount, hl, hpages, if_neg hspace]
  cases hk : c.kind with
  | read =>
    have hop : (w.command c prp2).cdw0 % 2 ^ 8 = 0x02 := by
      show c.kind.opcode % 2 ^ 8 = _
      rw [hk]
      rfl
    rw [if_pos hop, pastePages_linear _ hpage, Nat.min_eq_left hbytes]
    simp only [NvmeWorld.transfer, hk, hl]
  | write =>
    have hop : (w.command c prp2).cdw0 % 2 ^ 8 = 0x01 := by
      show c.kind.opcode % 2 ^ 8 = _
      rw [hk]
      rfl
    have hdata : overwrite w.lbaSize w'.sectors
        (fromPages w'.ram ((w.command c prp2).page w'.ram (c.pages w.lbaSize))) 0 c.lba
        c.len = overwrite w.lbaSize w'.sectors w'.ram c.phys c.lba c.len := by
      refine overwrite_congr fun j hj => ?_
      rw [Nat.zero_add]
      exact fromPages_linear hpage (hj.trans_le hbytes)
    rw [if_neg (by rw [hop]; decide), if_pos hop, hdata]
    simp only [NvmeWorld.transfer, hk, hl]

theorem NvmeWorld.Shows.onDisk {s : Kern} (h : w.Shows s)
    (hapart : ∀ p ∈ w.own, Apart p pageSize c.phys (c.len * w.lbaSize)) :
    ∃ s', c.onDisk w.lbaSize s = (some (decide (c.service.status = 0)), s') ∧
      (if c.service.status = 0 then w.transfer c else w).Shows s' := by
  have hbyte : s.diskByte w.lbaSize c.lba = byteAt w.lbaSize w.sectors c.lba := by
    rw [h.sectors]
    rfl
  cases hk : c.kind with
  | read =>
    simp only [DiskCall.onDisk, hk, diskRead, NvmeWorld.transfer]
    refine ⟨_, rfl, ?_⟩
    by_cases hok : c.service.status = 0
    · simp only [hok, decide_true, if_true, hbyte]
      refine ⟨fun x hx => ?_, h.sectors⟩
      simp only [Mem.paste]
      split
      · rfl
      · exact h.ram x hx
    · simp only [hok, decide_false, if_false, Bool.false_eq_true]
      exact ⟨h.ram, h.sectors⟩
  | write =>
    have hdata : ∀ j < c.len * w.lbaSize, w.ram (c.phys + j) = s.ram (c.phys + j) := fun j hj =>
      h.ram _ fun p hp => (hapart p hp).not_within ⟨Nat.le_add_right .., by omega⟩
    simp only [DiskCall.onDisk, hk, diskWrite, NvmeWorld.transfer]
    refine ⟨_, rfl, ?_⟩
    by_cases hok : c.service.status = 0
    · simp only [hok, decide_true, if_true]
      exact ⟨h.ram, by simp only [overwrite_congr hdata, h.sectors]⟩
    · simp only [hok, decide_false, if_false, Bool.false_eq_true]
      exact ⟨h.ram, h.sectors⟩

theorem NvmeWorld.Synced.transfer (h : w.Synced init) : (w.transfer c).Synced init := by
  unfold NvmeWorld.transfer
  split
  · exact ⟨h.sized, h.lock, h.tail, h.head, h.phase, h.ring, h.posted, h.blank, h.pmm, h.own,
      h.lba⟩
  · exact ⟨h.sized, h.lock, h.tail, h.head, h.phase, h.ring, h.posted, h.blank, h.pmm, h.own,
      h.lba⟩

theorem NvmeWorld.transfer_frame (w : NvmeWorld) (c : DiskCall) :
    (w.transfer c).lbaSize = w.lbaSize ∧ (w.transfer c).results = w.results := by
  unfold NvmeWorld.transfer
  split <;> exact ⟨rfl, rfl⟩

theorem SecondPointer.own (h : SecondPointer w.machine c.buffer (c.pages w.lbaSize) m1 prp2)
    (hw : w.Synced init) (hc : w.Proper c) :
    ∀ i, m1.pmm.Free i → m1.pmm.page i ∉ w.queue.sq.address :: w.queue.cq.address ::
      if c.pages w.lbaSize = 1 ∨ c.pages w.lbaSize = 2 then w.lists else w.listPage :: w.lists := by
  cases h with
  | one h1 =>
    rw [if_pos (.inl h1)]
    exact hw.own
  | two h2 =>
    rw [if_pos (.inr h2)]
    exact hw.own
  | list h1 h2 words hlist =>
    obtain ⟨k, hk, halloc⟩ := hw.listPage hc h1 h2
    rw [if_neg (not_or.mpr ⟨h1, h2⟩), NvmeWorld.listPage, halloc]
    intro i hi
    obtain ⟨hfree, hne⟩ := Pmm.free_take_iff.mp hi
    have hold := hw.own i hfree
    have hnew : w.machine.pmm.page i ≠ w.machine.pmm.page k := by
      unfold Pmm.page blockSize
      omega
    rw [NvmeWorld.own] at hold
    show w.machine.pmm.page i ∉ _
    simp only [List.mem_cons, not_or] at hold ⊢
    exact ⟨hold.1, hold.2.1, hnew, hold.2.2⟩

theorem NvmeWorld.Synced.answered_own (h : w.Synced init) (hc : w.Proper c) :
    (w.answered c).own = w.queue.sq.address :: w.queue.cq.address ::
      if c.pages w.lbaSize = 1 ∨ c.pages w.lbaSize = 2 then w.lists else w.listPage :: w.lists := by
  obtain ⟨m1, prp2, registers, -, -, hio⟩ := h.io hc
  rw [NvmeWorld.own, NvmeWorld.answered, hio]

theorem NvmeWorld.Synced.answered_shows (h : w.Synced init) (hc : w.Proper c) {s : Kern}
    (hs : w.Shows s) : (w.answered c).Shows s := by
  refine ⟨fun x hx => ?_, hs.sectors⟩
  rw [h.answered_own hc] at hx
  refine (putWords_outside fun a ha => ?_).trans (hs.ram x fun p hp => hx p ?_)
  · obtain ⟨hn, hlo, hhi⟩ := h.list_in_page hc ha
    rw [if_neg (not_or.mpr hn)] at hx
    have hpage := hx w.listPage (by simp)
    exact fun hin => hpage ⟨hlo.trans hin.1, hin.2.trans_le hhi⟩
  · rw [NvmeWorld.own] at hp
    split
    · exact hp
    · simp only [List.mem_cons] at hp ⊢
      tauto

theorem NvmeWorld.Synced.answered_apart (h : w.Synced init) (hc : w.Proper c) :
    ∀ p ∈ (w.answered c).own, Apart p pageSize c.phys (c.len * w.lbaSize) := by
  have hpos := hc.pages_pos h.lba.1
  have hold := hc.apart
  rw [NvmeWorld.own] at hold
  rw [h.answered_own hc]
  split
  · exact hold
  · rename_i hn
    obtain ⟨-, hlist⟩ := hc.room.resolve_left (by omega)
    simp only [List.forall_mem_cons] at hold ⊢
    exact ⟨hold.1, hold.2.1, hlist, hold.2.2⟩

theorem NvmeWorld.Synced.answered (h : w.Synced init) (hc : w.Proper c) :
    (w.answered c).Synced init ∧ w.tailBell c ≠ w.fetched % 64 ∧
      (w.answered c).results = w.results ++ [decide (c.service.status = 0)] ∧
      (w.answered c).serve ((w.answered c).machine.commands w.queue.sq.address (w.fetched % 64)) =
        (w.answered c).transfer c := by
  obtain ⟨m1, prp2, registers, hsecond, hbell, hio⟩ := h.io hc
  have hcmd : (w.answered c).machine.commands w.queue.sq.address (w.fetched % 64) =
      w.command c prp2 := by
    rw [NvmeWorld.answered, hio]
    simp
  have hram : (w.answered c).ram =
      putWords w.ram m1.words (listWrites w.machine c.buffer (c.pages w.lbaSize)) := by
    rw [NvmeWorld.answered, hio]
  refine ⟨?_, by omega, by rw [NvmeWorld.answered, hio], ?_⟩
  · rw [NvmeWorld.answered, hio]
    exact
      { sized := ⟨h.sized.sq, h.sized.cq, h.sized.bells⟩
        lock := h.lock, tail := rfl, head := rfl, phase := rfl
        ring := postCompletion_holds h.ring _
        posted := (postCompletion_length w.machine w.queue.cq.address ..).trans
          (congrArg (· + 1) h.posted)
        blank := h.blank, pmm := hsecond.sound h.pmm, own := hsecond.own h hc, lba := h.lba }
  · rw [hcmd]
    refine NvmeWorld.serve_command hc rfl rfl ?_
    rw [hram]
    exact hsecond.page h hc

theorem NvmeWorld.Synced.step (h : w.Synced init) (hc : w.Proper c) :
    ∃ w', w.step c = some w' ∧ w'.Synced init ∧ w'.lbaSize = w.lbaSize ∧
      w'.results = w.results ++ [decide (c.service.status = 0)] ∧
      ∀ s, w.Shows s → ∃ s',
        c.onDisk w.lbaSize s = (some (decide (c.service.status = 0)), s') ∧ w'.Shows s' := by
  obtain ⟨hsynced, hbell, hresults, hserve⟩ := h.answered hc
  have hdisk (s : Kern) (hs : w.Shows s) := (h.answered_shows hc hs).onDisk (h.answered_apart hc)
  rw [NvmeWorld.step, if_pos ⟨hc.aligned, hbell, hc.round⟩, hserve]
  by_cases hok : c.service.status = 0
  · obtain ⟨hl, hr⟩ := (w.answered c).transfer_frame c
    simp only [if_pos hok] at hdisk ⊢
    exact ⟨_, rfl, hsynced.transfer, hl, hr.trans hresults, hdisk⟩
  · simp only [if_neg hok] at hdisk ⊢
    exact ⟨_, rfl, hsynced, rfl, hresults, hdisk⟩

-- ---------------------------------------------------------------------------
-- Any calls, one after the other
-- ---------------------------------------------------------------------------

theorem diskCalls_cons {calls : List DiskCall} {s s1 s2 : Kern} (h1 : c.onDisk l s = (some ok, s1))
    (h2 : diskCalls l calls s1 = (some oks, s2)) :
    diskCalls l (c :: calls) s = (some (ok :: oks), s2) :=
  (Prog.bind_eq h1).trans (Prog.bind_eq h2)

theorem NvmeWorld.Synced.run (h : w.Synced init) {s : Kern} (hs : w.Shows s)
    {calls : List DiskCall} (hall : AllSteps NvmeWorld.step NvmeWorld.Proper w calls) :
    ∃ w' s' oks, Lib.run NvmeWorld.step w calls = some w' ∧
      diskCalls w.lbaSize calls s = (some oks, s') ∧ w'.results = w.results ++ oks ∧
      w'.Shows s' ∧ w'.Synced init := by
  induction calls generalizing w s with
  | nil => exact ⟨w, s, [], rfl, rfl, (List.append_nil _).symm, hs, h⟩
  | cons c calls ih =>
    obtain ⟨w1, hw1, hsynced, hl, hresults, hdisk⟩ := h.step hall.1
    obtain ⟨s1, hs1, hshows⟩ := hdisk s hs
    obtain ⟨w', s', oks, hrun, hcalls, hoks, hlast⟩ := ih hsynced hshows (hall.2 w1 hw1)
    rw [hl] at hcalls
    refine ⟨w', s', _, run_cons.mpr ⟨w1, hw1, hrun⟩, diskCalls_cons hs1 hcalls, ?_, hlast⟩
    rw [hoks, hresults, List.append_assoc, List.singleton_append]

/-- Calls of the driver return what the same calls of the disk return, and leave the same in
memory, its own pages apart, and on the disk. -/
theorem nvme_is_disk {w : NvmeWorld} {init : Nat → NvmeCompletion} {s : Kern}
    {calls : List DiskCall} (h : w.Synced init) (hs : w.Shows s) (hresults : w.results = [])
    (hall : AllSteps NvmeWorld.step NvmeWorld.Proper w calls) :
    ∃ w' s', Lib.run NvmeWorld.step w calls = some w' ∧
      diskCalls w.lbaSize calls s = (some w'.results, s') ∧ w'.Shows s' ∧ w'.Synced init := by
  obtain ⟨w', s', oks, hrun, hcalls, hoks, hlast⟩ := h.run hs hall
  rw [hresults, List.nil_append] at hoks
  exact ⟨w', s', hrun, by rw [hoks, hcalls], hlast⟩

end

def imageWorld (image : Mem) : NvmeWorld :=
  { machine := bufferMachine
    queue := { ioQueue with sqDoorbell := 0x1008, cqDoorbell := 0x100c }
    nsid := 1, lbaSize := 512, ram := (freshKern image).ram, lists := []
    sectors := (freshKern image).sectors, fetched := 0, posted := .empty, results := [] }

def imageCalls : List DiskCall :=
  [⟨.read, 0x40000000, 0x5000, 0, 24, ⟨3, 0⟩⟩, ⟨.write, 0x40000000, 0x5000, 7, 16, ⟨0, 0⟩⟩,
    ⟨.read, 0x40000000, 0x5000, 7, 16, ⟨99, 0x281⟩⟩]

theorem imageWorld_own (image : Mem) (i : Nat) :
    (imageWorld image).machine.pmm.page i ∉ (imageWorld image).own := by
  show 0x100000 + i * 4096 ∉ [0x20000, 0x21000]
  simp only [List.mem_cons, List.not_mem_nil, or_false]
  omega

theorem nvme_is_disk_image : ∃ w' s',
    Lib.run NvmeWorld.step (imageWorld (smallImage 5)) imageCalls = some w' ∧
      diskCalls 512 imageCalls (freshKern (smallImage 5)) = (some w'.results, s') ∧
      w'.Shows s' ∧ w'.Synced fun _ => .zero := by
  refine nvme_is_disk (w := imageWorld (smallImage 5))
    ⟨⟨rfl, rfl, by decide⟩, rfl, rfl, rfl, rfl, posted_empty .., rfl, fun _ _ => rfl,
      ⟨by decide, fun h => absurd h (by decide)⟩, fun i _ => imageWorld_own _ i, by decide⟩
    ⟨fun _ _ => rfl, rfl⟩ rfl ⟨?_, fun w1 h1 => ⟨?_, fun w2 h2 => ⟨?_, fun _ _ => trivial⟩⟩⟩
  · exact ⟨by decide, by decide, by decide, by decide +kernel, by decide, by decide, by decide,
      by decide, .inr ⟨⟨0, by decide, by decide⟩, by decide +kernel⟩, by decide, by decide⟩
  · obtain rfl := step_getD h1
    exact ⟨by decide, by decide, by decide, by decide +kernel, by decide, by decide,
      by decide +kernel, by decide +kernel, .inl (by decide +kernel), by decide, by decide⟩
  · obtain rfl := step_getD h1
    obtain rfl := step_getD h2
    exact ⟨by decide, by decide, by decide, by decide +kernel, by decide, by decide,
      by decide +kernel, by decide +kernel, .inl (by decide +kernel), by decide, by decide⟩

end TomatoOs.Drivers
