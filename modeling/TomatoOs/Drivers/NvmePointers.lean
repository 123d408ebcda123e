import TomatoOs.Drivers.NvmeCalls

/-!
# What a command says about its buffer

A command names the first page of its buffer, and the second page or else a page
with a list of all the others. The number of blocks goes through sixteen bits,
the list through one page, and the page of a list that was used is not given
back. `describes_iff` says when the command is right, and `pointers_iff` when
nothing is lost besides.
-/

namespace TomatoOs.Drivers

open Lib Memory

/-- `nvme_wait_io`, with the rounds its time allows: `device k` is what the
controller does to the completions before round `k`. -/
def nvmeWaitIo (device : Nat → (Nat → Nat → NvmeCompletion) → Nat → Nat → NvmeCompletion) :
    Nat → Nat → Machine → NvmePairQueue → Bool × Machine × NvmePairQueue
  | 0, _, m, q => (false, m, q)
  | rounds + 1, k, m, q =>
    match pollIo { m with completions := device k m.completions } q with
    | some (c, m, q) => (decide (c.statusCode = 0), m, q)
    | none =>
      nvmeWaitIo device rounds (k + 1) { m with completions := device k m.completions } q

def ioRequest (kind : IoKind) (nsid lbaSize buffer lba lenInBlocks : Nat) : IoRequest :=
  ⟨kind.opcode, nsid, buffer, lba, lenInBlocks % 2 ^ 16, wmul 64 lenInBlocks lbaSize⟩

/-- What `nvme_read` and `nvme_write` have in common. The limits of their waits
are counted in steps of ten. -/
def nvmeIo (kind : IoKind)
    (device : Nat → (Nat → Nat → NvmeCompletion) → Nat → Nat → NvmeCompletion) (m : Machine)
    (q : NvmePairQueue) (nsid lbaSize buffer lba lenInBlocks : Nat) :
    Bool × Machine × NvmePairQueue :=
  if buffer % pageSize ≠ 0 then (false, m, q)
  else
    let (m, q) := nvmeSendIo m (q.setLock kind true)
      (ioRequest kind nsid lbaSize buffer lba lenInBlocks)
    let (ok, m, q) := nvmeWaitIo device (kind.timeout / 10) 0 m q
    (ok, m, q.setLock kind false)

def nvmeRead := nvmeIo .read

def nvmeWrite := nvmeIo .write

-- ---------------------------------------------------------------------------
-- What is asked
-- ---------------------------------------------------------------------------

def bufferPage (s : Vmm) (buffer i : Nat) : Nat :=
  getPhysicalAddress s (wadd 64 buffer (wmul 64 i pageSize))

def fillWrites (s : Vmm) (buffer list : Nat) : Nat → Nat → List Nat
  | 0, _ => []
  | k + 1, i =>
    if bufferPage s buffer i = 0 then []
    else wadd 64 list (8 * (i - 1)) :: fillWrites s buffer list k (i + 1)

def listWrites (m : Machine) (buffer numPages : Nat) : List Nat :=
  if numPages = 1 ∨ numPages = 2 then []
  else fillWrites m.tables buffer (pmmAllocPage m.pmm pageSize).2 (numPages - 1) 1

/-- The command that a call leaves in the queue describes `n` pages of the buffer
and the blocks. -/
structure Describes (m m' : Machine) (cmd : NvmeCommand) (buffer lba len n : Nat) : Prop where
  start : cmd.cdw10 + 2 ^ 32 * cmd.cdw11 = lba
  count : cmd.cdw12 % 2 ^ 16 + 1 = len
  first : cmd.prp1 = bufferPage m.tables buffer 0
  one : n = 1 → cmd.prp2 = 0
  two : n = 2 → cmd.prp2 = bufferPage m.tables buffer 1
  /-- otherwise a page that was free holds the list -/
  list : n ≠ 1 → n ≠ 2 → ∃ i, m.pmm.Free i ∧ cmd.prp2 = m.pmm.page i ∧
    (∀ j < n - 1, m'.words (m.pmm.page i + 8 * j) = bufferPage m.tables buffer (j + 1)) ∧
    ∀ a ∈ listWrites m buffer n, m.pmm.page i ≤ a ∧ a < m.pmm.page i + 4096

def Released (m m' : Machine) : Prop := ∀ i, m.pmm.Free i → m'.pmm.Free i

section
variable {m m' : Machine} {q : NvmePairQueue}

-- ---------------------------------------------------------------------------
-- Waiting
-- ---------------------------------------------------------------------------

structure Machine.SameBut (m m' : Machine) : Prop where
  pmm : m'.pmm = m.pmm
  commands : m'.commands = m.commands
  words : m'.words = m.words

theorem nvmeWaitIo_same
    (device : Nat → (Nat → Nat → NvmeCompletion) → Nat → Nat → NvmeCompletion) (rounds k : Nat)
    (m : Machine) (q : NvmePairQueue) :
    m.SameBut (nvmeWaitIo device rounds k m q).2.1 := by
  induction rounds generalizing k m with
  | zero => exact ⟨rfl, rfl, rfl⟩
  | succ rounds ih =>
    rw [nvmeWaitIo, pollIo]
    split
    · rename_i hp
      split at hp
      · cases hp
        exact ⟨rfl, rfl, rfl⟩
      · cases hp
    · obtain ⟨hpmm, hcommands, hwords⟩ :=
        ih (k + 1) { m with completions := device k m.completions }
      exact ⟨hpmm, hcommands, hwords⟩

-- ---------------------------------------------------------------------------
-- The list
-- ---------------------------------------------------------------------------

theorem mem_fillWrites (hmapped : ∀ j, i ≤ j → j < i + k → bufferPage s buffer j ≠ 0) :
    a ∈ fillWrites s buffer list k i ↔
      ∃ j, i ≤ j ∧ j < i + k ∧ a = wadd 64 list (8 * (j - 1)) := by
  induction k generalizing i with
  | zero =>
    simp only [fillWrites, List.not_mem_nil, false_iff]
    rintro ⟨j, hlo, hhi, -⟩
    omega
  | succ k ih =>
    rw [fillWrites, if_neg (hmapped i (Nat.le_refl i) (by omega)), List.mem_cons,
      ih fun j hlo hhi => hmapped j (by omega) (by omega)]
    constructor
    · rintro (rfl | ⟨j, hlo, hhi, rfl⟩)
      · exact ⟨i, Nat.le_refl i, by omega, rfl⟩
      · exact ⟨j, by omega, by omega, rfl⟩
    · rintro ⟨j, hlo, hhi, rfl⟩
      rcases Nat.eq_or_lt_of_le hlo with rfl | hlt
      · exact .inl rfl
      · exact .inr ⟨j, hlt, by omega, rfl⟩

theorem fillList_eq (list : Nat)
    (hmapped : ∀ j, i ≤ j → j < i + k → bufferPage m.tables buffer j ≠ 0) :
    ∃ words, fillList m buffer list k i = ({ m with words }, true) ∧
      (∀ a, a ∉ fillWrites m.tables buffer list k i → words a = m.words a) ∧
      (1 ≤ i → list + 8 * (i + k - 1) ≤ 2 ^ 64 → ∀ j, i ≤ j → j < i + k →
        words (list + 8 * (j - 1)) = bufferPage m.tables buffer j) := by
  induction k generalizing m i with
  | zero => exact ⟨m.words, rfl, fun _ _ => rfl, fun _ _ j hlo hhi => absurd hhi (by omega)⟩
  | succ k ih =>
    have hhere := hmapped i (Nat.le_refl i) (by omega)
    have hrest : ∀ j, i + 1 ≤ j → j < i + 1 + k → bufferPage m.tables buffer j ≠ 0 :=
      fun j hlo hhi => hmapped j (by omega) (by omega)
    -- the machine after this round has the same tables, so the same pages
    let words' :=
      Function.update m.words (wadd 64 list (8 * (i - 1))) (bufferPage m.tables buffer i)
    obtain ⟨words, hfill, hframe, hlist⟩ := ih (m := { m with words := words' }) hrest
    refine ⟨words, ?_, fun a ha => ?_, fun hi hfit j hlo hhi => ?_⟩
    · rw [bufferPage] at hhere
      simp only [fillList, if_neg hhere]
      exact hfill
    · rw [fillWrites, if_neg hhere, List.mem_cons, not_or] at ha
      rw [hframe a ha.2]
      exact Function.update_of_ne ha.1 ..
    · rcases Nat.eq_or_lt_of_le hlo with rfl | hlt
      · rw [hframe, ← wadd_eq (w := 64) (by omega)]
        · exact Function.update_self ..
        · -- later rounds write behind this entry
          intro ha
          obtain ⟨j, hlo, hhi, heq⟩ := (mem_fillWrites hrest).mp ha
          rw [wadd_eq (by omega)] at heq
          omega
      · exact hlist (by omega) (by omega) j hlt (by omega)

inductive SecondPointer (m : Machine) (buffer n : Nat) : Machine → Nat → Prop
  | one (h : n = 1) : SecondPointer m buffer n m 0
  | two (h : n = 2) : SecondPointer m buffer n m (bufferPage m.tables buffer 1)
  | list (h1 : n ≠ 1) (h2 : n ≠ 2) (words : Nat → Nat)
      (hlist : (pmmAllocPage m.pmm pageSize).2 + 8 * (n - 1) ≤ 2 ^ 64 →
        ∀ j < n - 1, words ((pmmAllocPage m.pmm pageSize).2 + 8 * j) =
          bufferPage m.tables buffer (j + 1)) :
      SecondPointer m buffer n { m with pmm := (pmmAllocPage m.pmm pageSize).1, words }
        (pmmAllocPage m.pmm pageSize).2

theorem dataPointer_some (hmapped : ∀ i, 1 ≤ i → i < n → bufferPage m.tables buffer i ≠ 0) :
    ∃ m' prp2, dataPointer m buffer n = (m', some prp2) ∧ SecondPointer m buffer n m' prp2 := by
  rw [dataPointer]
  split
  · rename_i h1
    exact ⟨m, 0, rfl, .one h1⟩
  split
  · rename_i h2
    have hpage : getPhysicalAddress m.tables (wadd 64 buffer pageSize) =
        bufferPage m.tables buffer 1 := by
      rw [bufferPage, wmul_eq (by decide), Nat.one_mul]
    simp only [hpage, if_neg (hmapped 1 (Nat.le_refl 1) (by omega))]
    exact ⟨m, _, rfl, .two h2⟩
  · rename_i h1 h2
    obtain ⟨⟨pmm, list⟩, ha⟩ : ∃ r, pmmAllocPage m.pmm pageSize = r := ⟨_, rfl⟩
    obtain ⟨words, hfill, -, hlist⟩ := fillList_eq (m := { m with pmm }) list
      (fun j (hlo : 1 ≤ j) (hhi : j < 1 + (n - 1)) => hmapped j hlo (by omega))
    simp only [ha, hfill]
    refine ⟨_, _, rfl, ?_⟩
    have hsecond := @SecondPointer.list m buffer n h1 h2 words
    rw [ha] at hsecond
    refine hsecond fun hfit j hj => ?_
    exact hlist (Nat.le_refl 1) (by simpa using hfit) (j + 1) (by omega) (by omega)

-- ---------------------------------------------------------------------------
-- The call
-- ---------------------------------------------------------------------------

theorem bufferPage_zero (hbuf : buffer < 2 ^ 64) :
    bufferPage m.tables buffer 0 = getPhysicalAddress m.tables buffer := by
  have hzero : wmul 64 0 pageSize = 0 := by decide
  rw [bufferPage, hzero, wadd_eq (Nat.add_zero buffer ▸ hbuf), Nat.add_zero]

theorem queueCommand_slot (m : Machine) (q : NvmePairQueue) (cmd : NvmeCommand) :
    (queueCommand m q cmd).1.commands q.sq.address q.sqTail = cmd := by
  simp [queueCommand, Machine.writeRegister]

theorem setLock_slot (q : NvmePairQueue) (kind : IoKind) (held : Bool) :
    (q.setLock kind held).sq = q.sq ∧ (q.setLock kind held).sqTail = q.sqTail := by
  cases kind <;> exact ⟨rfl, rfl⟩

def IoRequest.command (r : IoRequest) (s : Vmm) (prp2 : Nat) : NvmeCommand :=
  { cdw0 := r.opcode, nsid := r.nsid, prp1 := getPhysicalAddress s r.buffer, prp2
    cdw10 := r.lba % 2 ^ 32, cdw11 := r.lba / 2 ^ 32 % 2 ^ 32, cdw12 := wsub 32 r.numBlocks 1 }

theorem nvmeSendIo_eq (hfirst : getPhysicalAddress m.tables r.buffer ≠ 0)
    (hd : dataPointer m r.buffer (pageNeeded r.transferBytes) = (m1, some prp2)) :
    nvmeSendIo m q r = queueCommand m1 q (r.command m.tables prp2) := by
  have hbuild : buildCommand m r = (m1, some (r.command m.tables prp2)) := by
    rw [buildCommand, if_neg hfirst, hd, IoRequest.command]
  rw [nvmeSendIo, hbuild]

theorem nvmeIo_eq (haligned : buffer % pageSize = 0)
    (hfirst : getPhysicalAddress m.tables buffer ≠ 0)
    (hd : dataPointer m buffer (pageNeeded (wmul 64 len lbaSize)) = (m1, some prp2))
    (hcall : nvmeIo kind device m q nsid lbaSize buffer lba len = (ok, m', q')) :
    m'.commands q.sq.address q.sqTail =
        (ioRequest kind nsid lbaSize buffer lba len).command m.tables prp2 ∧
      m'.pmm = m1.pmm ∧ m'.words = m1.words := by
  have hsend := nvmeSendIo_eq (q := q.setLock kind true)
    (r := ioRequest kind nsid lbaSize buffer lba len) hfirst hd
  generalize (ioRequest kind nsid lbaSize buffer lba len).command m.tables prp2 = cmd at hsend ⊢
  obtain ⟨hsq, htail⟩ := setLock_slot q kind true
  have hslot := queueCommand_slot m1 (q.setLock kind true) cmd
  have hkeep : (queueCommand m1 (q.setLock kind true) cmd).1.pmm = m1.pmm ∧
      (queueCommand m1 (q.setLock kind true) cmd).1.words = m1.words := ⟨rfl, rfl⟩
  rw [hsq, htail] at hslot
  rcases hq : queueCommand m1 (q.setLock kind true) cmd with ⟨m2, q2⟩
  rw [hq] at hsend hslot hkeep
  have hsame := nvmeWaitIo_same device (kind.timeout / 10) 0 m2 q2
  rcases hw : nvmeWaitIo device (kind.timeout / 10) 0 m2 q2 with ⟨ok', m3, q3⟩
  rw [nvmeIo, if_neg (not_not_intro haligned), hsend] at hcall
  simp only [hw, Prod.mk.injEq] at hcall hsame
  obtain ⟨-, rfl, -⟩ := hcall
  rw [hsame.commands, hsame.pmm, hsame.words]
  exact ⟨hslot, hkeep⟩

-- ---------------------------------------------------------------------------
-- When the command is right
-- ---------------------------------------------------------------------------

/-- Up to 65536 blocks the length does not wrap, and the count is right. -/
theorem pageNeeded_blocks (hlen : len ≤ 2 ^ 16) (hsize : lbaSize < 2 ^ 32) :
    pageNeeded (wmul 64 len lbaSize) = (len * lbaSize + 4095) / 4096 := by
  have hle : len * lbaSize ≤ 2 ^ 16 * 2 ^ 32 := Nat.mul_le_mul hlen hsize.le
  rw [wmul_eq (by omega)]
  rcases Nat.eq_zero_or_pos (len * lbaSize) with hzero | hpos
  · rw [hzero]
    decide
  · exact pageNeeded_eq hpos (by omega)

theorem blockCount_iff (hlen : 1 ≤ len) :
    wsub 32 (len % 2 ^ 16) 1 % 2 ^ 16 + 1 = len ↔ len ≤ 2 ^ 16 := by
  rw [wsub]
  omega

theorem block_halves (hlba : lba < 2 ^ 64) :
    lba % 2 ^ 32 + 2 ^ 32 * (lba / 2 ^ 32 % 2 ^ 32) = lba := by
  omega

theorem listWrites_inside (hsound : m.pmm.Sound) (hfree : m.pmm.Free i) (h1 : n ≠ 1) (h2 : n ≠ 2)
    (halloc : (pmmAllocPage m.pmm pageSize).2 = m.pmm.page i)
    (hmapped : ∀ i < n, bufferPage m.tables buffer i ≠ 0) :
    (∀ a ∈ listWrites m buffer n, m.pmm.page i ≤ a ∧ a < m.pmm.page i + 4096) ↔ n ≤ 513 := by
  have hend := hsound.page_end hfree
  have hne := (hsound.address hfree).2
  have hmem : ∀ a, a ∈ listWrites m buffer n ↔
      ∃ j, 1 ≤ j ∧ j < 1 + (n - 1) ∧ a = wadd 64 (m.pmm.page i) (8 * (j - 1)) := by
    intro a
    rw [listWrites, if_neg (not_or_intro h1 h2), halloc]
    exact mem_fillWrites fun j hlo hhi => hmapped j (by omega)
  constructor
  · -- entry 512 is behind the page
    intro h
    by_contra hlarge
    obtain ⟨hlo, hhi⟩ := h _ ((hmem _).mpr ⟨513, by omega, by omega, rfl⟩)
    rw [wadd] at hlo hhi
    omega
  · intro hle a ha
    obtain ⟨j, hlo, hhi, rfl⟩ := (hmem a).mp ha
    rw [wadd_eq (by omega)]
    omega

theorem pageNeeded_le (size : Nat) : pageNeeded (size % 2 ^ 64) ≤ (size + 4095) / 4096 := by
  simp only [pageNeeded, wadd, wsub, blockSize]
  omega

theorem nvmeIo_mapped (haligned : buffer % pageSize = 0) (hbuf : buffer < 2 ^ 64)
    (hfirst : bufferPage m.tables buffer 0 ≠ 0)
    (hmapped : ∀ i < (len * lbaSize + 4095) / 4096, bufferPage m.tables buffer i ≠ 0)
    (hcall : nvmeIo kind device m q nsid lbaSize buffer lba len = (ok, m', q')) :
    ∃ m1 prp2, SecondPointer m buffer (pageNeeded (wmul 64 len lbaSize)) m1 prp2 ∧
      m'.commands q.sq.address q.sqTail =
        (ioRequest kind nsid lbaSize buffer lba len).command m.tables prp2 ∧
      m'.pmm = m1.pmm ∧ m'.words = m1.words := by
  have hle := pageNeeded_le (len * lbaSize)
  obtain ⟨m1, prp2, hd, hsecond⟩ := dataPointer_some (n := pageNeeded (wmul 64 len lbaSize))
    fun i _ hi => hmapped i (hi.trans_le hle)
  rw [bufferPage_zero hbuf] at hfirst
  exact ⟨m1, prp2, hsecond, nvmeIo_eq haligned hfirst hd hcall⟩

/-- The command is right exactly up to 65536 blocks and 513 pages, with a free
page where a list is needed. -/
theorem describes_iff (hsound : m.pmm.Sound) (haligned : buffer % pageSize = 0)
    (hbuf : buffer < 2 ^ 64) (hlen : 1 ≤ len) (hlba : lba < 2 ^ 64) (hsize : lbaSize < 2 ^ 32)
    (hn : n = (len * lbaSize + 4095) / 4096) (hfirst : bufferPage m.tables buffer 0 ≠ 0)
    (hmapped : ∀ i < n, bufferPage m.tables buffer i ≠ 0)
    (hcall : nvmeIo kind device m q nsid lbaSize buffer lba len = (ok, m', q')) :
    Describes m m' (m'.commands q.sq.address q.sqTail) buffer lba len n ↔
      len ≤ 2 ^ 16 ∧ n ≤ 513 ∧ (n = 1 ∨ n = 2 ∨ ∃ i, m.pmm.Free i) := by
  obtain ⟨m1, prp2, hsecond, hcmd, -, hwords⟩ :=
    nvmeIo_mapped haligned hbuf hfirst (hn ▸ hmapped) hcall
  rw [hcmd]
  have hcount := blockCount_iff hlen
  constructor
  · rintro ⟨-, hc, -, -, -, hl⟩
    have hle := hcount.mp hc
    refine ⟨hle, ?_⟩
    rw [pageNeeded_blocks hle hsize, ← hn] at hsecond
    cases hsecond with
    | one h1 => exact ⟨by omega, .inl h1⟩
    | two h2 => exact ⟨by omega, .inr (.inl h2)⟩
    | list h1 h2 words hlist =>
      obtain ⟨i, hfree, halloc, -, hinside⟩ := hl h1 h2
      exact ⟨(listWrites_inside hsound hfree h1 h2 halloc hmapped).mp hinside,
        .inr (.inr ⟨i, hfree⟩)⟩
  · rintro ⟨hle, h513, hroom⟩
    rw [pageNeeded_blocks hle hsize, ← hn] at hsecond
    have hfirst := (bufferPage_zero (m := m) hbuf).symm
    cases hsecond with
    | one h1 =>
      exact ⟨block_halves hlba, hcount.mpr hle, hfirst, fun _ => rfl,
        fun h2 => absurd h1 (by omega), fun h => absurd h1 h⟩
    | two h2 =>
      exact ⟨block_halves hlba, hcount.mpr hle, hfirst, fun h1 => absurd h1 (by omega),
        fun _ => rfl, fun _ h => absurd h2 h⟩
    | list h1 h2 words hlist =>
      refine ⟨block_halves hlba, hcount.mpr hle, hfirst, fun h => absurd h h1, fun h => absurd h h2,
        fun _ _ => ?_⟩
      rcases pmmAllocPage_page hsound with ⟨i, hfree, halloc⟩ | ⟨hnone, -⟩
      · have hpage := congrArg Prod.snd halloc
        have hend := hsound.page_end hfree
        refine ⟨i, hfree, hpage, fun j hj => ?_,
          (listWrites_inside hsound hfree h1 h2 hpage hmapped).mpr h513⟩
        rw [hwords]
        rw [pageSize, hpage] at hlist
        exact hlist (by omega) j hj
      · obtain ⟨i, hfree⟩ := (hroom.resolve_left h1).resolve_left h2
        exact absurd hfree (hnone i)

-- ---------------------------------------------------------------------------
-- When the list is given back
-- ---------------------------------------------------------------------------

/-- A call describes its buffer and loses no page exactly if one or two pages
are enough. -/
theorem pointers_iff (hsound : m.pmm.Sound) (haligned : buffer % pageSize = 0)
    (hbuf : buffer < 2 ^ 64) (hlen : 1 ≤ len) (hlba : lba < 2 ^ 64) (hsize : lbaSize < 2 ^ 32)
    (hn : n = (len * lbaSize + 4095) / 4096) (hfirst : bufferPage m.tables buffer 0 ≠ 0)
    (hmapped : ∀ i < n, bufferPage m.tables buffer i ≠ 0)
    (hcall : nvmeIo kind device m q nsid lbaSize buffer lba len = (ok, m', q')) :
    Describes m m' (m'.commands q.sq.address q.sqTail) buffer lba len n ∧ Released m m' ↔
      1 ≤ len * lbaSize ∧ len * lbaSize ≤ 8192 := by
  obtain ⟨m1, prp2, hsecond, -, hpmm, -⟩ :=
    nvmeIo_mapped haligned hbuf hfirst (hn ▸ hmapped) hcall
  rw [describes_iff hsound haligned hbuf hlen hlba hsize hn hfirst hmapped hcall]
  have hpages : 1 ≤ len * lbaSize ∧ len * lbaSize ≤ 8192 ↔ n = 1 ∨ n = 2 := by omega
  rw [hpages, Released, hpmm]
  constructor
  · rintro ⟨⟨hle, -, hroom⟩, hback⟩
    rw [pageNeeded_blocks hle hsize, ← hn] at hsecond
    cases hsecond with
    | one h1 => exact .inl h1
    | two h2 => exact .inr h2
    | list h1 h2 words hlist =>
      rcases pmmAllocPage_page hsound with ⟨i, hfree, halloc⟩ | ⟨hnone, -⟩
      · have htaken := hback i hfree
        rw [pageSize, halloc] at htaken
        exact absurd rfl (Pmm.free_take_iff.mp htaken).2
      · obtain ⟨i, hfree⟩ := (hroom.resolve_left h1).resolve_left h2
        exact absurd hfree (hnone i)
  · intro h
    have hle : len ≤ 2 ^ 16 := by
      have hbytes := hpages.mpr h
      have hpos : 0 < lbaSize := Nat.pos_of_mul_pos_left hbytes.1
      exact (Nat.le_mul_of_pos_right len hpos).trans (hbytes.2.trans (by decide))
    rw [pageNeeded_blocks hle hsize, ← hn] at hsecond
    refine ⟨⟨hle, by omega, by omega⟩, ?_⟩
    cases hsecond with
    | one h1 => exact fun i hi => hi
    | two h2 => exact fun i hi => hi
    | list h1 h2 words hlist => omega

end

def bufferMachine : Machine :=
  { idleMachine .zero with
    tables := mapPage (fun k => 0x8000 + 0x1000 * k) ⟨0x1000, fun _ _ => .zero, 0⟩ 0x40000000 0x5000
      3 3 }

def ioQueue : NvmePairQueue :=
  { recycledBlock 0 0 with sq := ⟨0x20000, 63⟩, cq := ⟨0x21000, 63⟩, phase := 1, lock := false }

def completes : Nat → (Nat → Nat → NvmeCompletion) → Nat → Nat → NvmeCompletion :=
  fun _ _ _ _ => { status := 1 }

theorem pointers_iff_two_pages : ∃ ok m' q',
    nvmeWrite completes bufferMachine ioQueue 1 512 0x40000000 7 16 = (ok, m', q') ∧
      Describes bufferMachine m' (m'.commands 0x20000 0) 0x40000000 7 16 2 ∧
      Released bufferMachine m' := by
  obtain ⟨⟨ok, m', q'⟩, hcall⟩ :
    ∃ r, nvmeWrite completes bufferMachine ioQueue 1 512 0x40000000 7 16 = r := ⟨_, rfl⟩
  have hsound : bufferMachine.pmm.Sound := ⟨by decide, fun h => absurd h (by decide)⟩
  have hmapped : ∀ i < 2, bufferPage bufferMachine.tables 0x40000000 i ≠ 0 := by decide +kernel
  exact ⟨ok, m', q', hcall, (pointers_iff hsound (by decide) (by decide) (by decide) (by decide)
    (by decide) (by decide) (hmapped 0 (by decide)) hmapped hcall).mpr (by decide)⟩

/-- A read of three pages succeeds, and the page with its list stays in use. -/
theorem list_page_lost :
    0x40000000 % pageSize = 0 ∧
      (∀ i < 3, bufferPage bufferMachine.tables 0x40000000 i ≠ 0) ∧
      (nvmeRead completes bufferMachine ioQueue 1 512 0x40000000 0 24).1 = true ∧
      ¬Released bufferMachine (nvmeRead completes bufferMachine ioQueue 1 512 0x40000000 0 24).2.1 := by
  refine ⟨by decide, by decide +kernel, by decide +kernel, fun h => ?_⟩
  have hfree := h 0 ⟨by decide, by decide⟩
  exact absurd hfree.2 (by decide +kernel)

end TomatoOs.Drivers
