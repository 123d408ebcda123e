import TomatoOs.Drivers.Nvme
import TomatoOs.Lib.Runs

/-!
# The I/O rings

Submissions and completions on one pair of queues, the controller writing its
completions where and when it likes. The indices, the tag and the doorbells
follow from the number of submissions and of completions taken, if the memory of
the queue record held two zeroes.
-/

namespace TomatoOs.Drivers

open Lib Memory

/-- A pair of queues in use: the commands sent so far, and the number of
completions taken. -/
structure Rings where
  m : Machine
  q : NvmePairQueue
  sent : List NvmeCommand
  taken : Nat

inductive RingOp
  | submit (r : IoRequest)
  /-- the controller writes slot `i` of the completion queue -/
  | write (i : Nat) (c : NvmeCompletion)
  | poll

/-- A submission that fails is not part of a run. -/
def Rings.step (s : Rings) : RingOp → Option Rings
  | .submit r =>
    match buildCommand s.m r with
    | (_, none) => none
    | (m, some cmd) =>
      let (m, q) := queueCommand m s.q cmd
      some { s with m, q, sent := s.sent ++ [cmd] }
  | .write i c =>
    some { s with m := { s.m with completions := setEntry s.m.completions s.q.cq.address i c } }
  | .poll =>
    match pollIo s.m s.q with
    | none => some s
    | some (_, m, q) => some { s with m, q, taken := s.taken + 1 }

/-- What the numbers of submissions and of completions taken determine. -/
structure Rings.Law (s : Rings) : Prop where
  tail : s.q.sqTail = s.sent.length % 64
  head : s.q.cqHead = s.taken % 64
  phase : s.q.phase = if s.taken / 64 % 2 = 0 then 1 else 0
  sqBell : s.m.registers s.q.sqDoorbell = s.sent.length % 64
  cqBell : s.m.registers s.q.cqDoorbell = s.taken % 64
  /-- command number `j` went to slot `j % 64` -/
  slot : PhaseRing.Recent 64 (s.m.commands s.q.sq.address) s.sent

-- ---------------------------------------------------------------------------
-- What the functions leave alone
-- ---------------------------------------------------------------------------

theorem fillList_words (m : Machine) (buffer list k i : Nat) :
    ∃ words, (fillList m buffer list k i).1 = { m with words } := by
  induction k generalizing m i with
  | zero => exact ⟨m.words, rfl⟩
  | succ k ih =>
    rw [fillList]
    split
    · exact ⟨m.words, rfl⟩
    · exact ih _ _

theorem dataPointer_frame (m : Machine) (buffer numPages : Nat) :
    ∃ pmm words, (dataPointer m buffer numPages).1 = { m with pmm, words } := by
  rw [dataPointer]
  split
  · exact ⟨m.pmm, m.words, rfl⟩
  split
  · exact ⟨m.pmm, m.words, rfl⟩
  have hfill := fillList_words { m with pmm := (pmmAllocPage m.pmm pageSize).1 } buffer
    (pmmAllocPage m.pmm pageSize).2 (numPages - 1) 1
  obtain ⟨words, hfill⟩ := hfill
  dsimp only
  split
  · rename_i m' heq
    rw [heq] at hfill
    exact ⟨_, words, hfill⟩
  · rename_i m' heq
    rw [heq] at hfill
    exact ⟨_, words, by rw [show m' = _ from hfill]⟩

theorem buildCommand_frame (m : Machine) (r : IoRequest) :
    ∃ pmm words, (buildCommand m r).1 = { m with pmm, words } := by
  rw [buildCommand]
  split
  · exact ⟨m.pmm, m.words, rfl⟩
  obtain ⟨pmm, words, hp⟩ := dataPointer_frame m r.buffer (pageNeeded r.transferBytes)
  split
  · rename_i m' heq
    rw [heq] at hp
    exact ⟨pmm, words, hp⟩
  · rename_i m' prp2 heq
    rw [heq] at hp
    exact ⟨pmm, words, hp⟩

-- ---------------------------------------------------------------------------
-- The law
-- ---------------------------------------------------------------------------

structure NvmePairQueue.Sized (q : NvmePairQueue) : Prop where
  sq : q.sq.size = 63
  cq : q.cq.size = 63
  bells : q.sqDoorbell ≠ q.cqDoorbell

theorem next_index (k : Nat) : wadd 64 (k % 64) 1 % wadd 64 63 1 = (k + 1) % 64 := by
  have hlt : k % 64 < 64 := Nat.mod_lt _ (by decide)
  rw [wadd_eq (by omega), wadd_eq (by decide)]
  omega

theorem queueCommand_law {s : Rings} (hq : s.q.Sized) (hl : s.Law) (cmd : NvmeCommand)
    (hm : m = { s.m with pmm, words }) (he : queueCommand m s.q cmd = (m', q')) :
    q'.Sized ∧ Rings.Law { s with m := m', q := q', sent := s.sent ++ [cmd] } := by
  have htail : wadd 64 s.q.sqTail 1 % wadd 64 s.q.sq.size 1 = (s.sent ++ [cmd]).length % 64 := by
    rw [hl.tail, hq.sq, next_index, List.length_append, List.length_singleton]
  subst hm
  cases he
  refine ⟨⟨hq.sq, hq.cq, hq.bells⟩, htail, hl.head, hl.phase, ?_, ?_, ?_⟩
  · rw [← htail]
    exact Function.update_self ..
  · exact (Function.update_of_ne hq.bells.symm ..).trans hl.cqBell
  · have hpush := hl.slot.push cmd
    rw [← hl.tail] at hpush
    simpa [Machine.writeRegister] using hpush

theorem pollIo_law {s : Rings} (hq : s.q.Sized) (hl : s.Law)
    (he : pollIo s.m s.q = some (c, m', q')) :
    q'.Sized ∧ Rings.Law { s with m := m', q := q', taken := s.taken + 1 } := by
  have hhead : wadd 64 s.q.cqHead 1 % wadd 64 s.q.cq.size 1 = (s.taken + 1) % 64 := by
    rw [hl.head, hq.cq, next_index]
  have hphase := PhaseRing.phase_succ s.taken 64
  rw [pollIo, hhead] at he
  split at he
  · cases he
    refine ⟨⟨hq.sq, hq.cq, hq.bells⟩, hl.tail, rfl, ?_, ?_, ?_, hl.slot⟩
    · rw [hl.phase]
      exact hphase.symm
    · exact (Function.update_of_ne hq.bells ..).trans hl.sqBell
    · have hlt : (s.taken + 1) % 64 < 64 := Nat.mod_lt _ (by decide)
      refine (Function.update_self ..).trans (Nat.mod_eq_of_lt ?_)
      omega
  · cases he

theorem step_law {s : Rings} (hq : s.q.Sized) (hl : s.Law) (h : s.step op = some t) :
    t.q.Sized ∧ t.Law := by
  cases op with
  | submit r =>
    obtain ⟨pmm, words, hm⟩ := buildCommand_frame s.m r
    simp only [Rings.step] at h
    split at h
    · cases h
    · rename_i m cmd heq
      rw [heq] at hm
      cases h
      exact queueCommand_law hq hl cmd hm rfl
  | write i c =>
    cases h
    exact ⟨hq, hl.tail, hl.head, hl.phase, hl.sqBell, hl.cqBell, hl.slot⟩
  | poll =>
    simp only [Rings.step] at h
    split at h
    · cases h
      exact ⟨hq, hl⟩
    · rename_i c m q heq
      cases h
      exact pollIo_law hq hl heq

theorem run_law {s : Rings} (hq : s.q.Sized) (hl : s.Law) (hr : run Rings.step s ops = some t) :
    t.Law :=
  (run_invariant (fun s : Rings => s.q.Sized ∧ s.Law)
    (fun _ _ _ hs h => step_law hs.1 hs.2 h) ⟨hq, hl⟩ hr).2

theorem doorbells_ne (hpos : 0 < stride) (hle : stride ≤ 2 ^ 17) (base qid : Nat) :
    wadd 64 base (wmul 32 (2 * qid) stride) ≠ wadd 64 base (wmul 32 (2 * qid + 1) stride) := by
  have hlo := wmul_lt 32 (2 * qid) stride
  have hhi := wmul_lt 32 (2 * qid + 1) stride
  have hne : wmul 32 (2 * qid) stride ≠ wmul 32 (2 * qid + 1) stride := by
    have hnext : (2 * qid + 1) * stride = 2 * qid * stride + stride := Nat.succ_mul ..
    rw [wmul, wmul, hnext]
    generalize 2 * qid * stride = a
    omega
  rw [wadd, wadd]
  omega

/-- The record of a new queue keeps two words of the memory it was placed in. -/
theorem nvmeCreateIoQueue_some
    (h : nvmeCreateIoQueue wait m ctrl block qid = (m', ctrl', qid', some q)) :
    q.Sized ∧ q.sqTail = block.sqTail ∧ q.cqHead = block.cqHead ∧ q.phase = 1 := by
  simp only [nvmeCreateIoQueue] at h
  split at h
  · cases h
  split at h
  · cases h
  · rename_i ctrl' _
    cases h
    exact ⟨⟨rfl, rfl, doorbells_ne ctrl'.stride_pos ctrl'.stride_le _ _⟩, rfl, rfl, rfl⟩

/-- On a new queue the law holds in every run exactly if the memory of the
record held zeroes in the two indices, and the doorbells read zero. -/
theorem ring_law_iff
    (h : nvmeCreateIoQueue wait m ctrl block qid = (m', ctrl', qid', some q)) :
    (∀ ops t, run Rings.step ⟨m', q, [], 0⟩ ops = some t → t.Law) ↔
      block.sqTail = 0 ∧ block.cqHead = 0 ∧
        m'.registers q.sqDoorbell = 0 ∧ m'.registers q.cqDoorbell = 0 := by
  obtain ⟨hq, htail, hhead, hphase⟩ := nvmeCreateIoQueue_some h
  constructor
  · intro hall
    have hl := hall [] _ rfl
    exact ⟨htail ▸ hl.tail, hhead ▸ hl.head, hl.sqBell, hl.cqBell⟩
  · rintro ⟨hsq, hcq, hsb, hcb⟩ ops t hr
    have hphase : q.phase = if 0 / 64 % 2 = 0 then 1 else 0 := hphase
    refine run_law hq ⟨htail.trans hsq, hhead.trans hcq, hphase, hsb, hcb, ?_⟩ hr
    intro j cmd hj
    simp at hj

def bareController : NvmeController :=
  { bar0 := 0xF0000000, stride := 4, pageSize := 4096, maxQueueEntries := 64
    adminSq := ⟨0x2000, 63⟩, adminCq := ⟨0x3000, 63⟩
    adminSqTail := 0, adminCqHead := 0, adminPhase := 1, mpsmin := 0
    stride_pos := by decide, stride_le := by decide }

def recycledBlock (sqTail cqHead : Nat) : NvmePairQueue :=
  { sq := ⟨0, 0⟩, cq := ⟨0, 0⟩, sqTail, cqHead, phase := 7, qid := 9
    sqDoorbell := 0, cqDoorbell := 0, lock := true }

abbrev newQueue (block : NvmePairQueue) : Machine × NvmeController × Nat × Option NvmePairQueue :=
  nvmeCreateIoQueue (fun m ctrl => (true, m, ctrl)) (idleMachine .zero) bareController block 1

theorem ring_law_zeroed : ∃ m ctrl qid q,
    newQueue (recycledBlock 0 0) = (m, ctrl, qid, some q) ∧
      ∀ ops t, run Rings.step ⟨m, q, [], 0⟩ ops = some t → t.Law := by
  obtain ⟨m, ctrl, qid, q, h, hsb, hcb⟩ : ∃ m ctrl qid q,
      newQueue (recycledBlock 0 0) = (m, ctrl, qid, some q) ∧
        m.registers q.sqDoorbell = 0 ∧ m.registers q.cqDoorbell = 0 :=
    ⟨_, _, _, _, rfl, by decide +kernel, by decide +kernel⟩
  exact ⟨m, ctrl, qid, q, h, (ring_law_iff h).mpr ⟨rfl, rfl, hsb, hcb⟩⟩

/-- The tail of a new queue is what the last owner of the memory left there. -/
theorem recycled_tail : ∃ m ctrl qid q,
    newQueue (recycledBlock 5 0) = (m, ctrl, qid, some q) ∧
      q.sqTail = 5 ∧ ¬Rings.Law ⟨m, q, [], 0⟩ :=
  ⟨_, _, _, _, rfl, rfl, fun hl => absurd hl.tail (by decide)⟩

end TomatoOs.Drivers
