import TomatoOs.Drivers.NvmeRing

/-!
# Reads and writes on one pair of queues

Calls of `nvme_read` and `nvme_write` take turns as the queue's lock lets them,
and `nvme_write` does not ask for it. A command carries no number: a call takes
the completion that is under the head when it looks. It has its own answer, in
whatever order the controller answers, exactly if the completion was posted while
no other command was unanswered.
-/

namespace TomatoOs.Drivers

open Lib Memory

inductive IoKind
  | read
  | write
deriving DecidableEq

def IoKind.opcode : IoKind → Nat
  | .read => 0x02
  | .write => 0x01

def IoKind.timeout : IoKind → Nat
  | .read => 1000
  | .write => 5000

inductive CallState
  | waiting (elapsed : Nat)
  | returned (ok : Bool)
deriving DecidableEq

structure IoCall where
  kind : IoKind
  state : CallState
deriving DecidableEq

/-- A completion that was posted: the call it answers, and the calls that had
no answer then. -/
structure Answer where
  call : Nat
  choices : List Nat
deriving DecidableEq

/-- Calls are numbered as they start. `pending` has those whose command was not
answered yet; `returns` has those that returned true, each with the number of
the completion it took. -/
structure Io where
  m : Machine
  q : NvmePairQueue
  nsid : Nat
  lbaSize : Nat
  calls : List IoCall
  pending : List Nat
  posted : Posted
  answers : List Answer
  taken : Nat
  returns : List (Nat × Option Nat)

def Io.start (m : Machine) (q : NvmePairQueue) (nsid lbaSize : Nat) : Io :=
  { m := { m with completions := Function.update m.completions q.cq.address fun _ => .zero }
    q := { q with
      sq := ⟨q.sq.address, 63⟩, cq := ⟨q.cq.address, 63⟩, sqTail := 0, cqHead := 0, phase := 1
      lock := false }
    nsid, lbaSize, calls := [], pending := [], posted := .empty, answers := [], taken := 0
    returns := [] }

inductive IoOp
  /-- a call up to the end of `nvme_send_io` -/
  | submit (kind : IoKind) (buffer lba lenInBlocks : Nat)
  /-- the controller posts a completion -/
  | post
  /-- one round of the loop in `nvme_wait_io` -/
  | poll (call : Nat)

/-- What the controller answers next: the place of the command among those
without answer, and the completion. -/
abbrev Order := Nat → Nat × NvmeCompletion

def Io.request (s : Io) (kind : IoKind) (buffer lba lenInBlocks : Nat) : IoRequest :=
  ⟨kind.opcode, s.nsid, buffer, lba, lenInBlocks % 2 ^ 16, wmul 64 lenInBlocks s.lbaSize⟩

def NvmePairQueue.setLock (q : NvmePairQueue) (kind : IoKind) (held : Bool) : NvmePairQueue :=
  match kind with
  | .read => { q with lock := held }
  | .write => q

def Io.finish (s : Io) (call : Nat) (kind : IoKind) (ok : Bool) : Io :=
  { s with calls := s.calls.set call ⟨kind, .returned ok⟩, q := s.q.setLock kind false }

def Io.look (s : Io) (call : Nat) (kind : IoKind) (elapsed : Nat) : Io :=
  match pollIo s.m s.q with
  | none => { s with calls := s.calls.set call ⟨kind, .waiting (elapsed + 10)⟩ }
  | some (c, m, q) =>
    -- the callers look at the status once more, to no effect
    let ok := decide (c.statusCode = 0)
    { Io.finish { s with m, q, taken := s.taken + 1 } call kind ok with
      returns := if ok then s.returns ++ [(call, s.posted.origin s.q.cqHead)] else s.returns }

def Io.answer (s : Io) (i : Nat) (c : NvmeCompletion) : Io :=
  let i := i % s.pending.length
  let (m, posted) := postCompletion s.m s.q.cq.address s.posted c
  { s with
    m, posted, pending := s.pending.eraseIdx i
    answers := s.answers ++ [⟨s.pending.getD i 0, s.pending⟩] }

def Io.step (order : Order) (s : Io) : IoOp → Option Io
  | .submit kind buffer lba lenInBlocks =>
    if buffer % pageSize ≠ 0 then
      some { s with calls := s.calls ++ [⟨kind, .returned false⟩] }
    else if kind = .read ∧ s.q.lock then none
    else
      let r := s.request kind buffer lba lenInBlocks
      let (m, q) := nvmeSendIo s.m (s.q.setLock kind true) r
      some { s with
        m, q, calls := s.calls ++ [⟨kind, .waiting 0⟩]
        pending := if (buildCommand s.m r).2.isSome then s.pending ++ [s.calls.length]
          else s.pending }
  | .post =>
    if s.pending ≠ [] ∧ s.posted.items.length < s.taken + 64 then
      let (i, c) := order s.posted.items.length
      some (s.answer i c)
    else none
  | .poll call =>
    match s.calls[call]? with
    | some ⟨kind, .waiting elapsed⟩ =>
      if elapsed < kind.timeout then some (s.look call kind elapsed)
      else some (s.finish call kind false)
    | _ => none

/-- A call that returned true took the completion, with status zero, of its own
command. -/
def Io.Genuine (s : Io) : Prop :=
  ∀ call o, (call, o) ∈ s.returns → ∃ j c a, o = some j ∧ s.posted.items[j]? = some c ∧
    c.statusCode = 0 ∧ s.answers[j]? = some a ∧ a.call = call

def Io.Looks (s : Io) (call : Nat) : Prop :=
  ∃ kind elapsed, s.calls[call]? = some ⟨kind, .waiting elapsed⟩ ∧ elapsed < kind.timeout

/-- A completion that the operation takes was posted while the command of that
call was the only one without answer. -/
def Io.Alone (s : Io) : IoOp → Prop
  | .poll call => s.Looks call → ∀ a, s.answers[s.taken]? = some a → a.choices = [call]
  | _ => True

/-- The oldest command first, every status zero. -/
def inOrder : Order := fun _ => (0, .zero)

-- ---------------------------------------------------------------------------
-- What the driver's functions see and leave alone
-- ---------------------------------------------------------------------------

@[simp] theorem setLock_cq (q : NvmePairQueue) : (q.setLock kind held).cq = q.cq := by
  cases kind <;> rfl

@[simp] theorem setLock_cqHead (q : NvmePairQueue) : (q.setLock kind held).cqHead = q.cqHead := by
  cases kind <;> rfl

@[simp] theorem setLock_phase (q : NvmePairQueue) : (q.setLock kind held).phase = q.phase := by
  cases kind <;> rfl

def IoRequest.Mapped (r : IoRequest) (tables : Vmm) : Prop :=
  getPhysicalAddress tables r.buffer ≠ 0 ∧
    ∀ i, 1 ≤ i → i < pageNeeded r.transferBytes →
      getPhysicalAddress tables (wadd 64 r.buffer (wmul 64 i pageSize)) ≠ 0

theorem fillList_ok (m : Machine) (buffer list k i : Nat) :
    (fillList m buffer list k i).2 = true ↔ ∀ j, i ≤ j → j < i + k →
      getPhysicalAddress m.tables (wadd 64 buffer (wmul 64 j pageSize)) ≠ 0 := by
  induction k generalizing m i with
  | zero => exact ⟨fun _ j hj hlt => by omega, fun _ => rfl⟩
  | succ k ih =>
    rw [fillList]
    split
    · rename_i hzero
      simp only [Bool.false_eq_true, false_iff, not_forall]
      exact ⟨i, Nat.le_refl i, by omega, not_not.mpr hzero⟩
    · rename_i hne
      rw [ih]
      constructor
      · intro h j hj hlt
        rcases Nat.eq_or_lt_of_le hj with rfl | hj
        · exact hne
        · exact h j hj (by omega)
      · exact fun h j hj hlt => h j (by omega) (by omega)

theorem dataPointer_isSome (m : Machine) (buffer n : Nat) :
    (dataPointer m buffer n).2.isSome ↔ ∀ i, 1 ≤ i → i < n →
      getPhysicalAddress m.tables (wadd 64 buffer (wmul 64 i pageSize)) ≠ 0 := by
  have hfill := fillList_ok { m with pmm := (pmmAllocPage m.pmm pageSize).1 } buffer
    (pmmAllocPage m.pmm pageSize).2 (n - 1) 1
  rw [dataPointer]
  split
  · exact ⟨fun _ i hi hlt => by omega, fun _ => rfl⟩
  split
  · rename_i hn
    have hone : wmul 64 1 pageSize = pageSize := by decide
    simp only
    split
    · rename_i hzero
      simp only [Option.isSome_none, Bool.false_eq_true, false_iff, not_forall]
      exact ⟨1, Nat.le_refl 1, by omega, by rw [hone]; exact not_not.mpr hzero⟩
    · rename_i hne
      refine ⟨fun _ i hi hlt => ?_, fun _ => rfl⟩
      obtain rfl : i = 1 := by omega
      rwa [hone]
  · simp only
    split
    · rename_i m' heq
      rw [heq] at hfill
      exact ⟨fun _ i hi hlt => hfill.mp rfl i hi (by omega), fun _ => rfl⟩
    · rename_i m' heq
      rw [heq] at hfill
      simp only [Option.isSome_none, Bool.false_eq_true, false_iff] at hfill ⊢
      exact fun h => hfill fun i hi hlt => h i hi (by omega)

theorem buildCommand_isSome (m : Machine) (r : IoRequest) :
    (buildCommand m r).2.isSome ↔ r.Mapped m.tables := by
  have hdata := dataPointer_isSome m r.buffer (pageNeeded r.transferBytes)
  rw [buildCommand]
  split
  · rename_i hzero
    simp [IoRequest.Mapped, hzero]
  · rename_i hne
    split
    · rename_i m' heq
      rw [heq] at hdata
      simp only [Option.isSome_none, Bool.false_eq_true, false_iff] at hdata ⊢
      exact fun h => hdata h.2
    · rename_i m' prp2 heq
      rw [heq] at hdata
      exact ⟨fun _ => ⟨hne, hdata.mp rfl⟩, fun _ => rfl⟩

theorem nvmeSendIo_frame (m : Machine) (q : NvmePairQueue) (r : IoRequest) :
    (nvmeSendIo m q r).1.completions = m.completions ∧ (nvmeSendIo m q r).1.tables = m.tables ∧
      (nvmeSendIo m q r).2 = if (buildCommand m r).2.isSome then
        { q with sqTail := wadd 64 q.sqTail 1 % wadd 64 q.sq.size 1 } else q := by
  obtain ⟨pmm, words, hm⟩ := buildCommand_frame m r
  rw [nvmeSendIo]
  split
  · rename_i m' heq
    rw [heq] at hm ⊢
    obtain rfl : m' = _ := hm
    exact ⟨rfl, rfl, rfl⟩
  · rename_i m' cmd heq
    rw [heq] at hm ⊢
    obtain rfl : m' = _ := hm
    exact ⟨rfl, rfl, rfl⟩

-- ---------------------------------------------------------------------------
-- The ring as a queue of answers
-- ---------------------------------------------------------------------------

/-- The calls have taken the first answers in order, and each answer is what
the controller chose. -/
structure Io.Coherent (order : Order) (s : Io) : Prop where
  size : s.q.cq.size = 63
  head : s.q.cqHead = s.taken % 64
  phase : s.q.phase = PhaseRing.phase 64 s.taken
  ring : s.posted.Holds s.m s.q.cq.address fun _ => .zero
  taken : s.taken ≤ s.posted.items.length
  room : s.posted.items.length ≤ s.taken + 64
  length : s.answers.length = s.posted.items.length
  distinct : s.pending.Nodup
  known : ∀ c ∈ s.pending, c < s.calls.length
  chosen : ∀ j a, s.answers[j]? = some a →
    a.choices.Nodup ∧ a.choices[(order j).1 % a.choices.length]? = some a.call
  codes : ∀ j c, s.posted.items[j]? = some c → c.statusCode = (order j).2.statusCode

theorem start_coherent (order : Order) (m : Machine) (q : NvmePairQueue) (nsid lbaSize : Nat) :
    (Io.start m q nsid lbaSize).Coherent order := by
  refine ⟨rfl, rfl, (PhaseRing.phase_first (Nat.zero_lt_succ 63)).symm, ?_, Nat.le_refl 0,
    Nat.zero_le _, rfl, .nil, fun c hc => absurd hc List.not_mem_nil,
    fun j a hj => absurd hj (by simp [Io.start]),
    fun j c hj => absurd hj (by simp [Io.start, Posted.empty])⟩
  have hempty := posted_empty (Io.start m q nsid lbaSize).m q.cq.address
  have hzero : (Io.start m q nsid lbaSize).m.completions q.cq.address = fun _ => .zero :=
    Function.update_self ..
  rwa [hzero] at hempty

theorem Io.Coherent.poll_none {s : Io} (h : s.Coherent order)
    (hle : s.posted.items.length ≤ s.taken) : pollIo s.m s.q = none := by
  have hready := mt (h.ring.ready (fun _ _ => rfl) h.taken h.room).mp (Nat.not_lt.mpr hle)
  rw [← h.head, ← h.phase] at hready
  rw [pollIo, if_neg hready]

theorem Io.Coherent.poll_some {s : Io} (h : s.Coherent order)
    (hc : s.posted.items[s.taken]? = some c) :
    ∃ registers, pollIo s.m s.q = some (c, { s.m with registers },
        { s.q with
          cqHead := (s.taken + 1) % 64, phase := PhaseRing.phase 64 (s.taken + 1) }) ∧
      s.posted.origin s.q.cqHead = some s.taken := by
  obtain ⟨hslot, horigin, htag⟩ := h.ring.under hc h.room
  rw [← h.head] at hslot horigin
  have hnext : wadd 64 s.q.cqHead 1 % wadd 64 s.q.cq.size 1 = (s.taken + 1) % 64 := by
    rw [h.head, h.size, next_index]
  refine ⟨Function.update s.m.registers s.q.cqDoorbell ((s.taken + 1) % 64 % 2 ^ 32), ?_, horigin⟩
  rw [pollIo, hslot, if_pos (htag.trans h.phase.symm), hnext, PhaseRing.phase_succ, h.phase]
  rfl

theorem Io.Coherent.finish {s : Io} (h : s.Coherent order) (call : Nat) (kind : IoKind)
    (ok : Bool) : (s.finish call kind ok).Coherent order := by
  refine ⟨?_, ?_, ?_, ?_, h.taken, h.room, h.length, h.distinct, ?_, h.chosen, h.codes⟩
  · simpa [Io.finish] using h.size
  · simpa [Io.finish] using h.head
  · simpa [Io.finish] using h.phase
  · simpa [Io.finish] using h.ring
  · simpa [Io.finish] using h.known

theorem Io.Coherent.look {s : Io} (h : s.Coherent order) (call : Nat) (kind : IoKind)
    (elapsed : Nat) : (s.look call kind elapsed).Coherent order := by
  rcases Nat.lt_or_ge s.taken s.posted.items.length with hlt | hge
  · obtain ⟨registers, hpoll, -⟩ := h.poll_some (List.getElem?_eq_getElem hlt)
    have hroom := h.room
    have hnext : Io.Coherent order { s with
        m := { s.m with registers }
        q := { s.q with
          cqHead := (s.taken + 1) % 64, phase := PhaseRing.phase 64 (s.taken + 1) }
        taken := s.taken + 1 } :=
      ⟨h.size, rfl, rfl, h.ring, hlt, by simp only; omega, h.length, h.distinct, h.known, h.chosen,
        h.codes⟩
    have hfin := hnext.finish call kind ((s.posted.items.get ⟨s.taken, hlt⟩).statusCode = 0)
    rw [Io.look, hpoll]
    exact ⟨hfin.size, hfin.head, hfin.phase, hfin.ring, hfin.taken, hfin.room, hfin.length,
      hfin.distinct, hfin.known, hfin.chosen, hfin.codes⟩
  · rw [Io.look, h.poll_none hge]
    refine ⟨h.size, h.head, h.phase, h.ring, h.taken, h.room, h.length, h.distinct, ?_, h.chosen,
      h.codes⟩
    simpa using h.known

theorem Io.Coherent.answer {s : Io} (h : s.Coherent order) (hne : s.pending ≠ [])
    (hroom : s.posted.items.length < s.taken + 64) :
    (s.answer (order s.posted.items.length).1 (order s.posted.items.length).2).Coherent order := by
  have hlen := postCompletion_length s.m s.q.cq.address s.posted (order s.posted.items.length).2
  have hpos : 0 < s.pending.length := List.length_pos_iff.mpr hne
  have hidx := Nat.mod_lt (order s.posted.items.length).1 hpos
  have htaken := h.taken
  refine ⟨h.size, h.head, h.phase, postCompletion_holds h.ring _, ?_, ?_, ?_,
    h.distinct.eraseIdx _, fun c hc => h.known c (List.mem_of_mem_eraseIdx hc), ?_, ?_⟩
  · simp only [Io.answer, hlen]
    omega
  · simp only [Io.answer, hlen]
    omega
  · simp only [Io.answer, hlen, List.length_append, List.length_singleton, h.length]
  · intro j a hj
    rcases PhaseRing.getElem?_snoc.mp hj with hj | ⟨rfl, rfl⟩
    · exact h.chosen j a hj
    · refine ⟨h.distinct, ?_⟩
      simp only [h.length, List.getD_eq_getElem?_getD, List.getElem?_eq_getElem hidx,
        Option.getD_some]
  · intro j c hj
    rcases PhaseRing.getElem?_snoc.mp hj with hj | ⟨rfl, rfl⟩
    · exact h.codes j c hj
    · rw [NvmeCompletion.statusCode, PhaseRing.phase]
      have hlt : (order s.posted.items.length).2.statusCode < 2 ^ 15 := Nat.mod_lt _ (by decide)
      simp only
      split_ifs <;> omega

theorem Io.Coherent.submit {s t : Io} (h : s.Coherent order)
    (hs : s.step order (.submit kind buffer lba len) = some t) : t.Coherent order := by
  have hknown : ∀ c ∈ s.pending, c < s.calls.length + 1 := fun c hc => by
    have := h.known c hc
    omega
  simp only [Io.step] at hs
  split at hs
  · cases hs
    exact ⟨h.size, h.head, h.phase, h.ring, h.taken, h.room, h.length, h.distinct,
      by simpa using hknown, h.chosen, h.codes⟩
  split at hs
  · cases hs
  obtain ⟨hmem, -, hq⟩ := nvmeSendIo_frame s.m (s.q.setLock kind true)
    (s.request kind buffer lba len)
  generalize nvmeSendIo s.m (s.q.setLock kind true) (s.request kind buffer lba len) = r at hs hmem hq
  obtain ⟨m, q⟩ := r
  cases hs
  have hcq : q.cq = s.q.cq ∧ q.cqHead = s.q.cqHead ∧ q.phase = s.q.phase := by
    simp only at hq
    rw [hq]
    split <;> simp
  obtain ⟨hcq, hhead, hphase⟩ := hcq
  refine ⟨?_, hhead.trans h.head, hphase.trans h.phase, ?_, h.taken, h.room, h.length, ?_, ?_,
    h.chosen, h.codes⟩
  · simp only [hcq, h.size]
  · have hring := h.ring
    simp only [Posted.Holds] at hring ⊢
    rwa [hcq, hmem]
  · simp only
    split
    · rw [List.nodup_append]
      refine ⟨h.distinct, List.nodup_singleton _, fun a ha b hb => ?_⟩
      have := h.known a ha
      have := List.mem_singleton.mp hb
      omega
    · exact h.distinct
  · simp only [List.length_append, List.length_singleton]
    split
    · intro c hc
      rcases List.mem_append.mp hc with hc | hc
      · exact hknown c hc
      · have := List.mem_singleton.mp hc
        omega
    · exact hknown

theorem step_coherent {s t : Io} (h : s.Coherent order) (hs : s.step order op = some t) :
    t.Coherent order := by
  cases op with
  | submit kind buffer lba len => exact h.submit hs
  | post =>
    simp only [Io.step] at hs
    split at hs
    · rename_i hguard
      cases hs
      exact h.answer hguard.1 hguard.2
    · cases hs
  | poll call =>
    simp only [Io.step] at hs
    split at hs
    · split at hs
      · cases hs
        exact h.look call _ _
      · cases hs
        exact h.finish call _ false
    · cases hs

-- ---------------------------------------------------------------------------
-- Taking an answer
-- ---------------------------------------------------------------------------

theorem Io.Genuine.answer {s : Io} (hg : s.Genuine) (i : Nat) (c : NvmeCompletion) :
    (s.answer i c).Genuine := by
  intro call o hret
  obtain ⟨j, c', a, ho, hc, hcode, ha, hcall⟩ := hg call o hret
  exact ⟨j, c', a, ho, PhaseRing.getElem?_snoc.mpr (.inl hc), hcode,
    PhaseRing.getElem?_snoc.mpr (.inl ha), hcall⟩

theorem Io.Coherent.look_returns {s : Io} (h : s.Coherent order)
    (hc : s.posted.items[s.taken]? = some c) (call : Nat) (kind : IoKind) (elapsed : Nat) :
    (s.look call kind elapsed).posted = s.posted ∧ (s.look call kind elapsed).answers = s.answers ∧
      (s.look call kind elapsed).taken = s.taken + 1 ∧
      (s.look call kind elapsed).returns =
        if c.statusCode = 0 then s.returns ++ [(call, some s.taken)] else s.returns := by
  obtain ⟨registers, hpoll, horigin⟩ := h.poll_some hc
  rw [Io.look, hpoll]
  refine ⟨rfl, rfl, rfl, ?_⟩
  simp only [decide_eq_true_eq, horigin]

theorem Io.Coherent.look_genuine {s : Io} (h : s.Coherent order) (hg : s.Genuine)
    (ha : ∀ a, s.answers[s.taken]? = some a → a.choices = [call]) :
    (s.look call kind elapsed).Genuine := by
  rcases Nat.lt_or_ge s.taken s.posted.items.length with hlt | hge
  · have hc := List.getElem?_eq_getElem hlt
    obtain ⟨hposted, hanswers, -, hreturns⟩ := h.look_returns hc call kind elapsed
    intro call' o hret
    rw [hposted, hanswers]
    rw [hreturns] at hret
    split at hret
    · rename_i hcode
      rcases List.mem_append.mp hret with hret | hret
      · exact hg call' o hret
      · obtain ⟨rfl, rfl⟩ := Prod.mk.inj (List.mem_singleton.mp hret)
        have hans := List.getElem?_eq_getElem (h.length.symm ▸ hlt)
        refine ⟨s.taken, _, _, rfl, hc, hcode, hans, ?_⟩
        -- the only command without answer
        have hchosen := (h.chosen _ _ hans).2
        rw [ha _ hans, List.length_singleton, Nat.mod_one] at hchosen
        exact (Option.some.inj hchosen).symm
    · exact hg call' o hret
  · rw [Io.look, h.poll_none hge]
    exact hg

/-- What a step does to the answers and to those who took them. -/
theorem step_cases {s t : Io} (hs : s.step order op = some t) :
    (t.posted = s.posted ∧ t.answers = s.answers ∧ t.taken = s.taken ∧ t.returns = s.returns) ∨
      (∃ i c, t = s.answer i c) ∨
      ∃ call kind elapsed, op = .poll call ∧ s.Looks call ∧ t = s.look call kind elapsed := by
  cases op with
  | submit kind buffer lba len =>
    simp only [Io.step] at hs
    split at hs
    · cases hs
      exact .inl ⟨rfl, rfl, rfl, rfl⟩
    split at hs
    · cases hs
    · cases hs
      exact .inl ⟨rfl, rfl, rfl, rfl⟩
  | post =>
    simp only [Io.step] at hs
    split at hs
    · cases hs
      exact .inr (.inl ⟨_, _, rfl⟩)
    · cases hs
  | poll call =>
    simp only [Io.step] at hs
    split at hs
    · rename_i kind elapsed hcall
      split at hs
      · rename_i htime
        cases hs
        exact .inr (.inr ⟨call, kind, elapsed, rfl, ⟨kind, elapsed, hcall, htime⟩, rfl⟩)
      · cases hs
        exact .inl ⟨rfl, rfl, rfl, rfl⟩
    · cases hs

theorem step_genuine {s t : Io} (h : s.Coherent order) (hg : s.Genuine) (ha : s.Alone op)
    (hs : s.step order op = some t) : t.Genuine := by
  rcases step_cases hs with ⟨hp, han, -, hr⟩ | ⟨i, c, rfl⟩ | ⟨call, kind, elapsed, rfl, hl, rfl⟩
  · rw [Io.Genuine, hp, han, hr]
    exact hg
  · exact hg.answer i c
  · exact h.look_genuine hg (ha hl)

-- ---------------------------------------------------------------------------
-- Two orders side by side
-- ---------------------------------------------------------------------------

/-- The first `k` answers were posted while one command was without answer. -/
def Clear (l : List Answer) (k : Nat) : Prop := ∀ j < k, ∀ a, l[j]? = some a → a.choices.length = 1

def IoCall.shape (c : IoCall) : IoKind × Option Nat :=
  match c.state with
  | .waiting elapsed => (c.kind, some elapsed)
  | .returned _ => (c.kind, none)

/-- Two runs of the same operations, for two orders. They have different
answers only from the first on that had a choice. -/
structure Io.Alike (s s' : Io) : Prop where
  tables : s.m.tables = s'.m.tables
  q : s.q = s'.q
  nsid : s.nsid = s'.nsid
  lbaSize : s.lbaSize = s'.lbaSize
  calls : s.calls.map IoCall.shape = s'.calls.map IoCall.shape
  taken : s.taken = s'.taken
  count : s.pending.length = s'.pending.length
  length : s.answers.length = s'.answers.length
  pending : Clear s.answers s.answers.length → s.pending = s'.pending
  choices : ∀ j, Clear s.answers j →
    s.answers[j]?.map Answer.choices = s'.answers[j]?.map Answer.choices

theorem Io.Alike.refl (s : Io) : s.Alike s :=
  ⟨rfl, rfl, rfl, rfl, rfl, rfl, rfl, rfl, fun _ => rfl, fun _ _ => rfl⟩

theorem Clear.mono (h : Clear l k) (hj : j ≤ k) : Clear l j :=
  fun i hi a ha => h i (Nat.lt_of_lt_of_le hi hj) a ha

theorem clear_snoc (h : Clear (l ++ [a]) k) : Clear l k :=
  fun j hj b hb => h j hj b (PhaseRing.getElem?_snoc.mpr (.inl hb))

theorem Io.Alike.finish {s s' : Io} (h : s.Alike s') (call : Nat) (kind : IoKind) (ok ok' : Bool) :
    (s.finish call kind ok).Alike (s'.finish call kind ok') := by
  refine ⟨h.tables, ?_, h.nsid, h.lbaSize, ?_, h.taken, h.count, h.length, h.pending, h.choices⟩
  · simp only [Io.finish, h.q]
  · simp only [Io.finish, List.map_set, h.calls]
    rfl

theorem Io.Alike.look {s s' : Io} (h : s.Alike s') (hs : s.Coherent order)
    (hs' : s'.Coherent order') (call : Nat) (kind : IoKind) (elapsed : Nat) :
    (s.look call kind elapsed).Alike (s'.look call kind elapsed) := by
  have hitems : s.posted.items.length = s'.posted.items.length := by
    rw [← hs.length, ← hs'.length, h.length]
  rcases Nat.lt_or_ge s.taken s.posted.items.length with hlt | hge
  · have hlt' : s'.taken < s'.posted.items.length := by rwa [← h.taken, ← hitems]
    obtain ⟨registers, hpoll, -⟩ := hs.poll_some (List.getElem?_eq_getElem hlt)
    obtain ⟨registers', hpoll', -⟩ := hs'.poll_some (List.getElem?_eq_getElem hlt')
    have hnext : Io.Alike
        { s with
          m := { s.m with registers }
          q := { s.q with
            cqHead := (s.taken + 1) % 64, phase := PhaseRing.phase 64 (s.taken + 1) }
          taken := s.taken + 1 }
        { s' with
          m := { s'.m with registers := registers' }
          q := { s'.q with
            cqHead := (s'.taken + 1) % 64, phase := PhaseRing.phase 64 (s'.taken + 1) }
          taken := s'.taken + 1 } := by
      refine ⟨h.tables, ?_, h.nsid, h.lbaSize, h.calls, ?_, h.count, h.length, h.pending, h.choices⟩
      · simp only [h.q, h.taken]
      · simp only [h.taken]
    have hfin := hnext.finish call kind ((s.posted.items.get ⟨s.taken, hlt⟩).statusCode = 0)
      ((s'.posted.items.get ⟨s'.taken, hlt'⟩).statusCode = 0)
    rw [Io.look, Io.look, hpoll, hpoll']
    exact ⟨hfin.tables, hfin.q, hfin.nsid, hfin.lbaSize, hfin.calls, hfin.taken, hfin.count,
      hfin.length, hfin.pending, hfin.choices⟩
  · have hge' : s'.posted.items.length ≤ s'.taken := by rwa [← h.taken, ← hitems]
    rw [Io.look, Io.look, hs.poll_none hge, hs'.poll_none hge']
    refine ⟨h.tables, h.q, h.nsid, h.lbaSize, ?_, h.taken, h.count, h.length, h.pending, h.choices⟩
    simp only [List.map_set, h.calls]

theorem Io.Alike.answer {s s' : Io} (h : s.Alike s') (hne : s.pending ≠ []) (i i' : Nat)
    (c c' : NvmeCompletion) : (s.answer i c).Alike (s'.answer i' c') := by
  have hpos' : 0 < s'.pending.length := h.count ▸ List.length_pos_iff.mpr hne
  refine ⟨h.tables, h.q, h.nsid, h.lbaSize, h.calls, h.taken, ?_, ?_, ?_, fun j hj => ?_⟩
  · simp only [Io.answer, List.length_eraseIdx, Nat.mod_lt _ hpos', if_true, h.count]
  · simp only [Io.answer, List.length_append, List.length_singleton, h.length]
  · -- one command at most: none is left
    intro hclear
    simp only [Io.answer, List.length_append, List.length_singleton] at hclear
    have hone : s.pending.length = 1 :=
      hclear s.answers.length (by omega) _ List.getElem?_concat_length
    simp only [Io.answer, hone, ← h.count, Nat.mod_one]
    have hle : ∀ l : List Nat, l.length = 1 → l.eraseIdx 0 = [] := fun l hl => by
      rw [← List.length_eq_zero_iff, List.length_eraseIdx, hl]
      rfl
    rw [hle _ hone, hle _ (h.count ▸ hone)]
  · simp only [Io.answer, List.getElem?_append, ← h.length]
    split
    · exact h.choices j (clear_snoc hj)
    · rename_i hge
      rw [h.pending ((clear_snoc hj).mono (by omega))]
      simp only [List.getElem?_singleton]
      split <;> rfl

theorem Io.Alike.submit {s s' : Io} (h : s.Alike s') (kind : IoKind) (buffer lba len : Nat) :
    Option.Rel Io.Alike (s.step order (.submit kind buffer lba len))
      (s'.step order' (.submit kind buffer lba len)) := by
  have hcalls : s.calls.length = s'.calls.length := by
    simpa using congrArg List.length h.calls
  have hreq : s.request kind buffer lba len = s'.request kind buffer lba len := by
    rw [Io.request, Io.request, h.nsid, h.lbaSize]
  simp only [Io.step, hreq, h.q]
  split
  · refine .some ⟨h.tables, rfl, h.nsid, h.lbaSize, ?_, h.taken, h.count, h.length, h.pending,
      h.choices⟩
    simp only [List.map_append, h.calls]
  split
  · exact .none
  · generalize s'.request kind buffer lba len = r
    have hsent : (buildCommand s.m r).2.isSome = (buildCommand s'.m r).2.isSome := by
      rw [Bool.eq_iff_iff, buildCommand_isSome, buildCommand_isSome, h.tables]
    obtain ⟨-, htables, hq⟩ := nvmeSendIo_frame s.m (s'.q.setLock kind true) r
    obtain ⟨-, htables', hq'⟩ := nvmeSendIo_frame s'.m (s'.q.setLock kind true) r
    refine .some ⟨?_, ?_, h.nsid, h.lbaSize, ?_, h.taken, ?_, h.length, fun hclear => ?_, h.choices⟩
    · simp only [htables, htables', h.tables]
    · simp only [hq, hq', hsent]
    · simp only [List.map_append, h.calls]
    · simp only [hsent]
      split
      · simp only [List.length_append, List.length_singleton, h.count]
      · exact h.count
    · simp only [hsent, hcalls, h.pending hclear]

theorem shape_waiting {c : IoCall} :
    c.shape = (kind, some elapsed) ↔ c = ⟨kind, .waiting elapsed⟩ := by
  obtain ⟨k, st⟩ := c
  cases st <;> simp [IoCall.shape]

theorem waiting_of_shapes {l l' : List IoCall} {call : Nat} {kind : IoKind} {elapsed : Nat}
    (h : l.map IoCall.shape = l'.map IoCall.shape)
    (hc : l[call]? = some ⟨kind, .waiting elapsed⟩) :
    l'[call]? = some ⟨kind, .waiting elapsed⟩ := by
  have hshape : (l'.map IoCall.shape)[call]? = some (kind, some elapsed) := by
    rw [← h, List.getElem?_map, hc, Option.map_some, shape_waiting.mpr rfl]
  rw [List.getElem?_map] at hshape
  obtain ⟨c', hc', hs⟩ := Option.map_eq_some_iff.mp hshape
  rw [hc', shape_waiting.mp hs]

theorem Io.Alike.looks {s s' : Io} (h : s.Alike s') (call : Nat) :
    s.Looks call ↔ s'.Looks call := by
  constructor
  · rintro ⟨kind, elapsed, hc, htime⟩
    exact ⟨kind, elapsed, waiting_of_shapes h.calls hc, htime⟩
  · rintro ⟨kind, elapsed, hc, htime⟩
    exact ⟨kind, elapsed, waiting_of_shapes h.calls.symm hc, htime⟩

theorem step_poll_none {s : Io} (h : ∀ kind elapsed, s.calls[call]? ≠ some ⟨kind, .waiting elapsed⟩) :
    s.step order (.poll call) = none := by
  simp only [Io.step]

theorem Io.Alike.step {s s' : Io} (h : s.Alike s') (hs : s.Coherent order)
    (hs' : s'.Coherent order') (op : IoOp) :
    Option.Rel Io.Alike (s.step order op) (s'.step order' op) := by
  cases op with
  | submit kind buffer lba len => exact h.submit kind buffer lba len
  | post =>
    have hguard : s.pending ≠ [] ∧ s.posted.items.length < s.taken + 64 ↔
        s'.pending ≠ [] ∧ s'.posted.items.length < s'.taken + 64 := by
      rw [← List.length_pos_iff, ← List.length_pos_iff, h.count, ← hs.length, ← hs'.length,
        h.length, h.taken]
    simp only [Io.step, ← hguard]
    split
    · rename_i hne
      exact .some (h.answer hne.1 _ _ _ _)
    · exact .none
  | poll call =>
    by_cases hw : ∃ kind elapsed, s.calls[call]? = some ⟨kind, .waiting elapsed⟩
    · obtain ⟨kind, elapsed, hc⟩ := hw
      simp only [Io.step, hc, waiting_of_shapes h.calls hc]
      split
      · exact .some (h.look hs hs' call kind elapsed)
      · exact .some (h.finish call kind false false)
    · push Not at hw
      rw [step_poll_none hw, step_poll_none fun kind elapsed hc =>
        hw kind elapsed (waiting_of_shapes h.calls.symm hc)]
      exact .none

-- ---------------------------------------------------------------------------
-- Every order
-- ---------------------------------------------------------------------------

theorem step_clear {s t : Io} (h : s.Coherent order) (hclear : Clear s.answers s.taken)
    (ha : s.Alone op) (hs : s.step order op = some t) : Clear t.answers t.taken := by
  rcases step_cases hs with ⟨-, han, ht, -⟩ | ⟨i, c, rfl⟩ | ⟨call, kind, elapsed, rfl, hl, rfl⟩
  · rw [han, ht]
    exact hclear
  · intro j hj a hja
    have hlt : j < s.posted.items.length := Nat.lt_of_lt_of_le hj h.taken
    rcases PhaseRing.getElem?_snoc.mp hja with hja | ⟨rfl, -⟩
    · exact hclear j hj a hja
    · rw [h.length] at hlt
      omega
  · rcases Nat.lt_or_ge s.taken s.posted.items.length with hlt | hge
    · obtain ⟨-, han, htaken, -⟩ := h.look_returns (List.getElem?_eq_getElem hlt) call kind elapsed
      rw [han, htaken]
      intro j hj a hja
      rcases Nat.lt_or_eq_of_le (Nat.le_of_lt_succ hj) with hj | rfl
      · exact hclear j hj a hja
      · rw [ha hl a hja]
        rfl
    · rw [Io.look, h.poll_none hge]
      exact hclear

theorem Io.Alike.alone {s s' : Io} (h : s.Alike s') (hclear : Clear s.answers s.taken)
    (ha : s.Alone op) : s'.Alone op := by
  cases op with
  | submit => trivial
  | post => trivial
  | poll call =>
    intro hl a' ha'
    have hchoices := h.choices s.taken hclear
    rw [h.taken, ha', ← h.taken] at hchoices
    obtain ⟨a, haa, hsame⟩ := Option.map_eq_some_iff.mp hchoices
    rw [← hsame]
    exact ha ((h.looks call).mpr hl) a haa

/-- A completion that was posted while there was a choice can be that of another
call. -/
theorem not_genuine {s s' : Io} (h : s.Alike s') (hs' : s'.Coherent order)
    (hclear : Clear s.answers s.taken) (hl : s'.Looks call) (ha : s.answers[s.taken]? = some a)
    (hi : a.choices[(order s.taken).1 % a.choices.length]? = some x) (hx : x ≠ call)
    (hcode : (order s.taken).2.statusCode = 0) :
    ∃ t', s'.step order (.poll call) = some t' ∧ ¬t'.Genuine := by
  obtain ⟨kind, elapsed, hc, htime⟩ := hl
  refine ⟨s'.look call kind elapsed, by simp only [Io.step, hc, htime, if_true], fun hg => ?_⟩
  have hchoices := h.choices s.taken hclear
  rw [ha, h.taken, Option.map_some] at hchoices
  obtain ⟨a', ha', hsame⟩ := Option.map_eq_some_iff.mp hchoices.symm
  rw [h.taken] at hi hcode
  have hcall := (hs'.chosen _ _ ha').2
  rw [hsame, hi] at hcall
  have hlt : s'.taken < s'.posted.items.length := by
    rw [← hs'.length]
    exact (List.getElem?_eq_some_iff.mp ha').1
  have hitem := List.getElem?_eq_getElem hlt
  obtain ⟨-, hans, -, hret⟩ := hs'.look_returns hitem call kind elapsed
  rw [if_pos ((hs'.codes _ _ hitem).trans hcode)] at hret
  obtain ⟨j, c, b, hj, -, -, hb, hown⟩ := hg call (some s'.taken) (by
    rw [hret]
    exact List.mem_append_right _ (List.mem_singleton.mpr rfl))
  cases hj
  rw [hans, ha'] at hb
  cases hb
  exact hx ((Option.some.inj hcall).trans hown)

theorem exists_other {l : List Nat} (hn : l.Nodup) (hne : l ≠ []) (hc : l ≠ [c]) :
    ∃ i x, i < l.length ∧ l[i]? = some x ∧ x ≠ c := by
  match l, hne with
  | [x], _ => exact ⟨0, x, by simp, rfl, fun h => hc (by rw [h])⟩
  | x :: y :: l, _ =>
    by_cases hx : x = c
    · have hxy : x ≠ y := fun h => (List.nodup_cons.mp hn).1 (h ▸ List.mem_cons_self)
      exact ⟨1, y, by simp, rfl, fun h => hxy (hx.trans h.symm)⟩
    · exact ⟨0, x, by simp, rfl, hx⟩

theorem run_alike {s : Io} (hs : ∀ order, s.Coherent order) (order' : Order)
    (hr : run (Io.step order) s ops = some t) :
    ∃ t', run (Io.step order') s ops = some t' ∧ t.Alike t' ∧ t'.Coherent order' := by
  have hstep : ∀ (s s' : Io) (op : IoOp), s.Alike s' ∧ s.Coherent order ∧ s'.Coherent order' →
      Option.Rel (fun s s' => s.Alike s' ∧ s.Coherent order ∧ s'.Coherent order')
        (s.step order op) (s'.step order' op) := by
    rintro s s' op ⟨hlike, hs, hs'⟩
    have hrel := hlike.step hs hs' op
    generalize hu : s.step order op = o at hrel
    generalize hu' : s'.step order' op = o' at hrel
    cases hrel with
    | none => exact .none
    | some h => exact .some ⟨h, step_coherent hs hu, step_coherent hs' hu'⟩
  obtain ⟨t', hr', hlike, -, ht'⟩ := run_related _ hstep ⟨.refl s, hs order, hs order'⟩ hr
  exact ⟨t', hr', hlike, ht'⟩

/-- Whatever the order in which the controller answers, every call that returns
true has its own answer, exactly if each completion that is taken was posted
while the command of that call was the only one without answer. -/
theorem returns_genuine_iff (m : Machine) (q : NvmePairQueue) (nsid lbaSize : Nat)
    (ops : List IoOp) :
    (∀ order, Always (Io.step order) Io.Genuine (Io.start m q nsid lbaSize) ops) ↔
      AllSteps (Io.step inOrder) Io.Alone (Io.start m q nsid lbaSize) ops := by
  have h0 : ∀ order, (Io.start m q nsid lbaSize).Coherent order := fun order =>
    start_coherent order m q nsid lbaSize
  have hc0 : Clear (Io.start m q nsid lbaSize).answers (Io.start m q nsid lbaSize).taken :=
    fun j hj => absurd hj (Nat.not_lt_zero j)
  constructor
  · intro hall
    by_contra hfail
    obtain ⟨before, op, after, s, rfl, hr, hbefore, hop⟩ := exists_first_failure hfail
    obtain ⟨hs, hclear⟩ := run_keeps (fun s : Io => s.Coherent inOrder ∧ Clear s.answers s.taken)
      (fun s op t hi ha hs => ⟨step_coherent hi.1 hs, step_clear hi.1 hi.2 ha hs⟩)
      ⟨h0 inOrder, hc0⟩ hbefore hr
    cases op with
    | submit => exact hop trivial
    | post => exact hop trivial
    | poll call =>
      simp only [Io.Alone, not_forall] at hop
      obtain ⟨hl, a, ha, hne⟩ := hop
      obtain ⟨hnodup, hmem⟩ := hs.chosen _ _ ha
      have hsome : a.choices ≠ [] := fun h => by simp [h] at hmem
      obtain ⟨i, x, hi, hx, hother⟩ := exists_other hnodup hsome hne
      -- the controller answers the other command first
      obtain ⟨s', hr', hlike, hs'⟩ := run_alike h0 (fun _ => (i, .zero)) hr
      have hzero : NvmeCompletion.zero.statusCode = 0 := by decide
      obtain ⟨t', ht', hbad⟩ := not_genuine hlike hs' hclear ((hlike.looks call).mp hl) ha
        (by rw [Nat.mod_eq_of_lt hi, hx]) hother hzero
      have halways := hall fun _ => (i, .zero)
      rw [List.append_cons] at halways
      exact hbad (halways.reaches (run_append.mpr ⟨s', hr', run_cons.mpr ⟨t', ht', rfl⟩⟩))
  · intro hall order
    refine always_of_related
      (fun s s' => s.Alike s' ∧ s.Coherent inOrder ∧ s'.Coherent order ∧
        Clear s.answers s.taken ∧ s'.Genuine)
      (fun s s' op hR ha => ?_) (fun s s' hR => hR.2.2.2.2)
      ⟨.refl _, h0 inOrder, h0 order, hc0, fun call o hret => absurd hret List.not_mem_nil⟩ hall
    obtain ⟨hlike, hs, hs', hclear, hg⟩ := hR
    have hrel := hlike.step hs hs' op
    generalize ht : s.step inOrder op = o at hrel
    generalize ht' : s'.step order op = o' at hrel
    cases hrel with
    | none => exact .none
    | some h =>
      exact .some ⟨h, step_coherent hs ht, step_coherent hs' ht', step_clear hs hclear ha ht,
        step_genuine hs' hg (hlike.alone hclear ha) ht'⟩

def mappedMachine : Machine :=
  { idleMachine .zero with
    tables := mapPage (fun k => 0x8000 + 0x1000 * k) ⟨0x1000, fun _ _ => .zero, 0⟩ 0x40000000 0x5000
      3 1 }

/-- Two writes at once: the second returns true on the answer to the first. -/
theorem write_takes_other_answer :
    let start := Io.start mappedMachine (recycledBlock 0 0) 1 512
    let ops := [.submit .write 0x40000000 0 1, .submit .write 0x40000000 8 1, .post, .poll 1]
    (run (Io.step inOrder) start ops).map (fun t => (t.answers, t.calls, t.returns)) =
        some ([⟨0, [0, 1]⟩], [⟨.write, .waiting 0⟩, ⟨.write, .returned true⟩], [(1, some 0)]) ∧
      ¬∀ order, Always (Io.step order) Io.Genuine start ops := by
  intro start ops
  have hrun : (run (Io.step inOrder) start ops).map (fun t => (t.answers, t.calls, t.returns)) =
      some ([⟨0, [0, 1]⟩], [⟨.write, .waiting 0⟩, ⟨.write, .returned true⟩], [(1, some 0)]) := by
    decide +kernel
  refine ⟨hrun, fun hall => ?_⟩
  obtain ⟨t, hr, ht⟩ := Option.map_eq_some_iff.mp hrun
  obtain ⟨hans, -, hret⟩ : t.answers = [⟨0, [0, 1]⟩] ∧ _ ∧ t.returns = [(1, some 0)] := by
    simpa only [Prod.mk.injEq] using ht
  have halways : Always (Io.step inOrder) Io.Genuine start (ops ++ []) := hall inOrder
  have hgen := halways.reaches hr
  obtain ⟨j, c, a, hj, -, -, ha, hcall⟩ := hgen 1 (some 0) (hret ▸ List.mem_singleton.mpr rfl)
  cases hj
  rw [hans] at ha
  cases ha
  cases hcall

end TomatoOs.Drivers
