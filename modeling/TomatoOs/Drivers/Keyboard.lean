import TomatoOs.Lib.Bytes
import TomatoOs.Lib.PhaseRing
import TomatoOs.Lib.Runs
import TomatoOs.Lib.Words

/-!
# The keyboard queue

`keyboardhandler` puts scancodes into a ring of 128 bytes, `keyboard_poll` takes
them out and hands them to `handle_scancode`. The two share the ring and its
two indices without a lock: an interrupt may come between any two accesses of
the poll loop to them. The ring behaves as a queue all the same, which holds
up to 127 scancodes.
-/

namespace TomatoOs.Drivers

open Lib PhaseRing

def kbdBuf : Nat := 128

/-- Where `keyboard_poll` is: between two accesses to the shared variables, with
what it has read so far. -/
inductive PollPc
  | condition
  | gotTail (tail : Nat)
  | gotHead (head : Nat)
  | body
  | index (tail : Nat)
  | loaded (sc : Byte)
  | advance (sc : Byte) (tail : Nat)
  | handle (sc : Byte)
  | returned
deriving DecidableEq

/-- The queue and its users. `accepted` and `delivered` are the scancodes that
went into the ring and to `handle_scancode`; `seen` is what had been accepted
when the poll loop last read `kbd_head`. -/
structure Keyboard where
  buf : Nat → Byte
  head : Nat
  tail : Nat
  pc : PollPc
  accepted : List Byte
  delivered : List Byte
  seen : List Byte

def Keyboard.start : Keyboard :=
  { buf := fun _ => 0, head := 0, tail := 0, pc := .returned
    accepted := [], delivered := [], seen := [] }

def keyboardhandler (sc : Byte) (s : Keyboard) : Keyboard :=
  let next := wadd 32 s.head 1 % kbdBuf
  if next ≠ s.tail then
    { s with
      buf := Function.update s.buf s.head sc
      head := next
      accepted := s.accepted ++ [sc] }
  else s

def pollTest (tail head : Nat) : PollPc := if tail ≠ head then .body else .returned

/-- The next access of `keyboard_poll`, or its next call. C leaves open which of
the two indices the loop condition reads first. -/
def keyboardPoll (tailFirst : Bool) (s : Keyboard) : Keyboard :=
  match s.pc with
  | .condition =>
    if tailFirst then { s with pc := .gotTail s.tail }
    else { s with pc := .gotHead s.head, seen := s.accepted }
  | .gotTail tail => { s with pc := pollTest tail s.head, seen := s.accepted }
  | .gotHead head => { s with pc := pollTest s.tail head }
  | .body => { s with pc := .index s.tail }
  | .index tail => { s with pc := .loaded (s.buf tail) }
  | .loaded sc => { s with pc := .advance sc s.tail }
  | .advance sc tail => { s with pc := .handle sc, tail := wadd 32 tail 1 % kbdBuf }
  | .handle sc => { s with pc := .condition, delivered := s.delivered ++ [sc] }
  | .returned => { s with pc := .condition }

inductive KbdEvent
  | interrupt (sc : Byte)
  | poll

def Keyboard.step (tailFirst : Bool) (s : Keyboard) : KbdEvent → Option Keyboard
  | .interrupt sc => some (keyboardhandler sc s)
  | .poll => some (keyboardPoll tailFirst s)

-- ---------------------------------------------------------------------------
-- The queue in the ring
-- ---------------------------------------------------------------------------

def PollPc.inHand : PollPc → List Byte
  | .handle sc => [sc]
  | _ => []

def PollPc.Knows (tailFirst : Bool) (n : Nat) (s : Keyboard) (waiting : List Byte) : PollPc → Prop
  | .gotTail tail => tail = s.tail
  | .gotHead head => tailFirst = false ∧ ∃ early late, waiting = early ++ late ∧
      s.seen = s.delivered ++ early ∧ head = (n + early.length) % kbdBuf
  | .body => waiting ≠ []
  | .index tail => waiting ≠ [] ∧ tail = s.tail
  | .loaded sc => waiting.head? = some sc
  | .advance sc tail => waiting.head? = some sc ∧ tail = s.tail
  | _ => True

structure Keyboard.Queue (tailFirst : Bool) (s : Keyboard) (waiting : List Byte) : Prop where
  split : s.accepted = s.delivered ++ s.pc.inHand ++ waiting
  room : waiting.length < kbdBuf
  head : s.head = s.accepted.length % kbdBuf
  tail : s.tail = (s.delivered ++ s.pc.inHand).length % kbdBuf
  buf : Recent kbdBuf s.buf s.accepted
  knows : s.pc.Knows tailFirst (s.delivered ++ s.pc.inHand).length s waiting

theorem start_queue : Keyboard.start.Queue tailFirst [] :=
  ⟨rfl, by decide, rfl, rfl, fun j x h => by simp [Keyboard.start] at h, trivial⟩

theorem index_next (n : Nat) : wadd 32 (n % kbdBuf) 1 % kbdBuf = (n + 1) % kbdBuf := by
  have hlt : n % kbdBuf < 128 := Nat.mod_lt _ (by decide)
  rw [wadd_eq (by omega), Nat.mod_add_mod]

section
variable {tailFirst : Bool} {s : Keyboard} {waiting : List Byte}

/-- Indices that agree mean that nothing, or a whole round, lies between them. -/
theorem index_eq_iff (h : k < kbdBuf) : (n + k) % kbdBuf = n % kbdBuf ↔ k = 0 := by
  constructor
  · intro he
    by_contra hk
    exact slot_ne (show n < n + k by omega) (by omega) he.symm
  · rintro rfl
    rfl

theorem Keyboard.Queue.length (h : s.Queue tailFirst waiting) :
    s.accepted.length = (s.delivered ++ s.pc.inHand).length + waiting.length := by
  rw [h.split, List.length_append]

theorem Keyboard.Queue.full_iff (h : s.Queue tailFirst waiting) :
    wadd 32 s.head 1 % kbdBuf = s.tail ↔ waiting.length = 127 := by
  have hroom : waiting.length < 128 := h.room
  rw [h.head, index_next, h.tail, h.length]
  constructor
  · intro he
    by_contra hne
    have := (index_eq_iff (k := waiting.length + 1) (by unfold kbdBuf; omega)).mp he
    omega
  · intro hlen
    rw [hlen, Nat.add_assoc]
    exact Nat.add_mod_right ..

theorem Keyboard.Queue.handler (h : s.Queue tailFirst waiting) (sc : Byte) :
    (keyboardhandler sc s).Queue tailFirst
      (if waiting.length = 127 then waiting else waiting ++ [sc]) := by
  unfold keyboardhandler
  by_cases hfull : waiting.length = 127
  · rw [if_pos hfull]
    simp only [h.full_iff.mpr hfull, ne_eq, not_true_eq_false, if_false]
    exact h
  · have hnext := mt h.full_iff.mp hfull
    have hroom : waiting.length < 128 := h.room
    rw [if_neg hfull]
    simp only [hnext, ne_eq, not_false_eq_true, if_true]
    refine ⟨?_, ?_, ?_, h.tail, ?_, ?_⟩
    · simp only [h.split, List.append_assoc]
    · simp only [List.length_append, List.length_singleton, kbdBuf]
      omega
    · simp only [h.head, index_next, List.length_append, List.length_singleton]
    · rw [h.head]
      exact h.buf.push sc
    · have hk := h.knows
      cases hpc : s.pc with
      | gotHead head =>
        rw [hpc] at hk
        obtain ⟨horder, early, late, hw, hseen, hhead⟩ := hk
        exact ⟨horder, early, late ++ [sc], by rw [hw, List.append_assoc], hseen, hhead⟩
      | body => simp [PollPc.Knows]
      | index tail =>
        rw [hpc] at hk
        exact ⟨by simp, hk.2⟩
      | loaded c =>
        rw [hpc] at hk
        simp [PollPc.Knows, List.head?_append, show waiting.head? = some c from hk]
      | advance c tail =>
        rw [hpc] at hk
        simp [PollPc.Knows, List.head?_append, hk.1, hk.2]
      | gotTail tail =>
        rw [hpc] at hk
        exact hk
      | _ => trivial

theorem pollTest_eq (hle : k < kbdBuf) :
    pollTest (n % kbdBuf) ((n + k) % kbdBuf) = if k = 0 then .returned else .body := by
  unfold pollTest
  by_cases hk : k = 0
  · rw [if_pos hk, if_neg (not_not.mpr ((index_eq_iff hle).mpr hk).symm)]
  · rw [if_neg hk, if_pos (Ne.symm (mt (index_eq_iff hle).mp hk))]

theorem Keyboard.Queue.move (h : s.Queue tailFirst waiting) (hin : s.pc.inHand = [])
    (next : PollPc) (noted : List Byte) (hin' : next.inHand = [])
    (hk : next.Knows tailFirst s.delivered.length { s with seen := noted } waiting) :
    Keyboard.Queue tailFirst { s with pc := next, seen := noted } waiting := by
  obtain ⟨hsplit, hroom, hhead, htail, hbuf, -⟩ := h
  rw [hin, List.append_nil] at hsplit htail
  refine ⟨?_, hroom, hhead, ?_, hbuf, ?_⟩
  · simp only [hin', List.append_nil]
    exact hsplit
  · simp only [hin', List.append_nil]
    exact htail
  · simp only [hin', List.append_nil]
    cases next <;> exact hk

theorem Keyboard.Queue.front (h : s.Queue tailFirst (sc :: rest)) : s.buf s.tail = sc := by
  have hlen := h.length
  have hroom : (sc :: rest).length < 128 := h.room
  rw [h.tail]
  refine h.buf _ sc ?_ (by rw [hlen]; unfold kbdBuf; omega)
  rw [h.split, List.getElem?_append_right (Nat.le_refl _), Nat.sub_self]
  rfl

theorem Keyboard.Queue.test (h : s.Queue tailFirst waiting) (hin : s.pc.inHand = [])
    (hk : k ≤ waiting.length) (noted : List Byte) :
    Keyboard.Queue tailFirst { s with
      pc := pollTest s.tail ((s.delivered.length + k) % kbdBuf), seen := noted } waiting := by
  have hroom : waiting.length < kbdBuf := h.room
  have htail := h.tail
  rw [hin, List.append_nil] at htail
  have htest := pollTest_eq (n := s.delivered.length) (k := k) (by omega)
  rw [← htail] at htest
  refine h.move hin _ noted ?_ ?_ <;> rw [htest]
  · split <;> rfl
  · split
    · trivial
    · rintro rfl
      simp only [List.length_nil] at hk
      omega

theorem Keyboard.Queue.take (h : s.Queue tailFirst (sc :: rest)) (hpc : s.pc = .advance sc t) :
    Keyboard.Queue tailFirst { s with pc := .handle sc, tail := wadd 32 s.tail 1 % kbdBuf } rest := by
  obtain ⟨hsplit, hroom, hidx, htail, hbuf, -⟩ := h
  simp only [hpc, PollPc.inHand, List.append_nil] at hsplit htail
  refine ⟨?_, ?_, hidx, ?_, hbuf, trivial⟩
  · simp only [PollPc.inHand, hsplit, List.append_assoc, List.singleton_append]
  · rw [List.length_cons] at hroom
    omega
  · simp only [htail, index_next, PollPc.inHand, List.length_append, List.length_singleton]

theorem Keyboard.Queue.deliver (h : s.Queue tailFirst waiting) (hpc : s.pc = .handle sc) :
    Keyboard.Queue tailFirst
      { s with pc := .condition, delivered := s.delivered ++ [sc] } waiting := by
  obtain ⟨hsplit, hroom, hidx, htail, hbuf, -⟩ := h
  simp only [hpc, PollPc.inHand] at hsplit htail
  refine ⟨?_, hroom, hidx, ?_, hbuf, trivial⟩
  · simpa only [PollPc.inHand, List.append_nil] using hsplit
  · simpa only [PollPc.inHand, List.append_nil] using htail

theorem Keyboard.Queue.poll (h : s.Queue tailFirst waiting) :
    ∃ waiting', (keyboardPoll tailFirst s).Queue tailFirst waiting' := by
  have hk := h.knows
  have hhead : s.pc.inHand = [] → s.head = (s.delivered.length + waiting.length) % kbdBuf := by
    intro hin
    rw [h.head, h.length, hin, List.append_nil]
  unfold keyboardPoll
  cases hpc : s.pc with
  | condition =>
    have hin : s.pc.inHand = [] := by rw [hpc]; rfl
    refine ⟨waiting, ?_⟩
    cases tailFirst with
    | true => exact h.move hin (.gotTail s.tail) s.seen rfl rfl
    | false =>
      refine h.move hin (.gotHead s.head) s.accepted rfl
        ⟨rfl, waiting, [], (List.append_nil _).symm, ?_, hhead hin⟩
      simpa only [hin, List.append_nil] using h.split
  | gotTail tail =>
    have hin : s.pc.inHand = [] := by rw [hpc]; rfl
    rw [hpc] at hk
    obtain rfl : tail = s.tail := hk
    have := h.test hin (Nat.le_refl _) s.accepted
    rw [← hhead hin] at this
    exact ⟨waiting, this⟩
  | gotHead head =>
    have hin : s.pc.inHand = [] := by rw [hpc]; rfl
    rw [hpc] at hk
    obtain ⟨-, early, late, hw, -, hread⟩ := hk
    have := h.test hin (k := early.length) (by rw [hw, List.length_append]; omega) s.seen
    simp only [PollPc.inHand, List.append_nil] at hread
    rw [← hread] at this
    exact ⟨waiting, this⟩
  | body =>
    have hin : s.pc.inHand = [] := by rw [hpc]; rfl
    rw [hpc] at hk
    exact ⟨waiting, h.move hin (.index s.tail) s.seen rfl ⟨hk, rfl⟩⟩
  | index tail =>
    have hin : s.pc.inHand = [] := by rw [hpc]; rfl
    rw [hpc] at hk
    obtain ⟨hne, rfl⟩ := hk
    obtain ⟨sc, rest, rfl⟩ := List.exists_cons_of_ne_nil hne
    refine ⟨sc :: rest, h.move hin (.loaded (s.buf s.tail)) s.seen rfl ?_⟩
    rw [h.front]
    rfl
  | loaded sc =>
    have hin : s.pc.inHand = [] := by rw [hpc]; rfl
    rw [hpc] at hk
    exact ⟨waiting, h.move hin (.advance sc s.tail) s.seen rfl ⟨hk, rfl⟩⟩
  | advance sc tail =>
    rw [hpc] at hk
    obtain ⟨hfirst, rfl⟩ := hk
    obtain ⟨rest, rfl⟩ := List.head?_eq_some_iff.mp hfirst
    exact ⟨rest, h.take hpc⟩
  | handle sc => exact ⟨waiting, h.deliver hpc⟩
  | returned =>
    have hin : s.pc.inHand = [] := by rw [hpc]; rfl
    exact ⟨waiting, h.move hin .condition s.seen rfl trivial⟩

theorem Keyboard.Queue.step (h : s.Queue tailFirst waiting)
    (hs : s.step tailFirst event = some t) : ∃ waiting', t.Queue tailFirst waiting' := by
  cases event with
  | interrupt sc =>
    cases hs
    exact ⟨_, h.handler sc⟩
  | poll =>
    cases hs
    exact h.poll

theorem run_queue (hr : run (Keyboard.step tailFirst) .start events = some s) :
    ∃ waiting, s.Queue tailFirst waiting :=
  run_invariant (fun s => ∃ waiting, s.Queue tailFirst waiting)
    (fun _ _ _ ⟨_, h⟩ hs => h.step hs) ⟨[], start_queue⟩ hr

-- ---------------------------------------------------------------------------
-- First in, first out
-- ---------------------------------------------------------------------------

def Keyboard.Drops (sc : Byte) (s : Keyboard) : Prop :=
  (keyboardhandler sc s).accepted ≠ s.accepted ++ [sc]

/-- The next access makes the poll loop find both indices equal. -/
def Keyboard.FindsEmpty (tailFirst : Bool) (s : Keyboard) : Prop :=
  s.pc ≠ .returned ∧ (keyboardPoll tailFirst s).pc = .returned

theorem Keyboard.Queue.drops_iff (h : s.Queue tailFirst waiting) (sc : Byte) :
    s.Drops sc ↔ waiting.length = 127 := by
  rw [← h.full_iff, Keyboard.Drops, keyboardhandler]
  split <;> simp_all

theorem pollTest_returned (h : pollTest tail head = .returned) : tail = head := by
  by_contra hne
  rw [pollTest, if_pos hne] at h
  cases h

/-- The head that was read last is where the tail is: what had been accepted
then is delivered. -/
theorem Keyboard.Queue.empty (h : s.Queue tailFirst waiting) (he : s.FindsEmpty tailFirst) :
    s.delivered = (keyboardPoll tailFirst s).seen ∧
      (tailFirst = true → s.delivered = s.accepted) := by
  obtain ⟨hne, hret⟩ := he
  have hk := h.knows
  have htail := h.tail
  have hroom : waiting.length < kbdBuf := h.room
  unfold keyboardPoll at hret ⊢
  cases hpc : s.pc with
  | gotTail tail =>
    rw [hpc] at hk
    simp only [hpc] at hret ⊢
    have heq : s.tail = s.head := pollTest_returned (hk ▸ hret)
    rw [htail, h.head, h.length] at heq
    have hnil := List.eq_nil_of_length_eq_zero ((index_eq_iff hroom).mp heq.symm)
    have hall : s.accepted = s.delivered := by
      rw [h.split, hnil, hpc]
      simp [PollPc.inHand]
    exact ⟨hall.symm, fun _ => hall.symm⟩
  | gotHead head =>
    rw [hpc] at hk
    simp only [hpc] at hret ⊢
    obtain ⟨horder, early, late, hw, hseen, hread⟩ := hk
    have heq := pollTest_returned hret
    have hle : early.length < kbdBuf := by
      rw [hw, List.length_append] at hroom
      omega
    rw [htail, hpc, hread] at heq
    have hnil := List.eq_nil_of_length_eq_zero ((index_eq_iff hle).mp heq.symm)
    rw [hseen, hnil, List.append_nil, horder]
    exact ⟨rfl, fun h => absurd h (by decide)⟩
  | condition =>
    simp only [hpc] at hret
    split at hret <;> cases hret
  | returned => exact absurd hpc hne
  | _ => simp [hpc] at hret

/-- In every interleaving of interrupts with the accesses of the poll loop, the
scancodes delivered are the first ones accepted, in their order. One is dropped
exactly when 127 of those accepted are still in the ring, and when the loop
finds the indices equal, all that had been accepted as it read `kbd_head` have
been delivered. -/
theorem keyboard_fifo (hr : run (Keyboard.step tailFirst) .start events = some s) :
    s.delivered <+: s.accepted ∧
    (∀ sc, s.Drops sc ↔ ∃ waiting, s.accepted = s.delivered ++ s.pc.inHand ++ waiting ∧
      waiting.length = 127) ∧
    (s.FindsEmpty tailFirst → s.delivered = (keyboardPoll tailFirst s).seen ∧
      (tailFirst = true → s.delivered = s.accepted)) := by
  obtain ⟨waiting, h⟩ := run_queue hr
  refine ⟨?_, fun sc => ?_, h.empty⟩
  · rw [h.split, List.append_assoc]
    exact List.prefix_append ..
  · rw [h.drops_iff sc]
    constructor
    · exact fun hlen => ⟨waiting, h.split, hlen⟩
    · rintro ⟨waiting', hsplit, hlen⟩
      rwa [List.append_cancel_left (h.split.symm.trans hsplit)]

def twoKeys : List KbdEvent :=
  [.interrupt 0x1E, .poll, .poll, .poll, .interrupt 0x30, .poll, .poll, .poll, .poll, .poll]

theorem keyboard_fifo_two :
    ∃ s, run (Keyboard.step true) .start twoKeys = some s ∧ s.delivered = [0x1E] ∧
      s.accepted = [0x1E, 0x30] ∧ s.delivered <+: s.accepted := by
  have hr : (run (Keyboard.step true) .start twoKeys).isSome = true := rfl
  obtain ⟨s, hr⟩ := Option.isSome_iff_exists.mp hr
  refine ⟨s, hr, ?_, ?_, (keyboard_fifo hr).1⟩
  · cases hr
    rfl
  · cases hr
    rfl

end

end TomatoOs.Drivers
