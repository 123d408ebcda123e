import TomatoOs.Kmem.Reallocs
import TomatoOs.Lib.Runs

/-!
# Sessions of allocator calls

The allocator with its clients: which pointers have been handed out and not
yet freed or moved, and for how many bytes. Clients call `kmalloc`, `krealloc`
and `kfree` with `NULL` or a live pointer, and store bytes inside the ranges
they asked for. A step that breaks these rules, or a call that does not
return, is `none`.
-/

namespace TomatoOs.Kmem

open Lib

structure Alloc where
  ptr : Nat
  size : Nat
  deriving DecidableEq, Repr

structure Session where
  heap : Heap
  live : List Alloc

inductive Op
  | kmalloc (n : Nat)
  | krealloc (p n : Nat)
  | kfree (p : Nat)
  | store (x : Nat) (v : Byte)

def Session.start (mem : Mem) (heap : Nat) : Session := { heap := kmemInit mem heap, live := [] }

def isLive (live : List Alloc) (p : Nat) : Bool := live.any fun a => a.ptr == p

def Session.allows (s : Session) : Op → Bool
  | .kmalloc n => n ≤ heapSize
  | .krealloc p n => n ≤ heapSize && (p == 0 || isLive s.live p)
  | .kfree p => p == 0 || isLive s.live p
  | .store x _ => s.live.any fun a => a.ptr ≤ x && x < a.ptr + a.size

def Heap.call (h : Heap) : Op → Option (Heap × Nat)
  | .kmalloc n => h.kmalloc n
  | .krealloc p n => h.krealloc p n
  | .kfree p => (h.kfree p).map fun h => (h, 0)
  | .store x v => some ({ h with mem := h.mem.put x v }, 0)

def granted (q n : Nat) (live : List Alloc) : List Alloc :=
  if q = 0 then live else { ptr := q, size := n } :: live

def dropped (p : Nat) (live : List Alloc) : List Alloc := live.filter fun a => a.ptr ≠ p

/-- What is live after a call that returned `q`. A `krealloc` that gives
`NULL` leaves its pointer as it was, unless it was asked for no bytes. -/
def Op.liveAfter (q : Nat) (live : List Alloc) : Op → List Alloc
  | .kmalloc n => granted q n live
  | .krealloc p n =>
    if p = 0 then granted q n live
    else if n = 0 then dropped p live
    else if q = 0 then live
    else granted q n (dropped p live)
  | .kfree p => dropped p live
  | .store _ _ => live

/-- Each step starts with an empty log. -/
def Session.step (s : Session) (op : Op) : Option Session :=
  if s.allows op then
    (Heap.call { s.heap with log := [] } op).map fun r =>
      { heap := r.1, live := op.liveAfter r.2 s.live }
  else none

/-- The pointer that a call may move, 0 for calls that move none. -/
def Op.moves : Op → Nat
  | .krealloc p _ => p
  | _ => 0

def Op.asks (h : Heap) : Op → Nat → Prop
  | .kmalloc m, n => n = m
  | .krealloc p m, n => n = m ∧ (p = 0 ∨ m ≠ 0 ∧ ¬h.inPlace p m)
  | .kfree _, _ | .store _ _, _ => False

-- ---------------------------------------------------------------------------
-- Sessions on the arena
-- ---------------------------------------------------------------------------

def Arena.call (A : Arena) (endp : Nat) : Op → Arena × Nat
  | .kmalloc n => A.kmalloc endp n
  | .krealloc p n => A.krealloc endp p n
  | .kfree p => (A.kfree p, 0)
  | .store _ _ => (A, 0)

def Arena.Uses (A : Arena) (p : Nat) : Prop := ∃ b ∈ A.blocks, b.data = p ∧ b.free = false

/-- A call is given `NULL` or a block in use; a store goes to the data of one. -/
def Op.fair (A : Arena) : Op → Prop
  | .kmalloc _ => True
  | .krealloc p _ | .kfree p => p = 0 ∨ A.Uses p
  | .store x _ => ∃ b ∈ A.blocks, Within b.data b.size x

/-- Every live allocation has its own block, in use and long enough. -/
structure Backs (A : Arena) (live : List Alloc) : Prop where
  serves : ∀ a ∈ live, A.Serves a.ptr a.size
  distinct : live.Pairwise fun a b => a.ptr ≠ b.ptr

structure Session.Backed (heap : Nat) (s : Session) (A : Arena) : Prop where
  placed : Placed heap
  refines : Refines heap s.heap A
  backs : Backs A s.live

section
variable {heap : Nat} {s : Session} {A A' : Arena}

theorem isLive_iff : isLive live p = true ↔ ∃ a ∈ live, a.ptr = p := by
  simp [isLive]

theorem Refines.quiet (hR : Refines heap h A) : Refines heap { h with log := [] } A :=
  ⟨hR.sited, hR.ok,
    ⟨hR.rep.brk, hR.rep.base, fun l hl => (hR.rep.lists l hl).congr fun _ _ _ => rfl⟩, hR.endp⟩

theorem start_backed (hp : Placed heap) (mem : Mem) :
    (Session.start mem heap).Backed heap { stale := [], chain := [], brk := heap } := by
  have hroom := hp.room
  refine ⟨hp, ⟨hp.sited, ⟨Nat.le_refl _, trivial, Nat.le_add_right _ _⟩, ⟨rfl, rfl, ?_⟩, ?_⟩,
    ⟨?_, .nil⟩⟩
  · intro l hl
    obtain rfl : l = [] := by simpa [Arena.lists] using hl
    trivial
  · exact wadd_eq (by omega)
  · intro a ha
    cases ha

-- ---------------------------------------------------------------------------
-- Live allocations along a step
-- ---------------------------------------------------------------------------

theorem Arena.Serves.ne_zero (hs : A.Serves q n) : q ≠ 0 := by
  obtain ⟨b, -, rfl, -, -⟩ := hs
  exact b.data_ne

theorem Arena.Serves.mono (hs : A.Serves q n) (hm : m ≤ n) : A.Serves q m := by
  obtain ⟨b, hb, hd, hf, hn⟩ := hs
  exact ⟨b, hb, hd, hf, Nat.le_trans hm hn⟩

theorem Arena.Unused.ne (hu : A.Unused q) (hs : A.Serves p n) : p ≠ q := by
  obtain ⟨b, hb, rfl, hf, -⟩ := hs
  exact hu b hb hf

theorem Backs.keeps (hB : Backs A live) (hk : Keeps 0 A.blocks A'.blocks) : Backs A' live :=
  ⟨fun a ha => (hB.serves a ha).keeps hk (hB.serves a ha).ne_zero, hB.distinct⟩

theorem Backs.dropped (hB : Backs A live) (hk : Keeps p A.blocks A'.blocks) :
    Backs A' (dropped p live) := by
  refine ⟨fun a ha => ?_, hB.distinct.filter _⟩
  obtain ⟨ha, hp⟩ := List.mem_filter.mp ha
  exact (hB.serves a ha).keeps hk (by simpa using hp)

theorem Backs.granted (hB : Backs A live) (hs : A.Serves q n) (hq : ∀ a ∈ live, a.ptr ≠ q) :
    Backs A (granted q n live) := by
  rw [Kmem.granted, if_neg hs.ne_zero]
  refine ⟨fun a ha => ?_, List.pairwise_cons.mpr ⟨fun a ha => (hq a ha).symm, hB.distinct⟩⟩
  rcases List.mem_cons.mp ha with rfl | ha
  · exact hs
  · exact hB.serves a ha

theorem Backs.block (hB : Backs A live) (hl : isLive live p = true) : A.Uses p := by
  obtain ⟨a, ha, rfl⟩ := isLive_iff.mp hl
  obtain ⟨b, hb, hd, hf, -⟩ := hB.serves a ha
  exact ⟨b, hb, hd, hf⟩

theorem kmalloc_backs (hA : A.Ok heap endp) (hB : Backs A live) (hn : n ≤ heapSize) :
    Backs (A.kmalloc endp n).1 (granted (A.kmalloc endp n).2 n live) := by
  have hB' := hB.keeps (A.kmalloc_keeps 0 endp n)
  rcases A.kmalloc_serves hA n with h0 | ⟨-, hu, hs⟩
  · rw [h0]
    exact hB
  · exact hB'.granted (hs.mono (align4_bounds hn).1) fun a ha => hu.ne (hB.serves a ha)

theorem krealloc_backs (hA : A.Ok heap endp) (hB : Backs A live) (hl : isLive live p = true)
    (h0 : n ≠ 0) (hn : n ≤ heapSize) :
    Backs (A.krealloc endp p n).1 (if (A.krealloc endp p n).2 = 0 then live
      else granted (A.krealloc endp p n).2 n (dropped p live)) := by
  obtain ⟨b, hb, rfl, hf⟩ := hB.block hl
  rcases A.krealloc_serves hA hb hf h0 with hnull | ⟨hq, hold, hs⟩
  · rw [hnull, if_pos rfl]
    exact hB
  · rw [if_neg hq]
    have hB' := hB.dropped (A.krealloc_keeps hA hb h0)
    refine hB'.granted (hs.mono (align4_bounds hn).1) fun a ha => ?_
    obtain ⟨ha, hp⟩ := List.mem_filter.mp ha
    rcases hold with hold | hu
    · rw [hold]
      simpa using hp
    · exact hu.ne (hB.serves a ha)

theorem Arena.kfree_null (A : Arena) : A.kfree 0 = A := by
  have hnone : findSplit (holds 0) A.chain = none :=
    findSplit_none.mpr fun c _ => by simpa [holds] using c.data_ne
  simp [Arena.kfree, hnone]

theorem call_backs (hA : A.Ok heap endp) (hB : Backs A s.live) (ha : s.allows op = true) :
    Backs (A.call endp op).1 (op.liveAfter (A.call endp op).2 s.live) := by
  cases op with
  | kmalloc n => exact kmalloc_backs hA hB (by simpa [Session.allows] using ha)
  | kfree p => exact hB.dropped (A.kfree_keeps p)
  | store x v => exact hB
  | krealloc p n =>
    simp only [Session.allows, Bool.and_eq_true, decide_eq_true_eq, Bool.or_eq_true, beq_iff_eq] at ha
    obtain ⟨hn, hp⟩ := ha
    simp only [Arena.call, Op.liveAfter]
    by_cases hp0 : p = 0
    · rw [if_pos hp0, Arena.krealloc, if_pos hp0]
      exact kmalloc_backs hA hB hn
    · rw [if_neg hp0]
      by_cases h0 : n = 0
      · rw [if_pos h0, Arena.krealloc, if_neg hp0, if_pos h0]
        exact hB.dropped (A.kfree_keeps p)
      · rw [if_neg h0]
        exact krealloc_backs hA hB (hp.resolve_left hp0) h0 hn

-- ---------------------------------------------------------------------------
-- Steps and runs
-- ---------------------------------------------------------------------------

theorem kfree_null (h : Heap) : h.kfree 0 = some h := by
  simp [Heap.kfree, Heap.isAddrValid]

theorem Refines.served_self (hR : Refines heap h A) (p : Nat) : Served heap p h A h A :=
  hR.returns_self.served hR (.refl p _)

theorem kfree_call_served (hR : Refines heap h A) (hp : p = 0 ∨ A.Uses p) (q : Nat) :
    ∃ h', h.kfree p = some h' ∧ Served heap q h A h' (A.kfree p) := by
  rcases hp with rfl | ⟨b, hb, rfl, -⟩
  · rw [A.kfree_null]
    exact ⟨h, kfree_null h, hR.served_self q⟩
  · exact kfree_served hR hb q

/-- Every call that asks for what is answered returns, and does what the arena's
does. -/
theorem call_served (hR : Refines heap h A) (hf : op.fair A)
    (hx : ∀ n, op.asks h n → Answered heap h A n) :
    ∃ h', h.call op = some (h', (A.call (heap + heapSize) op).2) ∧
      Served heap op.moves h A h' (A.call (heap + heapSize) op).1 := by
  cases op with
  | kmalloc n => exact kmalloc_served hR (hx n rfl) 0
  | kfree p =>
    obtain ⟨h', heq, hs⟩ := kfree_call_served hR hf 0
    exact ⟨h', by simp [Heap.call, Arena.call, heq], hs⟩
  | store x v =>
    obtain ⟨b, hb, hin⟩ := hf
    refine ⟨_, rfl, hR.scribble hb fun y hy => ?_, [], ⟨[], rfl, by simp⟩, by simp [Spares]⟩
    have hne : y ≠ x := fun he => hy (he ▸ hin)
    simp [Mem.put, hne]
  | krealloc p n =>
    simp only [Heap.call, Arena.call, Op.moves]
    by_cases hp0 : p = 0
    · rw [Heap.krealloc, if_pos hp0, Arena.krealloc, if_pos hp0]
      exact kmalloc_served hR (hx n ⟨rfl, .inl hp0⟩) p
    · by_cases h0 : n = 0
      · obtain ⟨h', heq, hs⟩ := kfree_call_served hR hf p
        rw [Heap.krealloc, if_neg hp0, if_pos h0, Arena.krealloc, if_neg hp0, if_pos h0, heq]
        exact ⟨h', rfl, hs⟩
      · obtain ⟨b, hb, rfl, hbf⟩ := hf.resolve_left hp0
        exact krealloc_served hR hb hbf h0 fun hno => hx n ⟨rfl, .inr ⟨h0, hno⟩⟩

theorem Backs.fair (hB : Backs A s.live) (ha : s.allows op = true) : op.fair A := by
  have hlive : ∀ p, p = 0 ∨ isLive s.live p = true → p = 0 ∨ A.Uses p := fun p hp =>
    hp.imp id hB.block
  cases op with
  | kmalloc n => trivial
  | kfree p => exact hlive p (by simpa [Session.allows] using ha)
  | krealloc p n =>
    simp only [Session.allows, Bool.and_eq_true, Bool.or_eq_true, beq_iff_eq] at ha
    exact hlive p ha.2
  | store x v =>
    simp only [Session.allows, List.any_eq_true, Bool.and_eq_true, decide_eq_true_eq] at ha
    obtain ⟨a, ha, hlo, hhi⟩ := ha
    obtain ⟨b, hb, hd, -, hsz⟩ := hB.serves a ha
    exact ⟨b, hb, by omega, by omega⟩

theorem allows_asks (ha : s.allows op = true) (hn : op.asks h n) : n ≤ heapSize := by
  cases op with
  | kmalloc m =>
    obtain rfl : n = m := hn
    simpa [Session.allows] using ha
  | krealloc p m =>
    obtain ⟨rfl, -⟩ := hn
    simp only [Session.allows, Bool.and_eq_true, decide_eq_true_eq] at ha
    exact ha.1
  | kfree p => exact hn.elim
  | store x v => exact hn.elim

theorem step_backed (hB : s.Backed heap A) (ha : s.allows op = true) :
    ∃ s', s.step op = some s' ∧ s'.Backed heap (A.call (heap + heapSize) op).1 ∧
      s'.live = op.liveAfter (A.call (heap + heapSize) op).2 s.live ∧
      Served heap op.moves { s.heap with log := [] } A s'.heap (A.call (heap + heapSize) op).1 := by
  obtain ⟨h', heq, hs⟩ := call_served hB.refines.quiet (hB.backs.fair ha) fun n hn =>
    hB.placed.answered hB.refines.quiet (allows_asks ha hn)
  refine ⟨⟨h', op.liveAfter (A.call (heap + heapSize) op).2 s.live⟩, ?_,
    ⟨hB.placed, hs.refines, call_backs hB.refines.ok hB.backs ha⟩, rfl, hs⟩
  rw [Session.step, if_pos ha, heq]
  rfl

theorem step_allows (hs : s.step op = some s') : s.allows op = true := by
  unfold Session.step at hs
  split at hs
  · assumption
  · cases hs

theorem step_inv (hB : ∃ A, s.Backed heap A) (hs : s.step op = some s') : ∃ A, s'.Backed heap A := by
  obtain ⟨A, hB⟩ := hB
  obtain ⟨s'', hs', hB', -⟩ := step_backed hB (step_allows hs)
  rw [hs] at hs'
  cases hs'
  exact ⟨_, hB'⟩

theorem run_backed (hp : Placed heap) (hr : run Session.step (.start mem heap) ops = some s) :
    ∃ A, s.Backed heap A :=
  run_invariant (fun s => ∃ A, s.Backed heap A) (fun _ _ _ => step_inv) ⟨_, start_backed hp mem⟩ hr

-- ---------------------------------------------------------------------------
-- Isolation
-- ---------------------------------------------------------------------------

structure Session.Isolated (heap : Nat) (s : Session) : Prop where
  disjoint : s.live.Pairwise fun a b => Apart a.ptr a.size b.ptr b.size
  inside : ∀ a ∈ s.live, heap ≤ a.ptr ∧ a.ptr + a.size ≤ s.heap.brk
  brk_le : s.heap.brk ≤ s.heap.endp
  endp_eq : s.heap.endp = heap + heapSize

theorem Session.Backed.apart (hB : s.Backed heap A) (ha : a ∈ s.live) (hb : b ∈ s.live)
    (hne : a.ptr ≠ b.ptr) : Apart a.ptr a.size b.ptr b.size := by
  obtain ⟨c, hc, hcd, -, hcs⟩ := hB.backs.serves a ha
  obtain ⟨d, hd, hdd, -, hds⟩ := hB.backs.serves b hb
  have hcd' : Apart c.data c.size d.data d.size :=
    hB.refines.ok.ordered.data_apart hc hd (by rwa [hcd, hdd])
  rw [hcd, hdd] at hcd'
  unfold Apart at *
  omega

theorem Session.Backed.isolated (hB : s.Backed heap A) : s.Isolated heap := by
  have hR := hB.refines
  refine ⟨?_, fun a ha => ?_, ?_, hR.endp⟩
  · exact hB.backs.distinct.imp_of_mem fun ha hb hne => hB.apart ha hb hne
  · obtain ⟨b, hb, hd, -, hs⟩ := hB.backs.serves a ha
    have := hR.ok.ordered.mem hb
    rw [hR.rep.brk]
    simp only [Blk.fin, Blk.data] at *
    omega
  · rw [hR.rep.brk, hR.endp]
    exact hR.ok.brk_le

theorem Served.spares_live {h : Heap} (hs : Served heap p { h with log := [] } A h' A')
    (hB : Backs A live) (hw : w ∈ h'.log) (ha : a ∈ live) (hp : a.ptr ≠ p) : Apart w.1 w.2 a.ptr a.size := by
  obtain ⟨as, ⟨ws, hlog, hin⟩, hsp⟩ := hs.logged
  rw [hlog, List.append_nil] at hw
  obtain ⟨c, hc, hle, hge⟩ := hin w hw
  obtain ⟨b, hb, hd, hf, hsz⟩ := hB.serves a ha
  have := hsp b hb hf (by rwa [hd]) c hc
  rw [hd] at this
  unfold Apart at this ⊢
  omega

/-- Live ranges are disjoint and inside the used heap in every state of every
session, and no call writes a header into a live range it does not move. -/
theorem session_isolated (hp : Placed heap)
    (hr : run Session.step (.start mem heap) ops = some s) :
    s.Isolated heap ∧ ∀ op, s.allows op = true → ∃ s', s.step op = some s' ∧
      ∀ w ∈ s'.heap.log, ∀ a ∈ s.live, a.ptr ≠ op.moves → Apart w.1 w.2 a.ptr a.size := by
  obtain ⟨A, hB⟩ := run_backed hp hr
  refine ⟨hB.isolated, fun op ha => ?_⟩
  obtain ⟨s', hs, -, -, hserved⟩ := step_backed hB ha
  exact ⟨s', hs, fun w hw a hl hne => hserved.spares_live hB.backs hw hl hne⟩

theorem session_isolated_three :
    ∃ s, run Session.step (.start (fun _ => 0) 4096)
        [.kmalloc 8, .kmalloc 16, .krealloc 4136 24, .kfree 4184] = some s ∧
      s.live = [{ ptr := 4240, size := 24 }] ∧ s.Isolated 4096 := by
  have hrun : (run Session.step (.start (fun _ => 0) 4096)
      [.kmalloc 8, .kmalloc 16, .krealloc 4136 24, .kfree 4184]).map Session.live =
        some [{ ptr := 4240, size := 24 }] := by decide +kernel
  obtain ⟨s, hr, hl⟩ := Option.map_eq_some_iff.mp hrun
  exact ⟨s, hr, hl, (session_isolated ⟨by decide, by decide⟩ hr).1⟩

end

end TomatoOs.Kmem
