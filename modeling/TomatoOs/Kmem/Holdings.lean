import TomatoOs.Kmem.Contents

/-!
# Blocks that hold a record

A part of the kernel takes a block from the heap, puts a record into it and hands out its
address. As long as the other clients keep off these blocks, each of them holds its
record until it is given back, whatever else happens on the heap.
-/

namespace TomatoOs.Kmem

open Lib

/-- A block and the record in it, as a number of as many bytes. -/
structure Holding where
  ptr : Nat
  size : Nat
  value : Nat

def Holding.alloc (d : Holding) : Alloc := { ptr := d.ptr, size := d.size }

def Holding.In (d : Holding) (m : Mem) : Prop :=
  ∀ i < d.size, m (d.ptr + i) = BitVec.ofNat 8 (d.value / 256 ^ i)

structure Holders where
  session : Session
  held : List Holding

namespace Holders

def spares (s : Holders) : Op → Bool
  | .kmalloc _ => true
  | .krealloc p _ | .kfree p => s.held.all fun d => d.ptr ≠ p
  | .store x _ => s.held.all fun d => ¬Within d.ptr d.size x

def client (s : Holders) (op : Op) : Option Holders :=
  if s.spares op then (s.session.step op).map fun t => { s with session := t } else none

def took (s : Holders) (h : Heap) (p size value : Nat) : Holders :=
  if p = 0 then { s with session := { s.session with heap := h } }
  else
    { session := { heap := { h with mem := h.mem.store p size value }
                   live := { ptr := p, size := size } :: s.session.live }
      held := { ptr := p, size := size, value := value } :: s.held }

def gave (s : Holders) (h : Heap) (p : Nat) : Holders :=
  { session := { heap := h, live := dropped p s.session.live }
    held := s.held.filter fun d => d.ptr ≠ p }

structure Sound (heap : Nat) (s : Holders) : Prop where
  backed : ∃ A, s.session.Backed heap A
  live : ∀ d ∈ s.held, d.alloc ∈ s.session.live
  stored : ∀ d ∈ s.held, d.In s.session.heap.mem
  distinct : s.held.Pairwise fun d e => d.ptr ≠ e.ptr

variable {heap : Nat} {s s' : Holders} {d : Holding} {op : Op}

theorem start_sound (hp : Placed heap) (mem : Mem) : Sound heap ⟨.start mem heap, []⟩ :=
  ⟨⟨_, start_backed hp mem⟩, List.forall_mem_nil _, List.forall_mem_nil _, .nil⟩

theorem Sound.heap_step (hS : s.Sound heap) {t : Session} (ht : s.session.step op = some t)
    {held : List Holding} (hsub : held.Sublist s.held) (hsp : ∀ d ∈ held, op.spares d.alloc) :
    Sound heap { session := t, held := held } := by
  obtain ⟨A, hB⟩ := hS.backed
  refine ⟨step_inv hS.backed ht, fun d hd => ?_, fun d hd i hi => ?_, hS.distinct.sublist hsub⟩
  · exact (step_spares hB ht (hS.live d (hsub.subset hd)) (hsp d hd)).1
  · have hsame := (step_spares hB ht (hS.live d (hsub.subset hd)) (hsp d hd)).2
    exact (hsame i hi).trans (hS.stored d (hsub.subset hd) i hi)

theorem spares_alloc (hsp : s.spares op = true) (hd : d ∈ s.held) : op.spares d.alloc := by
  cases op with
  | kmalloc n => trivial
  | kfree p => exact Ne.symm (by simpa [Holding.alloc] using List.all_eq_true.mp hsp d hd)
  | krealloc p n => exact Ne.symm (by simpa [Holding.alloc] using List.all_eq_true.mp hsp d hd)
  | store x v =>
    have hout : ¬Within d.ptr d.size x := by simpa using List.all_eq_true.mp hsp d hd
    exact hout

theorem client_cases (hs : s.client op = some s') :
    s.spares op = true ∧ ∃ t, s.session.step op = some t ∧ s' = { s with session := t } := by
  rw [client] at hs
  split at hs
  · rename_i hsp
    obtain ⟨t, ht, rfl⟩ := Option.map_eq_some_iff.mp hs
    exact ⟨hsp, t, ht, rfl⟩
  · cases hs

theorem Sound.client (hS : s.Sound heap) (hs : s.client op = some s') : s'.Sound heap := by
  obtain ⟨hsp, t, ht, rfl⟩ := client_cases hs
  exact hS.heap_step ht (.refl _) fun d hd => spares_alloc hsp hd

theorem Sound.scribble (hS : s.Sound heap) {a : Alloc} (ha : a ∈ s.session.live)
    (hfree : ∀ d ∈ s.held, a.ptr ≠ d.ptr) {m : Mem}
    (hm : ∀ x, ¬Within a.ptr a.size x → m x = s.session.heap.mem x) :
    Sound heap { s with
      session := { s.session with heap := { s.session.heap with mem := m } } } := by
  obtain ⟨A, hB⟩ := hS.backed
  refine ⟨⟨A, hB.store ha hm⟩, hS.live, fun d hd i hi => ?_, hS.distinct⟩
  have hapart := hB.apart ha (hS.live d hd) (hfree d hd)
  have hin : Within d.ptr d.size (d.ptr + i) := ⟨Nat.le_add_right _ _, by omega⟩
  exact (hm _ (hapart.not_within hin)).trans (hS.stored d hd i hi)

theorem Sound.took (hS : s.Sound heap) {h : Heap} {p : Nat} {size : Nat} (value : Nat)
    (hsize : size ≤ heapSize)
    (hcall : Heap.kmalloc { s.session.heap with log := [] } size = some (h, p)) :
    (s.took h p size value).Sound heap := by
  have hstep : s.session.step (.kmalloc size) =
      some { heap := h, live := granted p size s.session.live } := by
    have hallows : s.session.allows (.kmalloc size) = true := decide_eq_true hsize
    simp only [Session.step, hallows, if_true, Heap.call, hcall]
    rfl
  have hS' := hS.heap_step hstep (.refl _) fun _ _ => trivial
  by_cases hp : p = 0
  · rw [granted, if_pos hp] at hS'
    rwa [Holders.took, if_pos hp]
  · rw [granted, if_neg hp] at hS'
    obtain ⟨A, hB⟩ := hS'.backed
    have hnew : { ptr := p, size := size } ∈ ({ ptr := p, size := size } : Alloc) :: s.session.live :=
      List.mem_cons_self
    have hne : ∀ d ∈ s.held, p ≠ d.ptr := fun d hd =>
      (List.pairwise_cons.mp hB.backs.distinct).1 d.alloc (hS.live d hd)
    have hstored := hS'.scribble hnew hne (m := h.mem.store p size value) fun x hx =>
      Mem.store_outside hx
    rw [Holders.took, if_neg hp]
    refine ⟨hstored.backed, List.forall_mem_cons.mpr ⟨hnew, hstored.live⟩,
      List.forall_mem_cons.mpr ⟨fun i hi => ?_, hstored.stored⟩,
      List.pairwise_cons.mpr ⟨hne, hS.distinct⟩⟩
    change h.mem.store p size value (p + i) = _
    rw [Mem.store, if_pos ⟨Nat.le_add_right p i, Nat.add_lt_add_left hi p⟩, Nat.add_sub_cancel_left]

theorem Sound.gave (hS : s.Sound heap) {h : Heap} (hd : d ∈ s.held)
    (hcall : Heap.kfree { s.session.heap with log := [] } d.ptr = some h) :
    (s.gave h d.ptr).Sound heap := by
  have hlive : isLive s.session.live d.ptr = true := isLive_iff.mpr ⟨d.alloc, hS.live d hd, rfl⟩
  have hstep : s.session.step (.kfree d.ptr) =
      some { heap := h, live := dropped d.ptr s.session.live } := by
    simp [Session.step, Session.allows, hlive, Heap.call, hcall, Op.liveAfter]
  refine hS.heap_step hstep List.filter_sublist fun e he => Ne.symm ?_
  simpa [Holding.alloc] using (List.mem_filter.mp he).2

theorem Sound.load (hS : s.Sound heap) (hd : d ∈ s.held) (h : o + n ≤ d.size) :
    s.session.heap.mem.load (d.ptr + o) n = d.value / 256 ^ o % 256 ^ n := by
  refine Mem.load_digits fun i hi => ?_
  rw [Nat.add_assoc, hS.stored d hd (o + i) (by omega), Nat.div_div_eq_div_mul, ← Nat.pow_add]

end Holders

end TomatoOs.Kmem
