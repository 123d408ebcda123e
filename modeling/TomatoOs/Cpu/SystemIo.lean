import TomatoOs.Kmem.Contents
import TomatoOs.Kmem.Walks

/-!
# SystemIO handles

`uacpi_kernel_io_map` puts the base of a range of ports into a block of the heap
and hands out the address of the block. `uacpi_kernel_io_read` and
`uacpi_kernel_io_write` take the handle for the base itself, where the accessors
of a PCI device look into theirs. So they reach the port that the low half word
of the block's address names.
-/

namespace TomatoOs.Cpu

open Lib Kmem

inductive UacpiStatus
  | ok
  | outOfMemory
  | invalidArgument
deriving DecidableEq

-- ---------------------------------------------------------------------------
-- Ports
-- ---------------------------------------------------------------------------

inductive PortAccess
  | input (port : BitVec 16) (width : Nat)
  | output (port : BitVec 16) (width value : Nat)
deriving DecidableEq

structure IoMachine where
  answer : BitVec 16 → Nat → Nat
  accesses : List PortAccess
  mem : Mem

def inPort (width : Nat) (port : BitVec 16) (s : IoMachine) : IoMachine × Nat :=
  ({ s with accesses := s.accesses ++ [.input port width] }, s.answer port width % 256 ^ width)

def inPortB : BitVec 16 → IoMachine → IoMachine × Nat := inPort 1
def inPortW : BitVec 16 → IoMachine → IoMachine × Nat := inPort 2
def inPortD : BitVec 16 → IoMachine → IoMachine × Nat := inPort 4

def outPort (width : Nat) (port : BitVec 16) (value : Nat) (s : IoMachine) : IoMachine :=
  { s with accesses := s.accesses ++ [.output port width (value % 256 ^ width)] }

def outPortB : BitVec 16 → Nat → IoMachine → IoMachine := outPort 1
def outPortW : BitVec 16 → Nat → IoMachine → IoMachine := outPort 2
def outPortD : BitVec 16 → Nat → IoMachine → IoMachine := outPort 4

-- ---------------------------------------------------------------------------
-- kernel_api.c
-- ---------------------------------------------------------------------------

def uacpiKernelIoMap (h : Heap) (base : BitVec 64) (_len : Nat) :
    Option (Heap × Except UacpiStatus Nat) :=
  (h.kmalloc 8).map fun r =>
    let handle := r.2
    if handle = 0 then (r.1, .error .outOfMemory)
    else ({ r.1 with mem := r.1.mem.store handle 8 base.toNat }, .ok handle)

def uacpiKernelIoUnmap (h : Heap) (handle : Nat) : Option Heap := h.kfree handle

def uacpiKernelIoRead (handle offset : BitVec 64) (width : BitVec 8) (out : Nat)
    (s : IoMachine) : IoMachine × UacpiStatus :=
  let target := (handle + offset).setWidth 16
  -- `out` is a pointer to 64 bits
  let give (r : IoMachine × Nat) : IoMachine × UacpiStatus :=
    ({ r.1 with mem := r.1.mem.store out 8 r.2 }, .ok)
  match width.toNat with
  | 1 => give (inPortB target s)
  | 2 => give (inPortW target s)
  | 4 => give (inPortD target s)
  | _ => (s, .invalidArgument)

def uacpiKernelIoRead8 (handle offset : BitVec 64) : Nat → IoMachine → IoMachine × UacpiStatus :=
  uacpiKernelIoRead handle offset 1

def uacpiKernelIoRead16 (handle offset : BitVec 64) : Nat → IoMachine → IoMachine × UacpiStatus :=
  uacpiKernelIoRead handle offset 2

def uacpiKernelIoRead32 (handle offset : BitVec 64) : Nat → IoMachine → IoMachine × UacpiStatus :=
  uacpiKernelIoRead handle offset 4

def uacpiKernelIoWrite (handle offset : BitVec 64) (width : BitVec 8) (value : BitVec 64)
    (s : IoMachine) : IoMachine × UacpiStatus :=
  let target := (handle + offset).setWidth 16
  match width.toNat with
  | 1 => (outPortB target value.toNat s, .ok)
  | 2 => (outPortW target value.toNat s, .ok)
  | 4 => (outPortD target value.toNat s, .ok)
  | _ => (s, .invalidArgument)

def uacpiKernelIoWrite8 (handle offset : BitVec 64) (value : BitVec 8) :
    IoMachine → IoMachine × UacpiStatus :=
  uacpiKernelIoWrite handle offset 1 (value.setWidth 64)

def uacpiKernelIoWrite16 (handle offset : BitVec 64) (value : BitVec 16) :
    IoMachine → IoMachine × UacpiStatus :=
  uacpiKernelIoWrite handle offset 2 (value.setWidth 64)

def uacpiKernelIoWrite32 (handle offset : BitVec 64) (value : BitVec 32) :
    IoMachine → IoMachine × UacpiStatus :=
  uacpiKernelIoWrite handle offset 4 (value.setWidth 64)

-- ---------------------------------------------------------------------------
-- One handle
-- ---------------------------------------------------------------------------

/-- Every read and every write through the handle is one access of its width to the
port at the offset from the base. -/
structure Addresses (handle base : BitVec 64) : Prop where
  read : ∀ (offset : BitVec 64) (width : BitVec 8) (out : Nat) (s : IoMachine),
    width.toNat ∈ [1, 2, 4] →
      (uacpiKernelIoRead handle offset width out s).1.accesses =
        s.accesses ++ [.input (BitVec.ofNat 16 (base.toNat + offset.toNat)) width.toNat]
  write : ∀ (offset : BitVec 64) (width : BitVec 8) (value : BitVec 64) (s : IoMachine),
    width.toNat ∈ [1, 2, 4] →
      (uacpiKernelIoWrite handle offset width value s).1.accesses =
        s.accesses ++ [.output (BitVec.ofNat 16 (base.toNat + offset.toNat)) width.toNat
          (value.toNat % 256 ^ width.toNat)]

section
variable {handle offset : BitVec 64} {width : BitVec 8}

theorem target_eq (handle offset : BitVec 64) :
    (handle + offset).setWidth 16 = BitVec.ofNat 16 (handle.toNat + offset.toNat) := by
  apply BitVec.eq_of_toNat_eq
  rw [BitVec.toNat_setWidth, BitVec.toNat_add, BitVec.toNat_ofNat]
  exact Nat.mod_mod_of_dvd _ (by decide)

theorem ioRead_accesses (hw : width.toNat ∈ [1, 2, 4]) (out : Nat) (s : IoMachine) :
    (uacpiKernelIoRead handle offset width out s).1.accesses =
      s.accesses ++ [.input ((handle + offset).setWidth 16) width.toNat] := by
  simp only [List.mem_cons, List.not_mem_nil, or_false] at hw
  rcases hw with hw | hw | hw <;> rw [uacpiKernelIoRead, hw] <;> rfl

theorem ioWrite_accesses (hw : width.toNat ∈ [1, 2, 4]) (value : BitVec 64) (s : IoMachine) :
    (uacpiKernelIoWrite handle offset width value s).1.accesses =
      s.accesses ++ [.output ((handle + offset).setWidth 16) width.toNat
        (value.toNat % 256 ^ width.toNat)] := by
  simp only [List.mem_cons, List.not_mem_nil, or_false] at hw
  rcases hw with hw | hw | hw <;> rw [uacpiKernelIoWrite, hw] <;> rfl

/-- The handle would have to be the base, as far as the ports go. -/
theorem addresses_iff (handle base : BitVec 64) :
    Addresses handle base ↔ handle.toNat % 2 ^ 16 = base.toNat % 2 ^ 16 := by
  constructor
  · intro h
    have hread := h.read 0 1 0 ⟨fun _ _ => 0, [], fun _ => 0⟩ (by decide)
    rw [ioRead_accesses (by decide), target_eq] at hread
    simpa using congrArg BitVec.toNat (PortAccess.input.inj (List.cons.inj hread).1).1
  · intro h
    have htarget (offset : BitVec 64) : (handle + offset).setWidth 16 =
        BitVec.ofNat 16 (base.toNat + offset.toNat) := by
      rw [target_eq]
      apply BitVec.eq_of_toNat_eq
      rw [BitVec.toNat_ofNat, BitVec.toNat_ofNat, Nat.add_mod, h, ← Nat.add_mod]
    refine ⟨fun offset width out s hw => ?_, fun offset width value s hw => ?_⟩
    · rw [ioRead_accesses hw, htarget]
    · rw [ioWrite_accesses hw, htarget]

/-- The result goes through a pointer to 64 bits: the bytes behind it are cleared. -/
theorem ioRead_clears (handle offset : BitVec 64) (out : Nat) (s : IoMachine)
    (hwidth : width = 1#8 ∨ width = 2#8 ∨ width = 4#8) (hlo : width.toNat ≤ i) (hhi : i < 8) :
    (uacpiKernelIoRead handle offset width out s).1.mem (out + i) = 0 := by
  have hclear : ∀ v < 256 ^ width.toNat, s.mem.store out 8 v (out + i) = 0 := fun v hv => by
    have hzero : v / 256 ^ i = 0 :=
      Nat.div_eq_of_lt (hv.trans_le (Nat.pow_le_pow_right (by decide) hlo))
    rw [Mem.store, if_pos ⟨Nat.le_add_right out i, by omega⟩, Nat.add_sub_cancel_left, hzero]
    rfl
  rcases hwidth with rfl | rfl | rfl
  · exact hclear _ (Nat.mod_lt _ (by decide))
  · exact hclear _ (Nat.mod_lt _ (by decide))
  · exact hclear _ (Nat.mod_lt _ (by decide))

end

-- ---------------------------------------------------------------------------
-- Sessions
-- ---------------------------------------------------------------------------

structure IoHandle where
  ptr : Nat
  base : BitVec 64
deriving DecidableEq

def IoHandle.alloc (d : IoHandle) : Alloc := { ptr := d.ptr, size := 8 }

/-- The heap with its clients, and the handles that are not unmapped yet. -/
structure IoSession where
  session : Session
  handles : List IoHandle

inductive IoOp
  | map (base : BitVec 64) (len : Nat)
  | unmap (handle : Nat)
  | client (op : Op)

def IoSession.start (mem : Mem) (heap : Nat) : IoSession :=
  { session := .start mem heap, handles := [] }

def IoSession.spared (s : IoSession) : Op → Bool
  | .kmalloc _ => true
  | .krealloc p _ | .kfree p => s.handles.all fun d => d.ptr ≠ p
  | .store x _ => s.handles.all fun d => ¬Within d.ptr 8 x

def IoSession.step (s : IoSession) : IoOp → Option IoSession
  | .map base len =>
    (uacpiKernelIoMap { s.session.heap with log := [] } base len).map fun r =>
      match r.2 with
      | .error _ => { s with session := { s.session with heap := r.1 } }
      | .ok p =>
        { session := { heap := r.1, live := { ptr := p, size := 8 } :: s.session.live }
          handles := { ptr := p, base := base } :: s.handles }
  | .unmap handle =>
    if s.handles.any fun d => d.ptr == handle then
      (uacpiKernelIoUnmap { s.session.heap with log := [] } handle).map fun h =>
        { session := { heap := h, live := dropped handle s.session.live }
          handles := s.handles.filter fun d => d.ptr ≠ handle }
    else none
  | .client op =>
    if s.spared op then (s.session.step op).map fun t => { s with session := t } else none

structure IoSession.Sound (heap : Nat) (s : IoSession) : Prop where
  backed : ∃ A, s.session.Backed heap A
  live : ∀ d ∈ s.handles, d.alloc ∈ s.session.live
  stored : ∀ d ∈ s.handles, s.session.heap.mem.load d.ptr 8 = d.base.toNat
  distinct : s.handles.Pairwise fun d e => d.ptr ≠ e.ptr

section
variable {heap : Nat} {s s' : IoSession} {d : IoHandle} {op : Op}

theorem handle_load {h h' : Heap} (hs : SameContents d.alloc h h') :
    h'.mem.load d.ptr 8 = h.mem.load d.ptr 8 :=
  Mem.load_eq fun i hi => hs i hi

theorem IoSession.Sound.heap_step (hS : s.Sound heap) {t : Session}
    (ht : s.session.step op = some t) {handles : List IoHandle} (hsub : handles.Sublist s.handles)
    (hsp : ∀ d ∈ handles, op.spares d.alloc) :
    IoSession.Sound heap { session := t, handles := handles } := by
  obtain ⟨A, hB⟩ := hS.backed
  refine ⟨step_inv hS.backed ht, fun d hd => ?_, fun d hd => ?_, hS.distinct.sublist hsub⟩
  · exact (step_spares hB ht (hS.live d (hsub.subset hd)) (hsp d hd)).1
  · have hsame := (step_spares hB ht (hS.live d (hsub.subset hd)) (hsp d hd)).2
    exact (handle_load hsame).trans (hS.stored d (hsub.subset hd))

theorem map_cases {base : BitVec 64} {len : Nat} (hs : s.step (.map base len) = some s') :
    ∃ h q, Heap.kmalloc { s.session.heap with log := [] } 8 = some (h, q) ∧
      s.session.step (.kmalloc 8) = some { heap := h, live := granted q 8 s.session.live } ∧
      (q = 0 ∧ s' = { session := { heap := h, live := s.session.live }, handles := s.handles } ∨
        q ≠ 0 ∧ s' =
          { session := { heap := { h with mem := h.mem.store q 8 base.toNat }
                         live := { ptr := q, size := 8 } :: s.session.live }
            handles := { ptr := q, base := base } :: s.handles }) := by
  obtain ⟨⟨h₁, r⟩, hmap, rfl⟩ := Option.map_eq_some_iff.mp hs
  obtain ⟨⟨h, q⟩, hcall, hr⟩ := Option.map_eq_some_iff.mp hmap
  have hstep : s.session.step (.kmalloc 8) =
      some { heap := h, live := granted q 8 s.session.live } := by
    simp only [Session.step, Session.allows, Heap.call, hcall]
    rfl
  refine ⟨h, q, hcall, hstep, ?_⟩
  by_cases hq : q = 0
  · simp only [hq, if_true] at hr
    cases hr
    exact .inl ⟨hq, rfl⟩
  · simp only [hq, if_false] at hr
    cases hr
    exact .inr ⟨hq, rfl⟩

theorem IoSession.Sound.grant (hS : s.Sound heap) {h : Heap} {q : Nat} {base : BitVec 64}
    (hstep : s.session.step (.kmalloc 8) = some { heap := h, live := granted q 8 s.session.live })
    (hq : q ≠ 0) :
    IoSession.Sound heap
      { session := { heap := { h with mem := h.mem.store q 8 base.toNat }
                     live := { ptr := q, size := 8 } :: s.session.live }
        handles := { ptr := q, base := base } :: s.handles } := by
  have hS' := hS.heap_step hstep (.refl _) fun _ _ => trivial
  obtain ⟨A, hB⟩ := hS'.backed
  simp only [granted, if_neg hq] at hB hS'
  have hnew : { ptr := q, size := 8 } ∈ ({ ptr := q, size := 8 } : Alloc) :: s.session.live :=
    List.mem_cons_self
  have hne : ∀ d ∈ s.handles, q ≠ d.ptr := fun d hd =>
    (List.pairwise_cons.mp hB.backs.distinct).1 d.alloc (hS.live d hd)
  refine ⟨⟨A, hB.store hnew fun x hx => Mem.store_outside hx⟩, ?_, ?_, ?_⟩
  · exact List.forall_mem_cons.mpr ⟨hnew, fun d hd => List.mem_cons_of_mem _ (hS.live d hd)⟩
  · refine List.forall_mem_cons.mpr ⟨Mem.load_store_eq _ base.isLt, fun d hd => ?_⟩
    have hapart := hB.apart hnew (hS'.live d hd) (hne d hd)
    exact (Mem.load_store_of_apart _ hapart).trans (hS'.stored d hd)
  · exact List.pairwise_cons.mpr ⟨hne, hS.distinct⟩

theorem unmap_cases {handle : Nat} (hS : s.Sound heap) (hs : s.step (.unmap handle) = some s') :
    ∃ t, s.session.step (.kfree handle) = some t ∧
      s' = { session := t, handles := s.handles.filter fun d => d.ptr ≠ handle } := by
  simp only [IoSession.step] at hs
  split at hs
  · rename_i hany
    obtain ⟨d, hd, hp⟩ := List.any_eq_true.mp hany
    obtain rfl : d.ptr = handle := by simpa using hp
    obtain ⟨h, hcall, rfl⟩ := Option.map_eq_some_iff.mp hs
    have hlive : isLive s.session.live d.ptr = true :=
      isLive_iff.mpr ⟨d.alloc, hS.live d hd, rfl⟩
    refine ⟨_, ?_, rfl⟩
    rw [uacpiKernelIoUnmap] at hcall
    simp [Session.step, Session.allows, hlive, Heap.call, hcall, Op.liveAfter]
  · cases hs

theorem client_cases (hs : s.step (.client op) = some s') :
    s.spared op = true ∧ ∃ t, s.session.step op = some t ∧ s' = { s with session := t } := by
  simp only [IoSession.step] at hs
  split at hs
  · rename_i hsp
    obtain ⟨t, ht, rfl⟩ := Option.map_eq_some_iff.mp hs
    exact ⟨hsp, t, ht, rfl⟩
  · cases hs

theorem spares_of_spared (hsp : s.spared op = true) (hd : d ∈ s.handles) :
    op.spares d.alloc := by
  cases op with
  | kmalloc n => trivial
  | kfree p => exact Ne.symm (by simpa [IoHandle.alloc] using List.all_eq_true.mp hsp d hd)
  | krealloc p n => exact Ne.symm (by simpa [IoHandle.alloc] using List.all_eq_true.mp hsp d hd)
  | store x v =>
    have hout : ¬Within d.ptr 8 x := by simpa using List.all_eq_true.mp hsp d hd
    exact hout

theorem io_step_sound {op : IoOp} (hS : s.Sound heap) (hs : s.step op = some s') :
    s'.Sound heap := by
  cases op with
  | map base len =>
    obtain ⟨h, q, -, hstep, ⟨hq, rfl⟩ | ⟨hq, rfl⟩⟩ := map_cases hs
    · have hS' := hS.heap_step hstep (.refl _) fun _ _ => trivial
      rwa [granted, if_pos hq] at hS'
    · exact hS.grant hstep hq
  | unmap handle =>
    obtain ⟨t, ht, rfl⟩ := unmap_cases hS hs
    refine hS.heap_step ht List.filter_sublist fun d hd => Ne.symm ?_
    simpa [IoHandle.alloc] using (List.mem_filter.mp hd).2
  | client op =>
    obtain ⟨hsp, t, ht, rfl⟩ := client_cases hs
    exact hS.heap_step ht (.refl _) fun d hd => spares_of_spared hsp hd

theorem io_start_sound (hp : Placed heap) (mem : Mem) : (IoSession.start mem heap).Sound heap :=
  ⟨⟨_, start_backed hp mem⟩, List.forall_mem_nil _, List.forall_mem_nil _, .nil⟩

-- ---------------------------------------------------------------------------
-- Every handle
-- ---------------------------------------------------------------------------

/-- Accesses through a handle go where it was mapped, and the handles have their own
places, with their bases in them. -/
structure IoSession.Faithful (s : IoSession) : Prop where
  addresses : ∀ d ∈ s.handles, Addresses (BitVec.ofNat 64 d.ptr) d.base
  apart : s.handles.Pairwise fun d e => Apart d.ptr 8 e.ptr 8
  stored : ∀ d ∈ s.handles, s.session.heap.mem.load d.ptr 8 = d.base.toNat

/-- Where the heap has room for a new handle, the address ends like the base. -/
def IoSession.hitsBase (s : IoSession) : IoOp → Prop
  | .map base _ => ∀ p, s.session.heap.offers 8 p → p % 2 ^ 16 = base.toNat % 2 ^ 16
  | .unmap _ | .client _ => True

theorem IoSession.Sound.apart (hS : s.Sound heap) :
    s.handles.Pairwise fun d e => Apart d.ptr 8 e.ptr 8 := by
  obtain ⟨A, hB⟩ := hS.backed
  exact hS.distinct.imp_of_mem fun hd he hne => hB.apart (hS.live _ hd) (hS.live _ he) hne

theorem IoSession.Sound.faithful_iff (hS : s.Sound heap) :
    s.Faithful ↔ ∀ d ∈ s.handles, d.ptr % 2 ^ 16 = d.base.toNat % 2 ^ 16 := by
  have hone : ∀ d : IoHandle, Addresses (BitVec.ofNat 64 d.ptr) d.base ↔
      d.ptr % 2 ^ 16 = d.base.toNat % 2 ^ 16 := fun d => by
    rw [addresses_iff, BitVec.toNat_ofNat, Nat.mod_mod_of_dvd _ (by decide)]
  exact ⟨fun h d hd => (hone d).mp (h.addresses d hd),
    fun h => ⟨fun d hd => (hone d).mpr (h d hd), hS.apart, hS.stored⟩⟩

theorem map_offers (hS : s.Sound heap) {h : Heap} {q p : Nat}
    (hcall : Heap.kmalloc { s.session.heap with log := [] } 8 = some (h, q)) :
    s.session.heap.offers 8 p ↔ q = p ∧ p ≠ 0 := by
  obtain ⟨A, hB⟩ := hS.backed
  obtain ⟨h', heq, -⟩ := kmalloc_refines hB.refines.quiet
    (hB.placed.answered hB.refines.quiet (n := 8) (by decide))
  rw [hcall] at heq
  cases heq
  exact offers_iff (n := 8) hB.refines

theorem io_step_faithful {op : IoOp} (hS : s.Sound heap) (hF : s.Faithful)
    (hs : s.step op = some s') : s'.Faithful ↔ s.hitsBase op := by
  rw [(io_step_sound hS hs).faithful_iff]
  rw [hS.faithful_iff] at hF
  cases op with
  | map base len =>
    obtain ⟨h, q, hcall, -, hcases⟩ := map_cases hs
    simp only [IoSession.hitsBase, map_offers hS hcall, and_imp, forall_eq']
    rcases hcases with ⟨hq, rfl⟩ | ⟨hq, rfl⟩
    · exact ⟨fun _ h0 => absurd hq h0, fun _ => hF⟩
    · rw [List.forall_mem_cons]
      exact ⟨fun h' _ => h'.1, fun h' => ⟨h' hq, hF⟩⟩
  | unmap handle =>
    obtain ⟨t, -, rfl⟩ := unmap_cases hS hs
    exact iff_of_true (fun d hd => hF d (List.mem_of_mem_filter hd)) trivial
  | client op =>
    obtain ⟨-, t, -, rfl⟩ := client_cases hs
    exact iff_of_true hF trivial

theorem io_handles_iff (hp : Placed heap)
    (hr : run IoSession.step (.start mem heap) ops = some s) :
    Always IoSession.step IoSession.Faithful (.start mem heap) ops ↔
      AllSteps IoSession.step IoSession.hitsBase (.start mem heap) ops := by
  have hS := io_start_sound hp mem
  refine always_iff (IoSession.Sound heap) (fun _ _ _ => io_step_sound)
    (fun _ _ _ => io_step_faithful) hS ?_ hr
  exact hS.faithful_iff.mpr (List.forall_mem_nil _)

theorem hitsBase_of_kmalloc (hS : s.Sound heap)
    (hp : (Heap.kmalloc { s.session.heap with log := [] } 8).map Prod.snd = some q)
    (hq : q % 2 ^ 16 = base.toNat % 2 ^ 16) : s.hitsBase (.map base len) := by
  obtain ⟨⟨h, q⟩, hcall, rfl⟩ := Option.map_eq_some_iff.mp hp
  intro p hoffer
  obtain ⟨rfl, -⟩ := (map_offers hS hcall).mp hoffer
  exact hq

/-- Two handles with a block between them, for the ports that their addresses end like. -/
theorem io_handles_iff_two :
    let ops := [IoOp.map 0x1028 8, .client (.kmalloc 16), .map 0x1090 4]
    ∃ s, run IoSession.step (.start (fun _ => 0) 4096) ops = some s ∧
      s.handles = [{ ptr := 4240, base := 0x1090 }, { ptr := 4136, base := 0x1028 }] ∧
      Always IoSession.step IoSession.Faithful (.start (fun _ => 0) 4096) ops := by
  intro ops
  have hp : Placed 4096 := ⟨by decide, by decide⟩
  have hrun : (run IoSession.step (.start (fun _ => 0) 4096) ops).map IoSession.handles =
      some [{ ptr := 4240, base := 0x1090 }, { ptr := 4136, base := 0x1028 }] := by decide +kernel
  obtain ⟨s, hr, hhandles⟩ := Option.map_eq_some_iff.mp hrun
  have hS := io_start_sound hp fun _ => 0
  refine ⟨s, hr, hhandles, (io_handles_iff hp hr).mpr ⟨hitsBase_of_kmalloc (q := 4136) hS ?_ (by decide),
    fun s₁ h₁ => ⟨trivial, fun s₂ h₂ => ⟨hitsBase_of_kmalloc (q := 4240)
      (io_step_sound (io_step_sound hS h₁) h₂) ?_ (by decide), fun _ _ => trivial⟩⟩⟩⟩
  · decide +kernel
  · obtain rfl := step_getD h₁
    obtain rfl := step_getD h₂
    decide +kernel

/-- The power management port at 0x604, asked through a handle of the same heap. -/
theorem mapped_port_missed :
    ∃ s, run IoSession.step (.start (fun _ => 0) 4096) [.map 0x604 2] = some s ∧
      s.handles = [{ ptr := 4136, base := 0x604 }] ∧ ¬s.Faithful ∧
      (uacpiKernelIoRead 4136 0 2 0 ⟨fun _ _ => 0, [], fun _ => 0⟩).1.accesses =
        [.input 0x1028 2] := by
  have hrun : (run IoSession.step (.start (fun _ => 0) 4096) [.map 0x604 2]).map
      IoSession.handles = some [{ ptr := 4136, base := 0x604 }] := by decide +kernel
  obtain ⟨s, hr, hhandles⟩ := Option.map_eq_some_iff.mp hrun
  refine ⟨s, hr, hhandles, fun hF => ?_, rfl⟩
  have hone := (addresses_iff _ _).mp (hF.addresses { ptr := 4136, base := 0x604 } (by simp [hhandles]))
  exact absurd hone (by decide)

end

end TomatoOs.Cpu
