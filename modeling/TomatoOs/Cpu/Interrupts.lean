import TomatoOs.Lib.Slots
import TomatoOs.Cpu.IrqRouting
import TomatoOs.Cpu.SystemIo

/-!
# Interrupts to their handlers

`irq_create` puts a handler into a slot, sets the gate of the slot's vector to its
trampoline and routes the interrupt's pin to the vector. `irq_destroy` empties the slot
and leaves the pin as it is. So there are two maps, from pins to slots and from slots to
handlers, of which only the second is ever cleared: `Lines`. An interrupt on a pin makes
the call that they give, after any sequence of operations, and, but for one call with a
null argument, at any store within an operation too. The timer and the keyboard take a pin
each out of the maps, and unmask one more.
-/

namespace TomatoOs.Cpu

open Lib

-- ---------------------------------------------------------------------------
-- irq.c
-- ---------------------------------------------------------------------------

def initIrqSubsystem (s : Irqs) : Irqs := { s with irqTable := fun _ => ⟨0, 0, false⟩ }

def irqDestroy (s : Irqs) (vector : Nat) : Irqs :=
  if vector < 48 ∨ 48 + 8 ≤ vector then s
  else { s with irqTable := Function.update s.irqTable (vector - 48) ⟨0, 0, false⟩ }

/-- The call that `irq_trampoline_n` makes before it ends the interrupt. -/
def irqTrampoline (table : Nat → IrqSlot) (n : Nat) : Option (Nat × Nat) :=
  if (table n).used ∧ (table n).func ≠ 0 then some ((table n).func, (table n).arg) else none

-- ---------------------------------------------------------------------------
-- kernel_api.c
-- ---------------------------------------------------------------------------

def uacpiKernelInstallInterruptHandler (k : Apic) (s : Irqs) (irq handler ctx : Nat) :
    Except UacpiStatus Nat × Irqs :=
  let create := irqCreate k s (irq % 2 ^ 16) .legacy handler ctx 0
  (if create.1 = 0 then .error .outOfMemory else .ok create.1, create.2)

/-- The handle is not looked at. -/
def uacpiKernelUninstallInterruptHandler (s : Irqs) (_irqHandle : Nat) : UacpiStatus × Irqs :=
  (.ok, s)

-- ---------------------------------------------------------------------------
-- An interrupt
-- ---------------------------------------------------------------------------

/-- What comes of an interrupt on a pin of the I/O APIC: the entry of the pin may be
masked or go to another processor, the gate of its vector may not be a trampoline, and
the trampoline may find its slot empty. -/
def interrupt (k : Apic) (s : Irqs) (pin : Nat) : Option (Nat × Nat) :=
  let low := s.ioapics.regs k.ioapicAddr (0x10 + 2 * pin)
  let high := s.ioapics.regs k.ioapicAddr (0x10 + 2 * pin + 1)
  if low.testBit 16 ∨ high >>> 24 ≠ 0 then none
  else (s.idt (low &&& 0xFF)).bind (irqTrampoline s.irqTable)

def entryInfo (vector lapic : Nat) : Nat :=
  clearBit (clearBit (clearBit (lapic <<< 56 % 2 ^ 64 ||| vector &&& 0xFF) 16) 15) 13

def slotStores (s : Irqs) (slot func arg : Nat) : List Irqs :=
  let entry := s.irqTable slot
  let put (e : IrqSlot) : Irqs := { s with irqTable := Function.update s.irqTable slot e }
  [put { entry with used := true }, put { entry with used := true, func := func },
    put ⟨func, arg, true⟩,
    { put ⟨func, arg, true⟩ with idt := Function.update s.idt (48 + slot) (some slot) }]

def routeStores (k : Apic) (i : Ioapics) (vector gsi : Nat) : List Ioapics :=
  let reg := irqRegister k.ioapicDevice.globalSystemInterruptBase gsi
  let info := entryInfo vector 0
  let low := writeIoapic i k.ioapicAddr reg (info % 2 ^ 32)
  let high := writeIoapic low k.ioapicAddr (wadd 32 reg 1) (info / 2 ^ 32)
  [low, high, unmaskIoapic k high gsi 0]

def irqCreateStores (k : Apic) (s : Irqs) (irq : Nat) (type : IrqType) (func arg : Nat) : List Irqs :=
  match freeSlot s.irqTable with
  | none => []
  | some slot =>
    let filled := slotStores s slot func arg
    match type with
    | .other => filled
    | .legacy => filled ++ (routeStores k s.ioapics (48 + slot) (overridden k irq)).map fun i =>
      { filled.getLast?.getD s with ioapics := i }

def irqDestroyStores (s : Irqs) (vector : Nat) : List Irqs :=
  if vector < 48 ∨ 48 + 8 ≤ vector then []
  else
    let entry := s.irqTable (vector - 48)
    let put (e : IrqSlot) : Irqs :=
      { s with irqTable := Function.update s.irqTable (vector - 48) e }
    [put { entry with used := false }, put { entry with used := false, func := 0 },
      put ⟨0, 0, false⟩]

-- ---------------------------------------------------------------------------
-- Pins, slots and handlers
-- ---------------------------------------------------------------------------

structure Lines where
  slots : Nat → Option (Nat × Nat)
  pins : Nat → Option Nat

namespace Lines

def empty : Lines := ⟨fun _ => none, fun _ => none⟩

def free (l : Lines) : Option Nat := firstSlot (fun i => (l.slots i).isNone) 8

def vector (l : Lines) : Nat := l.free.elim 0 (48 + ·)

def register (l : Lines) (pin : Option Nat) (handler : Nat × Nat) : Lines :=
  match l.free with
  | none => l
  | some slot =>
    { slots := Function.update l.slots slot (some handler)
      pins := fun p => if pin = some p then some slot else l.pins p }

def release (l : Lines) (slot : Nat) : Lines :=
  { l with slots := Function.update l.slots slot none }

/-- The pin gets a vector outside the table. -/
def divert (l : Lines) (pin : Nat) : Lines :=
  { l with pins := fun p => if p = pin then none else l.pins p }

/-- The call that the maps give. A null pointer is no handler. -/
def call (l : Lines) (pin : Nat) : Option (Nat × Nat) :=
  (l.pins pin).bind fun slot => (l.slots slot).filter (·.1 ≠ 0)

end Lines

inductive IrqOp
  | create (irq : Nat) (type : IrqType) (func arg flags : Nat)
  | destroy (vector : Nat)
  | install (irq handler ctx : Nat)
  | uninstall (handle : Nat)
  | initKeyboard
  | initApicTimer
deriving DecidableEq

namespace IrqOp

def step (k : Apic) (s : Irqs) : IrqOp → Irqs
  | create irq type func arg flags => (irqCreate k s irq type func arg flags).2
  | destroy vector => irqDestroy s vector
  | install irq handler ctx => (uacpiKernelInstallInterruptHandler k s irq handler ctx).2
  | uninstall handle => (uacpiKernelUninstallInterruptHandler s handle).2
  | initKeyboard => Cpu.initKeyboard k s
  | initApicTimer => Cpu.initApicTimer k s

def pin (k : Apic) : IrqOp → Option Nat
  | create irq .legacy .. => some (overridden k irq)
  | install irq .. => some (overridden k (irq % 2 ^ 16))
  | initKeyboard => some 1
  | initApicTimer => some 0
  | _ => none

def unmasked (k : Apic) (op : IrqOp) : Option Nat :=
  match op with
  | initKeyboard => some (k.irqOverrides 1)
  | initApicTimer => some (k.irqOverrides 0)
  | _ => op.pin k

def handler : IrqOp → Option (Nat × Nat)
  | create _ _ func arg _ => some (func, arg)
  | install _ handler ctx => some (handler, ctx)
  | _ => none

def vector (k : Apic) (s : Irqs) : IrqOp → Nat
  | create irq type func arg flags => (irqCreate k s irq type func arg flags).1
  | install irq handler ctx =>
    match (uacpiKernelInstallInterruptHandler k s irq handler ctx).1 with
    | .ok vector => vector
    | .error _ => 0
  | _ => 0

def lines (k : Apic) (l : Lines) (op : IrqOp) : Lines :=
  match op with
  | create _ _ func arg _ => l.register (op.pin k) (func, arg)
  | destroy vector => if vector < 48 ∨ 48 + 8 ≤ vector then l else l.release (vector - 48)
  | install _ handler ctx => l.register (op.pin k) (handler, ctx)
  | uninstall _ => l
  | initKeyboard => l.divert 1
  | initApicTimer => l.divert 0

/-- The I/O APIC has the pin. -/
def InRange (k : Apic) (op : IrqOp) : Prop :=
  (∀ pin ∈ op.pin k, pin < 256) ∧ ∀ pin ∈ op.unmasked k, pin < 256

instance InRange.instDecidable (k : Apic) (op : IrqOp) : Decidable (op.InRange k) :=
  inferInstanceAs (Decidable ((∀ pin ∈ op.pin k, pin < 256) ∧ ∀ pin ∈ op.unmasked k, pin < 256))

end IrqOp

/-- One I/O APIC, for the interrupts from 0 on. -/
structure Apic.Single (k : Apic) : Prop where
  coherent : k.Coherent
  base : k.ioapicDevice.globalSystemInterruptBase = 0

def slotOf (handler : Option (Nat × Nat)) : IrqSlot :=
  handler.elim ⟨0, 0, false⟩ fun h => ⟨h.1, h.2, true⟩

/-- An entry that leads to no slot. Masked, it may have the vector of one, unless the
timer or the keyboard unmasks it. -/
def Silent (k : Apic) (pin low : Nat) : Prop :=
  (low.testBit 16 = true ∧ pin ≠ k.irqOverrides 0 ∧ pin ≠ k.irqOverrides 1) ∨
    low &&& 0xFF < 48 ∨ 56 ≤ low &&& 0xFF

instance Silent.instDecidable (k : Apic) (pin low : Nat) : Decidable (Silent k pin low) :=
  inferInstanceAs (Decidable (_ ∨ _))

/-- The entry of a pin without a slot is silent. The others have the vector of their
slot, whose gate is set. -/
structure Lines.Of (k : Apic) (l : Lines) (s : Irqs) : Prop where
  table : ∀ i < 8, s.irqTable i = slotOf (l.slots i)
  gates : ∀ n, n < 48 ∨ 56 ≤ n → s.idt n = none
  low : ∀ pin < 256, l.pins pin = none →
    Silent k pin (s.ioapics.regs k.ioapicAddr (0x10 + 2 * pin))
  routed : ∀ pin < 256, ∀ i, l.pins pin = some i →
    i < 8 ∧ s.ioapics.regs k.ioapicAddr (0x10 + 2 * pin) = 48 + i ∧ s.idt (48 + i) = some i
  high : ∀ pin < 256, s.ioapics.regs k.ioapicAddr (0x10 + 2 * pin + 1) >>> 24 = 0

-- ---------------------------------------------------------------------------
-- The call
-- ---------------------------------------------------------------------------

section
variable {k : Apic} {l : Lines} {s : Irqs}

theorem irqTrampoline_slotOf {table : Nat → IrqSlot} (h : table n = slotOf handler) :
    irqTrampoline table n = handler.filter (·.1 ≠ 0) := by
  rw [irqTrampoline, h]
  cases handler with
  | none => rfl
  | some f => by_cases hf : f.1 = 0 <;> simp [slotOf, hf, Option.filter]

theorem slotVector (h : i < 8) : (48 + i).testBit 16 = false ∧ 48 + i &&& 0xFF = 48 + i := by
  have hall : ∀ i < 8, (48 + i).testBit 16 = false ∧ 48 + i &&& 0xFF = 48 + i := by decide
  exact hall i h

theorem Lines.Of.interrupt_eq (h : l.Of k s) (hpin : pin < 256) : interrupt k s pin = l.call pin := by
  rw [interrupt, Lines.call, h.high pin hpin]
  cases hl : l.pins pin with
  | none =>
    rcases h.low pin hpin hl with ⟨hmasked, -⟩ | hvector
    · rw [if_pos (.inl hmasked)]
      rfl
    · rw [h.gates _ hvector]
      exact ite_self none
  | some i =>
    obtain ⟨hi, hlow, hgate⟩ := h.routed pin hpin i hl
    obtain ⟨hmask, hvector⟩ := slotVector hi
    rw [hlow, hmask, hvector, if_neg (by simp), hgate, Option.bind_some,
      irqTrampoline_slotOf (h.table i hi)]
    rfl

-- ---------------------------------------------------------------------------
-- Operations
-- ---------------------------------------------------------------------------

theorem Lines.Of.freeSlot (h : l.Of k s) : freeSlot s.irqTable = l.free := by
  rw [Cpu.freeSlot, Lines.free, firstSlot]
  refine List.find?_congr fun i hi => ?_
  rw [h.table i (List.mem_range.mp hi)]
  cases l.slots i <;> rfl

theorem Lines.free_some (h : l.free = some i) : i < 8 ∧ l.slots i = none := by
  obtain ⟨hi, hfree, -⟩ := firstSlot_some.mp h
  exact ⟨hi, Option.isNone_iff_eq_none.mp hfree⟩

theorem writeIoapic_regs (i : Ioapics) (addr r value reg : Nat) :
    (writeIoapic i addr r value).regs addr reg = if reg = r then value else i.regs addr reg := by
  simp only [writeIoapic, Function.update_self, Function.update_apply]

theorem entryInfo_slot (h : slot < 8) : entryInfo (48 + slot) 0 = 48 + slot := by
  have hall : ∀ slot < 8, entryInfo (48 + slot) 0 = 48 + slot := by decide
  exact hall slot h

theorem clearBit_slot (h : slot < 8) : clearBit (48 + slot) 16 = 48 + slot := by
  have hall : ∀ slot < 8, clearBit (48 + slot) 16 = 48 + slot := by decide
  exact hall slot h

theorem Apic.Single.registers (hk : k.Single) (hgsi : gsi < 256) :
    irqRegister k.ioapicDevice.globalSystemInterruptBase gsi = 0x10 + 2 * gsi ∧
      maskRegister gsi = 0x10 + 2 * gsi ∧ wadd 32 (0x10 + 2 * gsi) 1 = 0x10 + 2 * gsi + 1 := by
  rw [hk.base]
  simp only [irqRegister, maskRegister, wadd, wmul, wsub]
  omega

structure PinRouted (k : Apic) (gsi slot : Nat) (i i' : Ioapics) : Prop where
  low : i'.regs k.ioapicAddr (0x10 + 2 * gsi) = 48 + slot
  high : i'.regs k.ioapicAddr (0x10 + 2 * gsi + 1) >>> 24 = 0
  others : ∀ reg, reg ≠ 0x10 + 2 * gsi → reg ≠ 0x10 + 2 * gsi + 1 →
    i'.regs k.ioapicAddr reg = i.regs k.ioapicAddr reg

theorem routeStores_routed (hk : k.Single) (hgsi : gsi < 256) (hslot : slot < 8) (i : Ioapics)
    (hhigh : i.regs k.ioapicAddr (0x10 + 2 * gsi + 1) >>> 24 = 0) :
    ∀ i' ∈ routeStores k i (48 + slot) gsi, PinRouted k gsi slot i i' := by
  obtain ⟨hirq, hmask, hsucc⟩ := hk.registers hgsi
  have hmod : (48 + slot) % 2 ^ 32 = 48 + slot := by omega
  have hdiv : (48 + slot) / 2 ^ 32 = 0 := by omega
  have haddr : k.ioapicDevice.ioapicAddr = k.ioapicAddr := hk.coherent.symm
  simp only [routeStores, unmaskIoapic, haddr, hirq, hmask, hsucc, entryInfo_slot hslot, hmod, hdiv,
    List.forall_mem_cons, List.not_mem_nil, false_implies, implies_true, and_true]
  refine ⟨⟨?_, ?_, ?_⟩, ⟨?_, ?_, ?_⟩, ⟨?_, ?_, ?_⟩⟩
  all_goals simp only [writeIoapic_regs]
  · simp
  · simpa using hhigh
  · intro reg hlow _
    rw [if_neg hlow]
  · simp
  · simp
  · intro reg hlow hhigh'
    rw [if_neg hhigh', if_neg hlow]
  · simp [clearBit_slot hslot]
  · simp
  · intro reg hlow hhigh'
    rw [if_neg hlow, if_neg hhigh', if_neg hlow]

theorem Lines.Of.fill (h : l.Of k s) (slot : Nat) (handler : Option (Nat × Nat)) :
    Lines.Of k { l with slots := Function.update l.slots slot handler }
      { s with irqTable := Function.update s.irqTable slot (slotOf handler) } where
  table i hi := by
    by_cases his : i = slot
    · subst his
      simp only [Function.update_self]
    · simp only [Function.update_of_ne his]
      exact h.table i hi
  gates := h.gates
  low := h.low
  routed := h.routed
  high := h.high

theorem Lines.Of.gate (h : l.Of k s) (hslot : slot < 8) :
    Lines.Of k l { s with idt := Function.update s.idt (48 + slot) (some slot) } where
  table := h.table
  gates n hn := (Function.update_of_ne (by omega) ..).trans (h.gates n hn)
  low := h.low
  routed pin hpin i hi := by
    obtain ⟨hlt, hlow, hgate⟩ := h.routed pin hpin i hi
    refine ⟨hlt, hlow, ?_⟩
    by_cases his : i = slot
    · subst his
      exact Function.update_self ..
    · exact (Function.update_of_ne (by omega) ..).trans hgate
  high := h.high

theorem Lines.Of.route (h : l.Of k s) (hslot : slot < 8) (hgate : s.idt (48 + slot) = some slot)
    (hr : PinRouted k gsi slot s.ioapics i) :
    Lines.Of k { l with pins := fun p => if some gsi = some p then some slot else l.pins p }
      { s with ioapics := i } where
  table := h.table
  gates := h.gates
  low pin hpin hl := by
    by_cases hp : gsi = pin
    · simp [hp] at hl
    · have hl : l.pins pin = none := by simpa [hp] using hl
      have hsilent := h.low pin hpin hl
      rwa [← hr.others _ (by omega) (by omega)] at hsilent
  routed pin hpin j hj := by
    by_cases hp : gsi = pin
    · subst hp
      obtain rfl : slot = j := by simpa using hj
      exact ⟨hslot, hr.low, hgate⟩
    · have hj : l.pins pin = some j := by simpa [hp] using hj
      obtain ⟨hlt, hlow, hgate⟩ := h.routed pin hpin j hj
      exact ⟨hlt, (hr.others _ (by omega) (by omega)).trans hlow, hgate⟩
  high pin hpin := by
    by_cases hp : gsi = pin
    · subst hp
      exact hr.high
    · have hhigh := h.high pin hpin
      rwa [← hr.others _ (by omega) (by omega)] at hhigh

def createPin (k : Apic) (irq : Nat) : IrqType → Option Nat
  | .legacy => some (overridden k irq)
  | .other => none

theorem Lines.Of.create (h : l.Of k s) (hk : k.Single) (irq : Nat) (type : IrqType)
    (func arg flags : Nat) (hpin : ∀ pin ∈ createPin k irq type, pin < 256) :
    (irqCreate k s irq type func arg flags).1 = l.vector ∧
      (l.register (createPin k irq type) (func, arg)).Of k
        (irqCreate k s irq type func arg flags).2 := by
  rw [irqCreate, h.freeSlot, Lines.vector, Lines.register]
  cases hfree : l.free with
  | none => exact ⟨rfl, h⟩
  | some slot =>
    obtain ⟨hslot, -⟩ := Lines.free_some hfree
    have hgated := (h.fill slot (some (func, arg))).gate hslot
    cases type with
    | other => exact ⟨rfl, hgated⟩
    | legacy =>
      have hgsi : overridden k irq < 256 := hpin _ rfl
      have hr := routeStores_routed hk hgsi hslot s.ioapics (h.high _ hgsi) _
        (List.mem_cons_of_mem _ (List.mem_cons_of_mem _ List.mem_cons_self))
      exact ⟨rfl, hgated.route hslot (Function.update_self ..) hr⟩

theorem Lines.Of.destroy (h : l.Of k s) (vector : Nat) :
    (IrqOp.lines k l (.destroy vector)).Of k (irqDestroy s vector) := by
  rw [IrqOp.lines, irqDestroy]
  split
  · exact h
  · exact h.fill (vector - 48) none

theorem diverted_regs (hk : k.Single) (hirq : irq < 256) (hgsi : gsi < 256) (i : Ioapics) (pin : Nat) :
    let i' := unmaskIoapic k (setIoapicEntry k i 0x21 irq 0 0) gsi 0
    let written := if pin = irq then 0x21 else i.regs k.ioapicAddr (0x10 + 2 * pin)
    i'.regs k.ioapicAddr (0x10 + 2 * pin) = (if pin = gsi then clearBit written 16 else written) ∧
      i'.regs k.ioapicAddr (0x10 + 2 * pin + 1) =
        if pin = irq then 0 else i.regs k.ioapicAddr (0x10 + 2 * pin + 1) := by
  obtain ⟨hreg, -, hsucc⟩ := hk.registers hirq
  obtain ⟨-, hmask, -⟩ := hk.registers hgsi
  have haddr : k.ioapicDevice.ioapicAddr = k.ioapicAddr := hk.coherent.symm
  have hinfo : clearBit (clearBit (clearBit (0 <<< 56 % 2 ^ 64 ||| 0x21 &&& 0xFF) 16) 15) 13 = 0x21 := by
    decide
  have hlow : ∀ p q : Nat, (0x10 + 2 * p = 0x10 + 2 * q) = (p = q) := fun p q => propext (by omega)
  have hhigh : ∀ p q : Nat, (0x10 + 2 * p + 1 = 0x10 + 2 * q + 1) = (p = q) := fun p q =>
    propext (by omega)
  have hodd : ∀ p q : Nat, (0x10 + 2 * p = 0x10 + 2 * q + 1) = False := fun p q =>
    eq_false (by omega)
  have heven : ∀ p q : Nat, (0x10 + 2 * p + 1 = 0x10 + 2 * q) = False := fun p q =>
    eq_false (by omega)
  simp only [unmaskIoapic, setIoapicEntry, haddr, hreg, hmask, hsucc, hinfo, writeIoapic_regs, hlow,
    hhigh, hodd, heven, if_false]
  refine ⟨?_, rfl⟩
  by_cases hp : pin = gsi
  · subst hp
    rfl
  · rw [if_neg hp, if_neg hp]
    rfl

theorem Silent.unmask (h : Silent k pin low) (hpin : pin = k.irqOverrides 0 ∨ pin = k.irqOverrides 1) :
    Silent k pin (clearBit low 16) := by
  have hsame : clearBit low 16 &&& 0xFF = low &&& 0xFF := by
    rw [clearBit, Nat.and_assoc]
    rfl
  rcases h with ⟨-, htimer, hkeyboard⟩ | hvector
  · exact absurd hpin (not_or.mpr ⟨htimer, hkeyboard⟩)
  · right
    rwa [hsame]

theorem Lines.Of.divert (h : l.Of k s) (hk : k.Single) (hirq : irq < 256) (hgsi : gsi < 256)
    (hover : gsi = k.irqOverrides 0 ∨ gsi = k.irqOverrides 1) :
    (l.divert irq).Of k
      { s with ioapics := unmaskIoapic k (setIoapicEntry k s.ioapics 0x21 irq 0 0) gsi 0 } where
  table := h.table
  gates := h.gates
  low pin hpin hl := by
    have hwritten : Silent k pin
        (if pin = irq then 0x21 else s.ioapics.regs k.ioapicAddr (0x10 + 2 * pin)) := by
      split
      · exact .inr (.inl (by decide))
      · rename_i hne
        exact h.low pin hpin ((if_neg hne).symm.trans hl)
    show Silent k pin (Ioapics.regs _ _ _)
    rw [(diverted_regs hk hirq hgsi s.ioapics pin).1]
    split
    · rename_i hp
      exact hwritten.unmask (hp ▸ hover)
    · exact hwritten
  routed pin hpin i hi := by
    have hne : pin ≠ irq := by
      rintro rfl
      simp [Lines.divert] at hi
    obtain ⟨hlt, hlow, hgate⟩ := h.routed pin hpin i ((if_neg hne).symm.trans hi)
    refine ⟨hlt, ?_, hgate⟩
    show Ioapics.regs _ _ _ = _
    rw [(diverted_regs hk hirq hgsi s.ioapics pin).1, if_neg hne, hlow]
    split
    · exact clearBit_slot hlt
    · rfl
  high pin hpin := by
    show Ioapics.regs _ _ _ >>> 24 = 0
    rw [(diverted_regs hk hirq hgsi s.ioapics pin).2]
    split
    · rfl
    · exact h.high pin hpin

theorem Lines.Of.step (h : l.Of k s) (hk : k.Single) (op : IrqOp) (hop : op.InRange k) :
    (op.lines k l).Of k (op.step k s) := by
  cases op with
  | create irq type func arg flags =>
    have hpin : (IrqOp.create irq type func arg flags).pin k = createPin k irq type := by
      cases type <;> rfl
    rw [IrqOp.InRange, hpin] at hop
    rw [IrqOp.lines, hpin]
    exact (h.create hk irq type func arg flags hop.1).2
  | destroy vector => exact h.destroy vector
  | install irq handler ctx => exact (h.create hk (irq % 2 ^ 16) .legacy handler ctx 0 hop.1).2
  | uninstall handle => exact h
  | initKeyboard => exact h.divert hk (by decide) (hop.2 _ rfl) (.inr rfl)
  | initApicTimer => exact h.divert hk (by decide) (hop.2 _ rfl) (.inl rfl)

-- ---------------------------------------------------------------------------
-- Sequences of operations
-- ---------------------------------------------------------------------------

/-- No entry leads to a slot, all go to the first processor, and no other gate is a
trampoline. -/
structure Irqs.Booted (k : Apic) (s : Irqs) : Prop where
  silent : ∀ pin < 256, Silent k pin (s.ioapics.regs k.ioapicAddr (0x10 + 2 * pin))
  first : ∀ pin < 256, s.ioapics.regs k.ioapicAddr (0x10 + 2 * pin + 1) >>> 24 = 0
  gates : ∀ n, n < 48 ∨ 56 ≤ n → s.idt n = none

def irqRun (k : Apic) (s : Irqs) (ops : List IrqOp) : Irqs := ops.foldl (IrqOp.step k) s

def linesRun (k : Apic) (l : Lines) (ops : List IrqOp) : Lines := ops.foldl (IrqOp.lines k) l

theorem Lines.Of.start (h : s.Booted k) : Lines.empty.Of k (initIrqSubsystem s) where
  table _ _ := rfl
  gates := h.gates
  low pin hpin _ := h.silent pin hpin
  routed _ _ _ hi := by cases hi
  high := h.first

theorem Lines.Of.run (h : l.Of k s) (hk : k.Single) (hops : ∀ op ∈ ops, op.InRange k) :
    (linesRun k l ops).Of k (irqRun k s ops) := by
  induction ops generalizing l s with
  | nil => exact h
  | cons op ops ih =>
    rw [List.forall_mem_cons] at hops
    exact ih (h.step hk op hops.1) hops.2

theorem irqCreate_idt (irq : Nat) (type : IrqType) (func arg flags : Nat) (hn : n < 48 ∨ 56 ≤ n) :
    (irqCreate k s irq type func arg flags).2.idt n = s.idt n := by
  unfold irqCreate
  split
  · rfl
  · rename_i slot hslot
    have hlt : slot < 8 := List.mem_range.mp (List.mem_of_find?_eq_some hslot)
    cases type <;> exact Function.update_of_ne (by omega) ..

theorem irqRun_idt (ops : List IrqOp) (hn : n < 48 ∨ 56 ≤ n) : (irqRun k s ops).idt n = s.idt n := by
  induction ops generalizing s with
  | nil => rfl
  | cons op ops ih =>
    refine (ih (s := op.step k s)).trans ?_
    cases op with
    | create irq type func arg flags => exact irqCreate_idt irq type func arg flags hn
    | destroy vector =>
      simp only [IrqOp.step, irqDestroy]
      split <;> rfl
    | install irq handler ctx => exact irqCreate_idt _ .legacy handler ctx 0 hn
    | uninstall handle => rfl
    | initKeyboard => rfl
    | initApicTimer => rfl

/-- After any operations an interrupt on any pin makes the call that the maps give, the
next registration gets the vector that they give, and the gates of the exceptions, the
timer and the keyboard are as they were. -/
theorem interrupts_follow_lines (hk : k.Single) (hboot : s.Booted k)
    (hops : ∀ op ∈ ops, op.InRange k) :
    (∀ pin < 256, interrupt k (irqRun k (initIrqSubsystem s) ops) pin =
      (linesRun k .empty ops).call pin) ∧
    (∀ irq type func arg flags,
      (irqCreate k (irqRun k (initIrqSubsystem s) ops) irq type func arg flags).1 =
        (linesRun k .empty ops).vector) ∧
    ∀ n, n < 48 ∨ 56 ≤ n → (irqRun k (initIrqSubsystem s) ops).idt n = s.idt n := by
  have hof := (Lines.Of.start hboot).run hk hops
  refine ⟨fun pin hpin => hof.interrupt_eq hpin, fun irq type func arg flags => ?_,
    fun n hn => irqRun_idt ops hn⟩
  rw [irqCreate, hof.freeSlot, Lines.vector]
  cases (linesRun k .empty ops).free with
  | none => rfl
  | some slot => cases type <;> rfl

-- ---------------------------------------------------------------------------
-- A registration
-- ---------------------------------------------------------------------------

def Lines.Serves (l : Lines) (pin slot : Nat) (handler : Nat × Nat) : Prop :=
  l.pins pin = some slot ∧ l.slots slot = some handler

theorem Lines.Serves.call (h : l.Serves pin slot handler) (hf : handler.1 ≠ 0) :
    l.call pin = some handler := by
  simp [Lines.call, h.1, h.2, Option.filter, hf]

theorem Lines.register_serves (hfree : l.free = some slot) (pin : Nat) (handler : Nat × Nat) :
    (l.register (some pin) handler).Serves pin slot handler := by
  rw [Lines.register, hfree]
  exact ⟨if_pos rfl, Function.update_self ..⟩

theorem Lines.Serves.register (h : l.Serves pin slot handler) (hpin : other ≠ some pin)
    (handler' : Nat × Nat) : (l.register other handler').Serves pin slot handler := by
  rw [Lines.register]
  cases hfree : l.free with
  | none => exact h
  | some slot' =>
    have hne : slot ≠ slot' := by
      rintro rfl
      exact absurd ((Lines.free_some hfree).2.symm.trans h.2) (Option.some_ne_none _).symm
    exact ⟨(if_neg hpin).trans h.1, (Function.update_of_ne hne ..).trans h.2⟩

theorem Lines.Serves.divert (h : l.Serves pin slot handler) (hpin : pin ≠ other) :
    (l.divert other).Serves pin slot handler := ⟨(if_neg hpin).trans h.1, h.2⟩

theorem Lines.Serves.step (h : l.Serves pin slot handler) (op : IrqOp) (hpin : op.pin k ≠ some pin)
    (hdestroy : op ≠ .destroy (48 + slot)) : (op.lines k l).Serves pin slot handler := by
  cases op with
  | create => exact h.register hpin _
  | install => exact h.register hpin _
  | uninstall => exact h
  | initKeyboard => exact h.divert fun heq => hpin (congrArg some heq.symm)
  | initApicTimer => exact h.divert fun heq => hpin (congrArg some heq.symm)
  | destroy vector =>
    rw [IrqOp.lines]
    split
    · exact h
    · have hne : slot ≠ vector - 48 := by
        rintro rfl
        exact hdestroy (congrArg IrqOp.destroy (by omega))
      exact ⟨h.1, (Function.update_of_ne hne ..).trans h.2⟩

theorem Lines.Serves.run (h : l.Serves pin slot handler)
    (hops : ∀ op ∈ ops, op.pin k ≠ some pin ∧ op ≠ .destroy (48 + slot)) :
    (linesRun k l ops).Serves pin slot handler := by
  induction ops generalizing l with
  | nil => exact h
  | cons op ops ih =>
    rw [List.forall_mem_cons] at hops
    exact ih (h.step op hops.1.1 hops.1.2) hops.2

theorem IrqOp.lines_register (op : IrqOp) (hh : op.handler = some h) :
    op.lines k l = l.register (op.pin k) h := by
  cases op with
  | create => cases hh; rfl
  | install => cases hh; rfl
  | destroy | uninstall | initKeyboard | initApicTimer => cases hh

theorem Lines.Of.vector (h : l.Of k s) (hk : k.Single) (op : IrqOp) (hop : op.InRange k)
    (hh : op.handler = some handler) (hpin : op.pin k = some pin) : op.vector k s = l.vector := by
  cases op with
  | create irq type func arg flags =>
    cases type with
    | legacy => exact (h.create hk irq .legacy func arg flags hop.1).1
    | other => cases hpin
  | install irq handler ctx =>
    have hcreate := (h.create hk (irq % 2 ^ 16) .legacy handler ctx 0 hop.1).1
    rw [IrqOp.vector, uacpiKernelInstallInterruptHandler, hcreate]
    by_cases hzero : l.vector = 0
    · rw [if_pos hzero, hzero]
    · rw [if_neg hzero]
  | destroy | uninstall | initKeyboard | initApicTimer => cases hh

/-- A registration that gets a vector has its handler called at every interrupt on its
pin, until the vector is destroyed or the pin's entry is written again. -/
theorem registration_served (hk : k.Single) (hboot : s.Booted k) {before after : List IrqOp}
    {op : IrqOp} (hops : ∀ o ∈ before ++ op :: after, o.InRange k)
    (hh : op.handler = some handler) (hf : handler.1 ≠ 0) (hpin : op.pin k = some pin)
    (hv : op.vector k (irqRun k (initIrqSubsystem s) before) = v) (hv0 : v ≠ 0)
    (hkept : ∀ o ∈ after, o.pin k ≠ some pin ∧ o ≠ .destroy v) :
    interrupt k (irqRun k (initIrqSubsystem s) (before ++ op :: after)) pin = some handler := by
  have hof := (Lines.Of.start hboot).run hk hops
  have hrange : ∀ o ∈ before, o.InRange k := fun o ho => hops o (List.mem_append_left _ ho)
  have hop : op.InRange k := hops op (List.mem_append_right _ List.mem_cons_self)
  have hvector := ((Lines.Of.start hboot).run hk hrange).vector hk op hop hh hpin
  rw [hv] at hvector
  rw [hof.interrupt_eq (hop.1 pin hpin), linesRun, List.foldl_append, List.foldl_cons, ← linesRun,
    ← linesRun, op.lines_register hh, hpin]
  rw [Lines.vector] at hvector
  cases hfree : (linesRun k .empty before).free with
  | none =>
    rw [hfree] at hvector
    exact absurd hvector hv0
  | some slot =>
    rw [hfree] at hvector
    obtain rfl : v = 48 + slot := hvector
    exact ((Lines.register_serves hfree pin handler).run hkept).call hf

-- ---------------------------------------------------------------------------
-- Between the stores
-- ---------------------------------------------------------------------------

theorem irqCreateStores_last (k : Apic) (s : Irqs) (irq : Nat) (type : IrqType)
    (func arg flags : Nat) :
    (irqCreateStores k s irq type func arg).getLast?.getD s =
      (irqCreate k s irq type func arg flags).2 := by
  rw [irqCreateStores, irqCreate]
  cases freeSlot s.irqTable with
  | none => rfl
  | some slot => cases type <;> rfl

theorem irqDestroyStores_last (s : Irqs) (vector : Nat) :
    (irqDestroyStores s vector).getLast?.getD s = irqDestroy s vector := by
  rw [irqDestroyStores, irqDestroy]
  split <;> rfl

theorem interrupt_congr {table table' : Nat → IrqSlot}
    (h : ∀ n, irqTrampoline table n = irqTrampoline table' n) (i : Ioapics)
    (idt : Nat → Option Nat) (pin : Nat) :
    interrupt k ⟨i, table, idt⟩ pin = interrupt k ⟨i, table', idt⟩ pin := by
  simp only [interrupt, funext h]

theorem irqTrampoline_update {table : Nat → IrqSlot} {e : IrqSlot} (e' : IrqSlot)
    (h : ¬(e.used ∧ e.func ≠ 0)) (h' : ¬(e'.used ∧ e'.func ≠ 0)) (n : Nat) :
    irqTrampoline (Function.update table slot e) n =
      irqTrampoline (Function.update table slot e') n := by
  by_cases hn : n = slot
  · subst hn
    rw [irqTrampoline, irqTrampoline, Function.update_self, Function.update_self, if_neg h, if_neg h']
  · rw [irqTrampoline, irqTrampoline, Function.update_of_ne hn, Function.update_of_ne hn]

theorem Lines.call_fill (l : Lines) (slot pin : Nat) (handler : Nat × Nat) :
    Lines.call { l with slots := Function.update l.slots slot (some handler) } pin =
      if l.pins pin = some slot then (some handler).filter (·.1 ≠ 0) else l.call pin := by
  unfold Lines.call
  cases hp : l.pins pin with
  | none => rfl
  | some i =>
    by_cases hi : i = slot
    · subst hi
      simp only [Option.bind_some, Function.update_self, if_true]
    · simp only [Option.bind_some, Function.update_of_ne hi, Option.some.injEq, hi, if_false]

/-- A pin that still has the slot of a registration that was destroyed. -/
def Lines.Stale (l : Lines) (pin : Nat) : Prop := ∃ slot, l.pins pin = some slot ∧ l.slots slot = none

theorem Lines.call_named (hempty : l.slots slot = none) (pin func : Nat) :
    Lines.call { l with slots := Function.update l.slots slot (some (func, 0)) } pin = l.call pin ∨
      l.Stale pin ∧
        Lines.call { l with slots := Function.update l.slots slot (some (func, 0)) } pin =
          some (func, 0) := by
  rw [Lines.call_fill]
  by_cases hp : l.pins pin = some slot
  · by_cases hf : func = 0
    · left
      simp [hp, Lines.call, hempty, hf, Option.filter]
    · right
      exact ⟨⟨slot, hp, hempty⟩, by simp [hp, hf, Option.filter]⟩
  · left
    rw [if_neg hp]

theorem Lines.call_filled (hfree : l.free = some slot) (pin : Nat) (other : Option Nat)
    (handler : Nat × Nat) :
    Lines.call { l with slots := Function.update l.slots slot (some handler) } pin = l.call pin ∨
      Lines.call { l with slots := Function.update l.slots slot (some handler) } pin =
        (l.register other handler).call pin := by
  by_cases hp : l.pins pin = some slot
  · right
    have hp' : (l.register other handler).pins pin = some slot := by
      simp only [Lines.register, hfree]
      split
      · rfl
      · exact hp
    have hs : (l.register other handler).slots = Function.update l.slots slot (some handler) := by
      simp only [Lines.register, hfree]
    rw [Lines.call, Lines.call, hp', hs]
    exact congrArg₂ Option.bind hp rfl
  · left
    rw [Lines.call_fill, if_neg hp]

/-- An interrupt while a slot is filled makes the call of before or the call of after,
or finds the handler in the slot of a stale pin before its argument is there. -/
theorem Lines.Of.slotStores (h : l.Of k s) (hfree : l.free = some slot) (other : Option Nat)
    (func arg : Nat) (hpin : pin < 256) :
    ∀ u ∈ slotStores s slot func arg,
      interrupt k u pin = l.call pin ∨
      interrupt k u pin = (l.register other (func, arg)).call pin ∨
      l.Stale pin ∧ interrupt k u pin = some (func, 0) := by
  obtain ⟨hslot, hempty⟩ := Lines.free_some hfree
  have hentry : s.irqTable slot = ⟨0, 0, false⟩ := by
    rw [h.table slot hslot, hempty]
    rfl
  have hused : interrupt k { s with
      irqTable := Function.update s.irqTable slot ⟨0, 0, true⟩ } pin = l.call pin := by
    rw [← h.interrupt_eq hpin]
    refine interrupt_congr (fun n => ?_) s.ioapics s.idt pin
    rw [irqTrampoline_update ⟨0, 0, false⟩ (by simp) (by simp), ← hentry,
      Function.update_eq_self]
  have hnamed := (h.fill slot (some (func, 0))).interrupt_eq hpin
  have hfilled := h.fill slot (some (func, arg))
  rw [Cpu.slotStores, hentry]
  simp only [List.forall_mem_cons, List.not_mem_nil, false_implies, implies_true, and_true]
  refine ⟨.inl hused, ?_, ?_, ?_⟩
  · exact (Lines.call_named hempty pin func).imp (hnamed.trans ·) fun ⟨hstale, hcall⟩ =>
      .inr ⟨hstale, hnamed.trans hcall⟩
  · exact (Lines.call_filled hfree pin other (func, arg)).imp ((hfilled.interrupt_eq hpin).trans ·)
      fun hcall => .inl ((hfilled.interrupt_eq hpin).trans hcall)
  · have hgated := (hfilled.gate hslot).interrupt_eq hpin
    exact (Lines.call_filled hfree pin other (func, arg)).imp (hgated.trans ·) fun hcall =>
      .inl (hgated.trans hcall)

theorem Lines.Of.create_stores (h : l.Of k s) (hk : k.Single) (irq : Nat) (type : IrqType)
    (func arg flags : Nat) (hcreate : ∀ pin ∈ createPin k irq type, pin < 256)
    (hpin : pin < 256) :
    ∀ u ∈ irqCreateStores k s irq type func arg,
      interrupt k u pin = interrupt k s pin ∨
      interrupt k u pin = interrupt k (irqCreate k s irq type func arg flags).2 pin ∨
      l.Stale pin ∧ interrupt k u pin = some (func, 0) := by
  have hafter := (h.create hk irq type func arg flags hcreate).2.interrupt_eq hpin
  rw [hafter, irqCreateStores, h.freeSlot, h.interrupt_eq hpin]
  cases hfree : l.free with
  | none => simp
  | some slot =>
    have hslots := h.slotStores hfree (createPin k irq type) func arg hpin
    cases type with
    | other => exact hslots
    | legacy =>
      intro u hu
      rcases List.mem_append.mp hu with hu | hu
      · exact hslots u hu
      · -- the slot is filled, and the pin routed to it
        obtain ⟨i, hi, rfl⟩ := List.mem_map.mp hu
        obtain ⟨hslot, -⟩ := Lines.free_some hfree
        have hgsi : overridden k irq < 256 := hcreate _ rfl
        have hr := routeStores_routed hk hgsi hslot s.ioapics (h.high _ hgsi) i hi
        have hof := ((h.fill slot (some (func, arg))).gate hslot).route hslot
          (Function.update_self ..) hr
        right; left
        rw [Lines.register, hfree]
        exact hof.interrupt_eq hpin

theorem irqDestroyStores_interrupt (k : Apic) (s : Irqs) (vector pin : Nat) :
    ∀ u ∈ irqDestroyStores s vector, interrupt k u pin = interrupt k (irqDestroy s vector) pin := by
  rw [irqDestroyStores, irqDestroy]
  split
  · simp
  · simp only [List.forall_mem_cons, List.not_mem_nil, false_implies, implies_true, and_true]
    refine ⟨?_, ?_⟩
    all_goals
      exact interrupt_congr (fun n => irqTrampoline_update _ (by simp) (by simp) n) s.ioapics s.idt pin

/-- An interrupt may come at any store of an operation. Within `irq_create` it makes the
call of before or the call of after, except that a pin left over from a registration
that was destroyed can call the new handler with a null argument. Within `irq_destroy`
it makes the call of after. -/
theorem interrupted_between_stores (hk : k.Single) (hboot : s.Booted k)
    (hops : ∀ op ∈ ops, op.InRange k) (irq : Nat) (type : IrqType) (func arg flags : Nat)
    (hcreate : ∀ pin ∈ createPin k irq type, pin < 256) (hpin : pin < 256) :
    let t := irqRun k (initIrqSubsystem s) ops
    ((irqCreateStores k t irq type func arg).getLast?.getD t =
        (irqCreate k t irq type func arg flags).2 ∧
      ∀ u ∈ irqCreateStores k t irq type func arg,
        interrupt k u pin = interrupt k t pin ∨
        interrupt k u pin = interrupt k (irqCreate k t irq type func arg flags).2 pin ∨
        (linesRun k .empty ops).Stale pin ∧ interrupt k u pin = some (func, 0)) ∧
    ∀ vector, (irqDestroyStores t vector).getLast?.getD t = irqDestroy t vector ∧
      ∀ u ∈ irqDestroyStores t vector, interrupt k u pin = interrupt k (irqDestroy t vector) pin := by
  have hof := (Lines.Of.start hboot).run hk hops
  exact ⟨⟨irqCreateStores_last .., hof.create_stores hk irq type func arg flags hcreate hpin⟩,
    fun vector => ⟨irqDestroyStores_last .., irqDestroyStores_interrupt k _ vector pin⟩⟩

end

theorem blankApic_single : blankApic.Single := ⟨(rfl : blankApic.ioapicAddr = _), rfl⟩

def tickingIrqs : Irqs := initApicTimer blankApic idleIrqs

theorem tickingIrqs_booted : tickingIrqs.Booted blankApic where
  silent := by decide +kernel
  first := by decide +kernel
  gates _ _ := rfl

/-- The slot of pin 25 is taken over by a registration for pin 21. The keyboard's pin has
no slot. -/
theorem interrupts_follow_reused :
    let t := irqRun blankApic (initIrqSubsystem tickingIrqs)
      [.initKeyboard, .create 25 .legacy 0x1000 7 0, .destroy 48, .create 21 .legacy 0x2000 8 0]
    interrupt blankApic t 25 = some (0x2000, 8) ∧ interrupt blankApic t 1 = none := by
  intro t
  have hcalls : ∀ pin < 256, interrupt blankApic t pin = _ :=
    (interrupts_follow_lines blankApic_single tickingIrqs_booted (by decide)).1
  exact ⟨hcalls 25 (by decide), hcalls 1 (by decide)⟩

/-- An uninstalled handler is still called. -/
theorem registration_served_uninstalled :
    interrupt blankApic (irqRun blankApic (initIrqSubsystem tickingIrqs)
      ([.create 21 .legacy 0x2000 8 0] ++ .install 25 0x1000 7 ::
        [.initKeyboard, .uninstall 49, .destroy 48])) 25 = some (0x1000, 7) :=
  registration_served (v := 49) blankApic_single tickingIrqs_booted (by decide) rfl (by decide) rfl
    (by decide) (by decide) (by decide)

/-- A second registration, within which the pin of the first calls its handler without
the argument. -/
theorem interrupted_reused :
    let t := irqRun blankApic (initIrqSubsystem tickingIrqs)
      [.initKeyboard, .create 25 .legacy 0x1000 7 0, .destroy 48]
    (∀ u ∈ irqCreateStores blankApic t 21 .legacy 0x2000 8,
      interrupt blankApic u 25 ∈ [none, some (0x2000, 0), some (0x2000, 8)]) ∧
    ∃ u ∈ irqCreateStores blankApic t 21 .legacy 0x2000 8,
      interrupt blankApic u 25 = some (0x2000, 0) := by
  refine ⟨fun u hu => ?_, _, List.mem_cons_of_mem _ List.mem_cons_self, by decide⟩
  have hpin : 25 < 256 := by decide
  rcases (interrupted_between_stores blankApic_single tickingIrqs_booted (by decide) 21 .legacy
    0x2000 8 0 (by decide) hpin).1.2 u hu with h | h | ⟨-, h⟩
  · rw [h]
    decide
  · rw [h]
    decide
  · rw [h]
    decide

end TomatoOs.Cpu
