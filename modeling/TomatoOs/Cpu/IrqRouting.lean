import TomatoOs.Cpu.Madt

/-!
# Interrupts to the I/O APIC

An interrupt is routed in two steps: `set_ioapic_entry` writes its entry of the
redirection table, `unmask_ioapic` lets it through. Each computes the register
on its own, and of the three callers two name the interrupt differently in the
two steps. `routes_iff` says when both steps mean the same entry.
-/

namespace TomatoOs.Cpu

open Lib

/-- The registers of the I/O APIC at each address, and which were written. -/
structure Ioapics where
  regs : Nat → Nat → Nat
  writes : List (Nat × Nat)

def writeIoapic (s : Ioapics) (addr reg value : Nat) : Ioapics :=
  { regs := Function.update s.regs addr (Function.update (s.regs addr) reg value)
    writes := s.writes ++ [(addr, reg)] }

/-- `info & ~(1ULL << i)` -/
def clearBit (info i : Nat) : Nat := info &&& (2 ^ 64 - 1 - 2 ^ i)

/-- The register that `set_ioapic_entry` computes. Its argument `irq` has eight
bits. -/
def irqRegister (base irq : Nat) : Nat := wadd 32 (wmul 32 (wsub 32 (irq % 2 ^ 8) base) 2) 0x10

/-- The argument `flags` is not looked at. -/
def setIoapicEntry (k : Apic) (s : Ioapics) (vector irq _flags lapic : Nat) : Ioapics :=
  let info := lapic <<< 56 % 2 ^ 64 ||| vector &&& 0xFF
  let info := clearBit (clearBit (clearBit info 16) 15) 13
  let reg := irqRegister k.ioapicDevice.globalSystemInterruptBase irq
  let s := writeIoapic s k.ioapicAddr reg (info % 2 ^ 32)
  writeIoapic s k.ioapicAddr (wadd 32 reg 1) (info / 2 ^ 32)

def maskRegister (gsi : Nat) : Nat := wadd 32 0x10 (wmul 32 gsi 2)

def unmaskIoapic (k : Apic) (s : Ioapics) (gsi _lapicId : Nat) : Ioapics :=
  let addr := k.ioapicDevice.ioapicAddr
  let reg := maskRegister gsi
  writeIoapic s addr reg (clearBit (s.regs addr reg) 16)

-- ---------------------------------------------------------------------------
-- The callers
-- ---------------------------------------------------------------------------

structure IrqSlot where
  func : Nat
  arg : Nat
  used : Bool
deriving DecidableEq

/-- A gate of `idt` has the number of its trampoline. -/
structure Irqs where
  ioapics : Ioapics
  irqTable : Nat → IrqSlot
  idt : Nat → Option Nat

inductive IrqType
  | other
  | legacy
deriving DecidableEq

def freeSlot (table : Nat → IrqSlot) : Option Nat :=
  (List.range 8).find? fun i => !(table i).used

def overridden (k : Apic) (irq : Nat) : Nat := if irq < 16 then k.irqOverrides irq else irq

def irqCreate (k : Apic) (s : Irqs) (irq : Nat) (type : IrqType) (func arg flags : Nat) :
    Nat × Irqs :=
  match freeSlot s.irqTable with
  | none => (0, s)
  | some slot =>
    let vector := 48 + slot
    let s := { s with
      irqTable := Function.update s.irqTable slot ⟨func, arg, true⟩
      idt := Function.update s.idt vector (some slot) }
    match type with
    | .other => (vector, s)
    | .legacy =>
      let gsi := overridden k irq
      let ioapics := setIoapicEntry k s.ioapics vector gsi (flags % 2 ^ 8) 0
      (vector, { s with ioapics := unmaskIoapic k ioapics gsi 0 })

def initKeyboard (k : Apic) (s : Irqs) : Irqs :=
  let gsi := k.irqOverrides 1
  { s with ioapics := unmaskIoapic k (setIoapicEntry k s.ioapics 0x21 1 0 0) gsi 0 }

/-- The end of `init_apic_timer`, once the timer of the local APIC is set. -/
def initApicTimer (k : Apic) (s : Irqs) : Irqs :=
  let gsi := k.irqOverrides 0
  { s with ioapics := unmaskIoapic k (setIoapicEntry k s.ioapics 0x21 0 0 0) gsi 0 }

inductive Caller
  | irqCreate (irq func arg flags : Nat)
  | initKeyboard
  | initApicTimer

def Caller.run (k : Apic) (s : Irqs) : Caller → Irqs
  | .irqCreate irq func arg flags => (Cpu.irqCreate k s irq .legacy func arg flags).2
  | .initKeyboard => Cpu.initKeyboard k s
  | .initApicTimer => Cpu.initApicTimer k s

def Caller.gsi (k : Apic) : Caller → Nat
  | .irqCreate irq .. => overridden k irq
  | .initKeyboard => overridden k 1
  | .initApicTimer => overridden k 0

-- ---------------------------------------------------------------------------
-- What is asked
-- ---------------------------------------------------------------------------

/-- The entry of `gsi` is written and then unmasked, and nothing else. -/
structure SamePin (k : Apic) (gsi : Nat) (s s' : Ioapics) : Prop where
  writes : s'.writes = s.writes ++
    [(k.ioapicAddr, 0x10 + 2 * (gsi - k.ioapicDevice.globalSystemInterruptBase)),
      (k.ioapicAddr, 0x10 + 2 * (gsi - k.ioapicDevice.globalSystemInterruptBase) + 1),
      (k.ioapicAddr, 0x10 + 2 * (gsi - k.ioapicDevice.globalSystemInterruptBase))]
  others : ∀ addr reg,
    ¬(addr = k.ioapicAddr ∧
      (reg = 0x10 + 2 * (gsi - k.ioapicDevice.globalSystemInterruptBase) ∨
        reg = 0x10 + 2 * (gsi - k.ioapicDevice.globalSystemInterruptBase) + 1)) →
    s'.regs addr reg = s.regs addr reg

def Caller.Routes (c : Caller) (k : Apic) (s : Irqs) : Prop :=
  (c.run k s).ioapics = s.ioapics ∨ SamePin k (c.gsi k) s.ioapics (c.run k s).ioapics

/-- The base is zero to 31 bits, and the interrupt, if it is named twice, is the
same both times. -/
def Caller.Direct (c : Caller) (k : Apic) (s : Irqs) : Prop :=
  match c with
  | .irqCreate .. =>
    freeSlot s.irqTable = none ∨ k.ioapicDevice.globalSystemInterruptBase % 2 ^ 31 = 0
  | .initKeyboard =>
    k.ioapicDevice.globalSystemInterruptBase % 2 ^ 31 = 0 ∧ k.irqOverrides 1 % 2 ^ 31 = 1
  | .initApicTimer =>
    k.ioapicDevice.globalSystemInterruptBase % 2 ^ 31 = 0 ∧ k.irqOverrides 0 % 2 ^ 31 = 0

def Apic.Inputs (k : Apic) (gsi : Nat) : Prop :=
  k.ioapicDevice.globalSystemInterruptBase ≤ gsi ∧
    gsi < k.ioapicDevice.globalSystemInterruptBase + 256

-- ---------------------------------------------------------------------------
-- The kernel's record after the table
-- ---------------------------------------------------------------------------

def Apic.Coherent (k : Apic) : Prop := k.ioapicAddr = k.ioapicDevice.ioapicAddr

section
variable {table : Mem} {k s : Apic}

theorem madtRecord_coherent (table : Mem) (hhdm o : Nat) (h : s.Coherent) :
    (madtRecord table hhdm s o).Coherent := by
  simp only [madtRecord, Apic.read]
  split
  · rfl
  · split <;> exact h
  · exact h

theorem madtLoop_coherent (hhdm stop left o : Nat) (h : s.Coherent) :
    (madtLoop table hhdm stop left o s).2.Coherent := by
  fun_induction madtLoop table hhdm stop left o s with
  | case1 => exact h
  | case2 => exact madtRecord_coherent table hhdm _ h
  | case3 _ _ _ _ _ _ _ ih => exact ih (madtRecord_coherent table hhdm _ h)
  | case4 => exact h

theorem parseMadt_coherent (table : Mem) (hhdm : Nat) (h : s.Coherent) :
    (parseMadt table hhdm s).2.Coherent := madtLoop_coherent hhdm _ _ _ h

-- ---------------------------------------------------------------------------
-- The two registers
-- ---------------------------------------------------------------------------

theorem registers_iff (hlo : base ≤ gsi) (hhi : gsi < base + 256) :
    irqRegister base irq = 0x10 + 2 * (gsi - base) ∧ maskRegister gsi = 0x10 + 2 * (gsi - base) ↔
      base % 2 ^ 31 = 0 ∧ gsi % 2 ^ 31 = irq % 2 ^ 8 := by
  simp only [irqRegister, maskRegister, wadd, wmul, wsub]
  omega

theorem writeIoapic_other (i : Ioapics) (value : Nat) (h : ¬(addr' = addr ∧ reg' = reg)) :
    (writeIoapic i addr reg value).regs addr' reg' = i.regs addr' reg' := by
  simp only [writeIoapic]
  by_cases haddr : addr' = addr
  · subst haddr
    rw [Function.update_self, Function.update_of_ne fun hreg => h ⟨rfl, hreg⟩]
  · rw [Function.update_of_ne haddr]

/-- Both steps, for an interrupt that is `irq` in the first and `gsi` in the
second. -/
theorem route_iff (i : Ioapics) (hk : k.Coherent) (hin : k.Inputs gsi) (vector irq flags : Nat) :
    SamePin k gsi i (unmaskIoapic k (setIoapicEntry k i vector irq flags 0) gsi 0) ↔
      k.ioapicDevice.globalSystemInterruptBase % 2 ^ 31 = 0 ∧ gsi % 2 ^ 31 = irq % 2 ^ 8 := by
  rw [← registers_iff hin.1 hin.2]
  have hsmall := hin.2
  simp only [unmaskIoapic, setIoapicEntry, ← show k.ioapicAddr = _ from hk]
  generalize irqRegister k.ioapicDevice.globalSystemInterruptBase irq = first
  generalize maskRegister gsi = second
  constructor
  · rintro ⟨hwrites, -⟩
    simp only [writeIoapic, List.append_assoc, List.append_cancel_left_eq, List.cons_append,
      List.nil_append, List.cons.injEq, Prod.mk.injEq, true_and, and_true] at hwrites
    exact ⟨hwrites.1, hwrites.2.2⟩
  · rintro ⟨rfl, rfl⟩
    have hsucc : wadd 32 (0x10 + 2 * (gsi - k.ioapicDevice.globalSystemInterruptBase)) 1 =
        0x10 + 2 * (gsi - k.ioapicDevice.globalSystemInterruptBase) + 1 := wadd_eq (by omega)
    rw [hsucc]
    refine ⟨by simp [writeIoapic], fun addr reg hne => ?_⟩
    have hfirst := fun h : addr = k.ioapicAddr ∧ _ => hne ⟨h.1, .inl h.2⟩
    have hsecond := fun h : addr = k.ioapicAddr ∧ _ => hne ⟨h.1, .inr h.2⟩
    rw [writeIoapic_other _ _ hfirst, writeIoapic_other _ _ hsecond, writeIoapic_other _ _ hfirst]

theorem route_ne (i : Ioapics) (k : Apic) (vector irq flags gsi : Nat) :
    unmaskIoapic k (setIoapicEntry k i vector irq flags 0) gsi 0 ≠ i := by
  intro h
  have hlength := congrArg (fun i : Ioapics => i.writes.length) h
  simp [unmaskIoapic, setIoapicEntry, writeIoapic] at hlength

/-- A call routes its interrupt, to the entry it unmasks and no other, exactly if
the I/O APIC's first interrupt is 0 to 31 bits and the keyboard and the timer are
not overridden. -/
theorem routes_iff (c : Caller) (s : Irqs) (hk : k.Coherent) (hin : k.Inputs (c.gsi k)) :
    c.Routes k s ↔ c.Direct k s := by
  cases c with
  | irqCreate irq func arg flags =>
    simp only [Caller.Routes, Caller.Direct, Caller.run, irqCreate, Caller.gsi] at hin ⊢
    cases hslot : freeSlot s.irqTable with
    | none => simp
    | some slot =>
      obtain ⟨hlo, hhi⟩ := hin
      simp only [route_ne, false_or, route_iff _ hk ⟨hlo, hhi⟩, reduceCtorEq]
      omega
  | initKeyboard =>
    exact (or_iff_right (route_ne s.ioapics k 0x21 1 0 _)).trans (route_iff _ hk hin 0x21 1 0)
  | initApicTimer =>
    exact (or_iff_right (route_ne s.ioapics k 0x21 0 0 _)).trans (route_iff _ hk hin 0x21 0 0)

end

def idleIrqs : Irqs := ⟨⟨fun _ _ => 0x10000, []⟩, fun _ => ⟨0, 0, false⟩, fun _ => none⟩

/-- The keyboard, with the small table's I/O APIC. -/
theorem routes_iff_small :
    Caller.initKeyboard.Routes (parseMadt smallMadt 0 blankApic).2 idleIrqs :=
  (routes_iff .initKeyboard idleIrqs
    (parseMadt_coherent smallMadt 0 (show blankApic.Coherent from rfl))
    ⟨by decide +kernel, by decide +kernel⟩).mpr ⟨by decide +kernel, by decide +kernel⟩

/-- The timer, with the same table: entry 0 is written, and entry 2 unmasked. -/
theorem timer_misrouted :
    (Caller.initApicTimer.gsi (parseMadt smallMadt 0 blankApic).2 = 2 ∧
      (initApicTimer (parseMadt smallMadt 0 blankApic).2 idleIrqs).ioapics.writes =
        [(0xFEC00000, 0x10), (0xFEC00000, 0x11), (0xFEC00000, 0x14)]) ∧
      ¬Caller.initApicTimer.Routes (parseMadt smallMadt 0 blankApic).2 idleIrqs := by
  have hwrites : (initApicTimer (parseMadt smallMadt 0 blankApic).2 idleIrqs).ioapics.writes =
      [(0xFEC00000, 0x10), (0xFEC00000, 0x11), (0xFEC00000, 0x14)] := by decide +kernel
  refine ⟨⟨by decide +kernel, hwrites⟩, ?_⟩
  rintro (h | h)
  · exact route_ne _ _ _ _ _ _ h
  · exact absurd (hwrites.symm.trans h.writes) (by decide +kernel)

end TomatoOs.Cpu
