import TomatoOs.Kmem.Holdings
import TomatoOs.Cpu.SystemIo
import TomatoOs.Drivers.PciScan

/-!
# PCI handles

`uacpi_kernel_pci_device_open` copies the address of a device into a block of the heap;
the accessors look it up there again at every access. A handle stays good for as long as
it is open: over any run of opening, closing, reading and writing, and of calls of the
allocator in between, an access reaches the configuration space of the bus, device and
function the handle was opened for. It is that of segment 0, since another segment is only
warned about. The offset is cut to eight bits and rounded down to the width, and a result
takes up eight bytes whatever the width.
-/

namespace TomatoOs.Cpu

open Lib Kmem
open Drivers (PciPorts PciFunction PciSpace configBytes ConfigWidth LogMoment pciReadConfig8
  pciReadConfig16 pciReadConfig32 pciWriteConfig8 pciWriteConfig16 pciWriteConfig32)
open Stdio (bytesOf callOf kprintfBytes klog klogLine expand intNumeral)

structure UacpiPciAddress where
  segment : BitVec 16
  bus : BitVec 8
  device : BitVec 8
  function : BitVec 8
deriving DecidableEq

/-- The six bytes of the structure. The last one is not part of a field. -/
def UacpiPciAddress.number (a : UacpiPciAddress) (padding : Byte) : Nat :=
  a.segment.toNat + 256 ^ 2 * (a.bus.toNat + 256 * (a.device.toNat +
    256 * (a.function.toNat + 256 * padding.toNat)))

def addressAt (m : Mem) (handle : Nat) : UacpiPciAddress where
  segment := BitVec.ofNat 16 (m.load (handle + 0) 2)
  bus := BitVec.ofNat 8 (m.load (handle + 2) 1)
  device := BitVec.ofNat 8 (m.load (handle + 3) 1)
  function := BitVec.ofNat 8 (m.load (handle + 4) 1)

-- ---------------------------------------------------------------------------
-- kernel_api.c
-- ---------------------------------------------------------------------------

def uacpiKernelPciDeviceOpen (h : Heap) (address : UacpiPciAddress) (padding : Byte) :
    Option (Heap × Except UacpiStatus Nat) :=
  (h.kmalloc 6).map fun r =>
    let addr := r.2
    if addr = 0 then (r.1, .error .outOfMemory)
    else ({ r.1 with mem := r.1.mem.store addr 6 (address.number padding) }, .ok addr)

def uacpiKernelPciDeviceClose (h : Heap) (addr : Nat) : Option Heap := h.kfree addr

structure PciMachine where
  mem : Mem
  ports : PciPorts
  shown : List Byte

def readFormat : List Byte := bytesOf "unsupported PCI segment %d (read)\n"

def writeFormat : List Byte := bytesOf "unsupported PCI segment %d (write)\n"

/-- The warning about the segment, after which the access goes on. -/
def checkSegment (m : LogMoment) (format : List Byte) (segment : BitVec 16) (s : PciMachine) :
    Option PciMachine :=
  if segment ≠ 0 then do
    let time ← klog .warn (bytesOf "PCI") m.apicTicks m.arrays 64
    let line ← kprintfBytes (callOf format [.word (segment.setWidth 64)]) 64 m.buf
    return { s with shown := s.shown ++ (time ++ line) }
  else some s

def uacpiKernelPciRead (m : LogMoment) (s : PciMachine) (handle : Nat) (offset : BitVec 64)
    (width : BitVec 8) (out : Nat) : Option (PciMachine × UacpiStatus) := do
  let address := addressAt s.mem handle
  let s ← checkSegment m readFormat address.segment s
  -- `out` is a pointer to 64 bits
  let give (value : Nat) (ports : PciPorts) : PciMachine × UacpiStatus :=
    ({ s with mem := s.mem.store out 8 value, ports := ports }, .ok)
  match width.toNat with
  | 1 =>
    let r := pciReadConfig8 address.bus address.device address.function (offset.setWidth 8) s.ports
    return give r.1.toNat r.2
  | 2 =>
    let r := pciReadConfig16 address.bus address.device address.function (offset.setWidth 8) s.ports
    return give r.1.toNat r.2
  | 4 =>
    let r := pciReadConfig32 address.bus address.device address.function (offset.setWidth 8) s.ports
    return give r.1.toNat r.2
  | _ => return (s, .invalidArgument)

def uacpiKernelPciRead8 (m : LogMoment) (s : PciMachine) (device : Nat) (offset : BitVec 64) :
    Nat → Option (PciMachine × UacpiStatus) := uacpiKernelPciRead m s device offset 1

def uacpiKernelPciRead16 (m : LogMoment) (s : PciMachine) (device : Nat) (offset : BitVec 64) :
    Nat → Option (PciMachine × UacpiStatus) := uacpiKernelPciRead m s device offset 2

def uacpiKernelPciRead32 (m : LogMoment) (s : PciMachine) (device : Nat) (offset : BitVec 64) :
    Nat → Option (PciMachine × UacpiStatus) := uacpiKernelPciRead m s device offset 4

def uacpiKernelPciWrite (m : LogMoment) (s : PciMachine) (handle : Nat) (offset : BitVec 64)
    (width : BitVec 8) (value : BitVec 64) : Option (PciMachine × UacpiStatus) := do
  let address := addressAt s.mem handle
  let s ← checkSegment m writeFormat address.segment s
  let put (ports : PciPorts) : PciMachine × UacpiStatus := ({ s with ports := ports }, .ok)
  match width.toNat with
  | 1 =>
    return put (pciWriteConfig8 address.bus address.device address.function (offset.setWidth 8)
      (value.setWidth 8) s.ports)
  | 2 =>
    return put (pciWriteConfig16 address.bus address.device address.function (offset.setWidth 8)
      (value.setWidth 16) s.ports)
  | 4 =>
    return put (pciWriteConfig32 address.bus address.device address.function (offset.setWidth 8)
      (value.setWidth 32) s.ports)
  | _ => return (s, .invalidArgument)

def uacpiKernelPciWrite8 (m : LogMoment) (s : PciMachine) (device : Nat) (offset : BitVec 64)
    (value : BitVec 8) : Option (PciMachine × UacpiStatus) :=
  uacpiKernelPciWrite m s device offset 1 (value.setWidth 64)

def uacpiKernelPciWrite16 (m : LogMoment) (s : PciMachine) (device : Nat) (offset : BitVec 64)
    (value : BitVec 16) : Option (PciMachine × UacpiStatus) :=
  uacpiKernelPciWrite m s device offset 2 (value.setWidth 64)

def uacpiKernelPciWrite32 (m : LogMoment) (s : PciMachine) (device : Nat) (offset : BitVec 64)
    (value : BitVec 32) : Option (PciMachine × UacpiStatus) :=
  uacpiKernelPciWrite m s device offset 4 (value.setWidth 64)

-- ---------------------------------------------------------------------------
-- Sessions
-- ---------------------------------------------------------------------------

structure PciHandle where
  ptr : Nat
  address : UacpiPciAddress
  padding : Byte
deriving DecidableEq

def PciHandle.holding (d : PciHandle) : Holding :=
  { ptr := d.ptr, size := 6, value := d.address.number d.padding }

structure PciSession where
  session : Session
  handles : List PciHandle
  ports : PciPorts
  shown : List Byte

inductive PciOp
  | openDevice (address : UacpiPciAddress) (padding : Byte)
  | close (handle : Nat)
  | read (m : LogMoment) (handle : Nat) (offset : BitVec 64) (width : BitVec 8) (out : Nat)
  | write (m : LogMoment) (handle : Nat) (offset : BitVec 64) (width : BitVec 8) (value : BitVec 64)
  | client (op : Op)

namespace PciSession

def start (mem : Mem) (heap : Nat) (ports : PciPorts) : PciSession :=
  { session := .start mem heap, handles := [], ports := ports, shown := [] }

def holders (s : PciSession) : Holders := ⟨s.session, s.handles.map PciHandle.holding⟩

def machine (s : PciSession) : PciMachine := ⟨s.session.heap.mem, s.ports, s.shown⟩

def after (s : PciSession) (t : PciMachine) : PciSession :=
  { s with
    session := { s.session with heap := { s.session.heap with mem := t.mem } }
    ports := t.ports
    shown := t.shown }

def isOpen (s : PciSession) (handle : Nat) : Bool := s.handles.any fun d => d.ptr == handle

def room (s : PciSession) (out : Nat) : Bool :=
  s.session.live.any fun a => a.ptr ≤ out && out + 8 ≤ a.ptr + a.size && !s.isOpen a.ptr

/-- Accesses go through open handles, into the caller's memory. -/
def step (s : PciSession) : PciOp → Option PciSession
  | .openDevice address padding =>
    (uacpiKernelPciDeviceOpen { s.session.heap with log := [] } address padding).map fun r =>
      match r.2 with
      | .error _ => { s with session := { s.session with heap := r.1 } }
      | .ok p =>
        { s with
          session := { heap := r.1, live := { ptr := p, size := 6 } :: s.session.live }
          handles := ⟨p, address, padding⟩ :: s.handles }
  | .close handle =>
    if s.isOpen handle then
      (uacpiKernelPciDeviceClose { s.session.heap with log := [] } handle).map fun h =>
        { s with
          session := { heap := h, live := dropped handle s.session.live }
          handles := s.handles.filter fun d => d.ptr ≠ handle }
    else none
  | .read m handle offset width out =>
    if s.isOpen handle ∧ s.room out then
      (uacpiKernelPciRead m s.machine handle offset width out).map fun r => s.after r.1
    else none
  | .write m handle offset width value =>
    if s.isOpen handle then
      (uacpiKernelPciWrite m s.machine handle offset width value).map fun r => s.after r.1
    else none
  | .client op => (s.holders.client op).map fun t => { s with session := t.session }

end PciSession

-- ---------------------------------------------------------------------------
-- Handles that hold their address
-- ---------------------------------------------------------------------------

section
variable {heap : Nat} {s s' : PciSession} {d : PciHandle}

theorem isOpen_iff : s.isOpen p = true ↔ ∃ d ∈ s.handles, d.ptr = p := by
  simp [PciSession.isOpen]

theorem mem_holders (hd : d ∈ s.handles) : d.holding ∈ s.holders.held := List.mem_map_of_mem hd

theorem number_fields (a : UacpiPciAddress) (padding : Byte) :
    UacpiPciAddress.mk (BitVec.ofNat 16 (a.number padding / 256 ^ 0 % 256 ^ 2))
      (BitVec.ofNat 8 (a.number padding / 256 ^ 2 % 256 ^ 1))
      (BitVec.ofNat 8 (a.number padding / 256 ^ 3 % 256 ^ 1))
      (BitVec.ofNat 8 (a.number padding / 256 ^ 4 % 256 ^ 1)) = a := by
  obtain ⟨segment, bus, device, function⟩ := a
  have hsegment := segment.isLt
  have hbus := bus.isLt
  have hdevice := device.isLt
  have hfunction := function.isLt
  simp only [UacpiPciAddress.number, UacpiPciAddress.mk.injEq]
  refine ⟨?_, ?_, ?_, ?_⟩ <;> apply BitVec.eq_of_toNat_eq <;> rw [BitVec.toNat_ofNat] <;> omega

theorem addressAt_handle (hS : s.holders.Sound heap) (hd : d ∈ s.handles) :
    addressAt s.session.heap.mem d.ptr = d.address := by
  have hload (o n : Nat) (h : o + n ≤ 6) : s.session.heap.mem.load (d.ptr + o) n =
      d.address.number d.padding / 256 ^ o % 256 ^ n := hS.load (mem_holders hd) h
  rw [addressAt, hload 0 2 (by decide), hload 2 1 (by decide), hload 3 1 (by decide),
    hload 4 1 (by decide), number_fields]

theorem checkSegment_keeps {m t : PciMachine} {segment : BitVec 16}
    (h : checkSegment l format segment m = some t) :
    t.mem = m.mem ∧ t.ports = m.ports := by
  unfold checkSegment at h
  split at h
  · obtain ⟨time, -, h⟩ := Option.bind_eq_some_iff.mp h
    obtain ⟨line, -, h⟩ := Option.bind_eq_some_iff.mp h
    cases h
    exact ⟨rfl, rfl⟩
  · cases h
    exact ⟨rfl, rfl⟩

theorem pciRead_mem {m t : PciMachine}
    (h : uacpiKernelPciRead l m handle offset width out = some (t, status)) (hx : ¬Within out 8 x) :
    t.mem x = m.mem x := by
  obtain ⟨u, hu, h⟩ := Option.bind_eq_some_iff.mp h
  rw [← (checkSegment_keeps hu).1]
  dsimp only at h
  split at h <;> cases h
  · exact Mem.store_outside hx
  · exact Mem.store_outside hx
  · exact Mem.store_outside hx
  · rfl

theorem pciWrite_mem {m t : PciMachine}
    (h : uacpiKernelPciWrite l m handle offset width value = some (t, status)) : t.mem = m.mem := by
  obtain ⟨u, hu, h⟩ := Option.bind_eq_some_iff.mp h
  rw [← (checkSegment_keeps hu).1]
  dsimp only at h
  split at h <;> cases h <;> rfl

theorem PciSession.step_sound {op : PciOp} (hS : s.holders.Sound heap) (hs : s.step op = some s') :
    s'.holders.Sound heap := by
  cases op with
  | openDevice address padding =>
    obtain ⟨⟨h₁, r⟩, hopen, rfl⟩ := Option.map_eq_some_iff.mp hs
    obtain ⟨⟨h, q⟩, hcall, hr⟩ := Option.map_eq_some_iff.mp hopen
    have htook := hS.took (address.number padding) (by decide : 6 ≤ heapSize) hcall
    by_cases hq : q = 0
    · simp only [hq, if_true] at hr
      cases hr
      rwa [Holders.took, if_pos hq] at htook
    · simp only [hq, if_false] at hr
      cases hr
      rwa [Holders.took, if_neg hq] at htook
  | close handle =>
    rw [PciSession.step] at hs
    split at hs
    · rename_i hopen
      obtain ⟨d, hd, rfl⟩ := isOpen_iff.mp hopen
      obtain ⟨h, hcall, rfl⟩ := Option.map_eq_some_iff.mp hs
      have hgave := hS.gave (mem_holders hd) hcall
      rw [Holders.gave, PciSession.holders, List.filter_map] at hgave
      exact hgave
    · cases hs
  | read l handle offset width out =>
    rw [PciSession.step] at hs
    split at hs
    · rename_i hopen
      obtain ⟨⟨t, status⟩, hread, rfl⟩ := Option.map_eq_some_iff.mp hs
      obtain ⟨a, ha, hroom⟩ := List.any_eq_true.mp hopen.2
      simp only [Bool.and_eq_true, decide_eq_true_eq, Bool.not_eq_true'] at hroom
      refine hS.scribble ha ?_ fun x hx => pciRead_mem hread ?_
      · intro e he hae
        obtain ⟨d, hd, rfl⟩ := List.mem_map.mp he
        exact absurd (isOpen_iff.mpr ⟨d, hd, hae.symm⟩) (by rw [hroom.2]; decide)
      · intro hin
        exact hx ⟨hroom.1.1.trans hin.1, hin.2.trans_le hroom.1.2⟩
    · cases hs
  | write l handle offset width value =>
    rw [PciSession.step] at hs
    split at hs
    · obtain ⟨⟨t, status⟩, hwrite, rfl⟩ := Option.map_eq_some_iff.mp hs
      have hmem : t.mem = s.session.heap.mem := pciWrite_mem hwrite
      rw [PciSession.after, hmem]
      exact hS
    · cases hs
  | client op =>
    obtain ⟨t, ht, rfl⟩ := Option.map_eq_some_iff.mp hs
    have hclient := hS.client ht
    obtain ⟨-, u, -, rfl⟩ := Holders.client_cases ht
    exact hclient

-- ---------------------------------------------------------------------------
-- Accesses
-- ---------------------------------------------------------------------------

def warning (l : LogMoment) (access : List Byte) (segment : BitVec 16) : List Byte :=
  if segment = 0 then []
  else
    [klogLine .warn (bytesOf "PCI") l.apicTicks, bytesOf "unsupported PCI segment ",
      numeral 10 segment.toNat, access].flatten

theorem checkSegment_eq (l : LogMoment) {format access : List Byte} (segment : BitVec 16)
    (m : PciMachine) (hnul : 0 ∉ format) (hplain : Stdio.Formatted format)
    (hlen : format.length < 64)
    (hexpand : ∀ w, expand (callOf format [.word w]) 0 format =
      [bytesOf "unsupported PCI segment ", intNumeral (w.setWidth 32).toInt, access].flatten)
    (hshow : ∀ w, Stdio.Conversion.d.Able w = true →
      Stdio.Showable (callOf format [.word w]) 0 format = true)
    (haccess : access.length ≤ 24) :
    checkSegment l format segment m =
      some { m with shown := m.shown ++ warning l access segment } := by
  by_cases h0 : segment = 0
  · rw [checkSegment, if_neg (not_not.mpr h0), warning, if_pos h0, List.append_nil]
  · have hline := hexpand (segment.setWidth 64)
    rw [Drivers.intNumeral_argument segment (by decide)] at hline
    have hable := hshow _ (Drivers.argument_able segment (by decide) .d)
    have hwrites := Stdio.callOf_writes _ l.buf hnul hplain hlen hable (by
      rw [hline]
      refine (Drivers.flatten_length_le (n := 24) ?_).trans (by simp)
      have hnumber := Drivers.numeral_short (b := 10) segment (by decide) (by decide)
      simp only [List.forall_mem_cons, List.not_mem_nil, false_implies, implies_true, and_true]
      exact ⟨by decide, hnumber.trans (by decide), haccess⟩)
    rw [checkSegment, if_pos h0, warning, if_neg h0,
      Stdio.klog_writes .warn (bytesOf "PCI") l.apicTicks l.arrays (by decide), hwrites, hline]
    rfl

theorem checkSegment_read (l : LogMoment) (segment : BitVec 16) (m : PciMachine) :
    checkSegment l readFormat segment m =
      some { m with shown := m.shown ++ warning l (bytesOf " (read)\n") segment } :=
  checkSegment_eq l segment m (by decide) (Stdio.formatted_of_within 40 (by decide)) (by decide)
    (fun _ => rfl) (fun w hw => show (Stdio.Conversion.d.Able w && true) = true by simp [hw])
    (by decide)

theorem checkSegment_write (l : LogMoment) (segment : BitVec 16) (m : PciMachine) :
    checkSegment l writeFormat segment m =
      some { m with shown := m.shown ++ warning l (bytesOf " (write)\n") segment } :=
  checkSegment_eq l segment m (by decide) (Stdio.formatted_of_within 40 (by decide)) (by decide)
    (fun _ => rfl) (fun w hw => show (Stdio.Conversion.d.Able w && true) = true by simp [hw])
    (by decide)

def roundOffset (w : ConfigWidth) (offset : BitVec 8) : BitVec 8 :=
  BitVec.ofNat 8 (offset.toNat / w.bytes * w.bytes)

theorem roundOffset_toNat (w : ConfigWidth) (offset : BitVec 8) :
    (roundOffset w offset).toNat = offset.toNat / w.bytes * w.bytes := by
  have hle := Nat.div_mul_le_self offset.toNat w.bytes
  rw [roundOffset, BitVec.toNat_ofNat, Nat.mod_eq_of_lt (hle.trans_lt offset.isLt)]

theorem roundOffset_byte (offset : BitVec 8) : roundOffset .byte offset = offset := by
  apply BitVec.eq_of_toNat_eq
  rw [roundOffset_toNat]
  change offset.toNat / 1 * 1 = _
  rw [Nat.div_one, Nat.mul_one]

theorem roundOffset_bits : ∀ offset : BitVec 8,
    (offset.setWidth 32 &&& 0xfc#32) = (roundOffset .word offset).setWidth 32 &&& 0xfc#32 ∧
      offset &&& 2#8 = roundOffset .word offset &&& 2#8 ∧
      (offset.setWidth 32 &&& 0xfc#32) = (roundOffset .dword offset).setWidth 32 &&& 0xfc#32 := by
  decide

theorem read_rounded (w : ConfigWidth) (bus num function offset : BitVec 8) (ports : PciPorts) :
    w.read bus num function offset ports = w.read bus num function (roundOffset w offset) ports := by
  obtain ⟨hword, hshift, hdword⟩ := roundOffset_bits offset
  cases w with
  | byte => rw [roundOffset_byte]
  | word =>
    simp only [ConfigWidth.read, pciReadConfig16, Drivers.configAddress, hword, hshift]
    rfl
  | dword =>
    simp only [ConfigWidth.read, pciReadConfig32, Drivers.configAddress, hdword]
    rfl

theorem write_rounded (w : ConfigWidth) (bus num function offset : BitVec 8)
    (value : BitVec (8 * w.bytes)) (ports : PciPorts) :
    w.write bus num function offset value ports =
      w.write bus num function (roundOffset w offset) value ports := by
  obtain ⟨hword, hshift, hdword⟩ := roundOffset_bits offset
  cases w with
  | byte => rw [roundOffset_byte]
  | word =>
    simp only [ConfigWidth.write, pciWriteConfig16, Drivers.configAddress, hword, hshift]
  | dword => simp only [ConfigWidth.write, pciWriteConfig32, Drivers.configAddress, hdword]

theorem pciRead_eq (l : LogMoment) (m : PciMachine) (h : addressAt m.mem handle = a)
    (offset : BitVec 64) (w : ConfigWidth) (out : Nat) :
    uacpiKernelPciRead l m handle offset (BitVec.ofNat 8 w.bytes) out =
      let r := w.read a.bus a.device a.function (offset.setWidth 8) m.ports
      some (⟨m.mem.store out 8 r.1.toNat, r.2,
        m.shown ++ warning l (bytesOf " (read)\n") a.segment⟩, .ok) := by
  rw [uacpiKernelPciRead, h, checkSegment_read]
  cases w <;> rfl

theorem pciWrite_eq (l : LogMoment) (m : PciMachine) (h : addressAt m.mem handle = a)
    (offset : BitVec 64) (w : ConfigWidth) (value : BitVec 64) :
    uacpiKernelPciWrite l m handle offset (BitVec.ofNat 8 w.bytes) value =
      some (⟨m.mem, w.write a.bus a.device a.function (offset.setWidth 8)
          (value.setWidth (8 * w.bytes)) m.ports,
        m.shown ++ warning l (bytesOf " (write)\n") a.segment⟩, .ok) := by
  rw [uacpiKernelPciWrite, h, checkSegment_write]
  cases w <;> rfl

/-- The function of segment 0 with the address's numbers, whatever its own segment. -/
def UacpiPciAddress.Reaches (a : UacpiPciAddress) (f : PciFunction) : Prop :=
  a.bus = f.bus ∧ a.device = f.device.setWidth 8 ∧ a.function = f.function.setWidth 8

/-- In every state of every session, an access through an open handle is one of the
configuration space that its address reaches, at the offset to eight bits, rounded down to
the width. A reading gives the bytes there, as a number of eight bytes; a writing changes
them and nothing else. Either warns before if the segment is not 0. -/
theorem pci_handles_address (hp : Placed heap)
    (hr : run PciSession.step (.start mem heap ports) ops = some s) (hd : d ∈ s.handles)
    (hf : d.address.Reaches f) (w : ConfigWidth) (offset : BitVec 64) (l : LogMoment) :
    let o := offset.toNat % 256 / w.bytes * w.bytes
    (∀ out, ∃ ports', ports'.space = s.ports.space ∧
      uacpiKernelPciRead l s.machine d.ptr offset (BitVec.ofNat 8 w.bytes) out =
        some (⟨s.session.heap.mem.store out 8 ((configBytes s.ports.space f).load o w.bytes), ports',
          s.shown ++ warning l (bytesOf " (read)\n") d.address.segment⟩, .ok)) ∧
    ∀ value, ∃ ports',
      uacpiKernelPciWrite l s.machine d.ptr offset (BitVec.ofNat 8 w.bytes) value =
        some (⟨s.session.heap.mem, ports',
          s.shown ++ warning l (bytesOf " (write)\n") d.address.segment⟩, .ok) ∧
      ∀ g x, x < 256 → configBytes ports'.space g x =
        if g = f then
          (configBytes s.ports.space f).store o w.bytes (value.toNat % 256 ^ w.bytes) x
        else configBytes s.ports.space g x := by
  have hS : s.holders.Sound heap := run_invariant (fun s => s.holders.Sound heap)
    (fun _ _ _ hS hs => PciSession.step_sound hS hs) (Holders.start_sound hp mem) hr
  have hat : addressAt s.machine.mem d.ptr = d.address := addressAt_handle hS hd
  obtain ⟨hbus, hdevice, hfunction⟩ := hf
  have hround : (roundOffset w (offset.setWidth 8)).toNat = offset.toNat % 256 / w.bytes * w.bytes := by
    rw [roundOffset_toNat, BitVec.toNat_setWidth]
  have haligned : (roundOffset w (offset.setWidth 8)).toNat % w.bytes = 0 := by
    rw [roundOffset_toNat, Nat.mul_mod_left]
  refine ⟨fun out => ?_, fun value => ?_⟩
  · have hload := Drivers.read_eq_load f.bus f.device f.function (roundOffset w (offset.setWidth 8)) w
      haligned s.ports
    rw [hround] at hload
    rw [pciRead_eq l s.machine hat, hbus, hdevice, hfunction, read_rounded, ← hload]
    exact ⟨_, by cases w <;> rfl, rfl⟩
  · rw [pciWrite_eq l s.machine hat, hbus, hdevice, hfunction, write_rounded]
    refine ⟨_, rfl, fun g x hx => ?_⟩
    have hstore := Drivers.write_eq_store f.bus f.device f.function
      (roundOffset w (offset.setWidth 8)) w haligned (value.setWidth (8 * w.bytes)) s.ports g hx
    have hvalue : (value.setWidth (8 * w.bytes)).toNat = value.toNat % 256 ^ w.bytes := by
      rw [BitVec.toNat_setWidth, Nat.pow_mul]
    rwa [hround, hvalue] at hstore

end

/-- Two handles and another block: the first of them still reads the vendor of its
device, also at an offset past the end. -/
theorem pci_handles_vendor :
    ∃ s, run PciSession.step (.start (fun _ => 0) 4096 Drivers.nvmePorts)
        [.openDevice ⟨0, 0, 4, 0⟩ 0xAA, .client (.kmalloc 16), .openDevice ⟨0, 0, 31, 2⟩ 0] = some s ∧
      ∃ t, uacpiKernelPciRead Drivers.bootMoment s.machine 4136 0x101 2 0 = some (t, .ok) ∧
        t.mem.load 0 8 = 0x1b36 := by
  have hp : Placed 4096 := ⟨by decide, by decide⟩
  have hrun : (run PciSession.step (.start (fun _ => 0) 4096 Drivers.nvmePorts)
      [.openDevice ⟨0, 0, 4, 0⟩ 0xAA, .client (.kmalloc 16), .openDevice ⟨0, 0, 31, 2⟩ 0]).map
      (fun s => (s.handles.getLast?, s.ports.space ⟨0, 4, 0⟩ 0)) =
        some (some ⟨4136, ⟨0, 0, 4, 0⟩, 0xAA⟩, 0x00101b36) := by decide +kernel
  obtain ⟨s, hr, hs⟩ := Option.map_eq_some_iff.mp hrun
  obtain ⟨hlast, hword⟩ := Prod.mk.inj hs
  obtain ⟨ports', -, hread⟩ := (pci_handles_address hp hr (List.mem_of_getLast? hlast)
    (⟨rfl, rfl, rfl⟩ : UacpiPciAddress.Reaches _ ⟨0, 4, 0⟩) .word 0x101 Drivers.bootMoment).1 0
  refine ⟨s, hr, _, hread, ?_⟩
  have hload : (configBytes s.ports.space ⟨0, 4, 0⟩).load 0 2 = 0x1b36 := by
    rw [Drivers.configBytes_load _ _ (by decide)]
    exact congrArg (fun w : BitVec 32 => w.toNat / 256 ^ 0 % 256 ^ 2) hword
  change (Mem.store _ 0 8 ((configBytes s.ports.space ⟨0, 4, 0⟩).load 0 2)).load 0 8 = _
  rw [hload, Mem.load_store_eq _ (by decide)]

end TomatoOs.Cpu
