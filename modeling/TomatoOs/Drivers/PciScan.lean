import TomatoOs.Lib.Runs
import TomatoOs.Lib.Slots
import TomatoOs.Drivers.PciConfig
import TomatoOs.Stdio.Output

/-!
# PCI enumeration

`reg` enters a driver into a table, `initworkspace` goes through the functions of every
device, reports those that are there and hands each of them to the drivers of its class.
A driver may write to the configuration space while the scan is under way. As long as it
keeps to the function that it was called for, the scan launches the functions that were
there at its start: each of them once, in ascending order, with its own header.
-/

namespace TomatoOs.Drivers

open Lib
open Stdio (bytesOf callOf kprintfBytes expand klog klogLine KlogArrays Formatted Arg intNumeral)

-- ---------------------------------------------------------------------------
-- pci_t
-- ---------------------------------------------------------------------------

/-- The 32 half words of a `pci_t`. -/
abbrev PciHeader := List (BitVec 16)

def PciHeader.vendorID (h : PciHeader) : BitVec 16 := h.getD 0 0

def PciHeader.deviceID (h : PciHeader) : BitVec 16 := h.getD 1 0

def PciHeader.progIF (h : PciHeader) : BitVec 8 := (h.getD 4 0 >>> 8).setWidth 8

def PciHeader.subclass (h : PciHeader) : BitVec 8 := (h.getD 5 0).setWidth 8

def PciHeader.class_ (h : PciHeader) : BitVec 8 := (h.getD 5 0 >>> 8).setWidth 8

def pciLoadLoop (bus num function : BitVec 8) : List Nat → PciPorts → PciHeader × PciPorts
  | [], s => ([], s)
  | i :: is, s =>
    let read := pciReadConfig16 bus num function (BitVec.ofNat 8 (i * 2)) s
    let rest := pciLoadLoop bus num function is read.2
    (read.1 :: rest.1, rest.2)

def pciLoad (bus num function : BitVec 8) (s : PciPorts) : PciHeader × PciPorts :=
  pciLoadLoop bus num function (List.range 32) s

-- ---------------------------------------------------------------------------
-- The tables of the kernel
-- ---------------------------------------------------------------------------

/-- A slot of `kernel.pci_drivers` in use. The functions of drivers are from `δ`. -/
structure PciDriver (δ : Type) where
  class_ : BitVec 8
  subclass : BitVec 8
  pcidrv : δ
deriving DecidableEq

structure PciDeviceEntry where
  header : PciHeader
  bus : BitVec 8
  device : BitVec 8
  function : BitVec 8
deriving DecidableEq

def maxPciDevices : Nat := 32

def maxPciDrivers : Nat := 256

inductive PciEvent (δ : Type)
  | shown (text : List Byte)
  | called (pcidrv : δ) (pci : PciHeader) (bus device function : BitVec 8)
deriving DecidableEq

/-- The ports, the drivers by slot, the devices up to `kernel.pci_device_count` and the
events so far. -/
structure PciKernel (δ : Type) where
  ports : PciPorts
  drivers : Nat → Option (PciDriver δ)
  devices : List PciDeviceEntry
  events : List (PciEvent δ)
  devices_le : devices.length ≤ maxPciDevices

def PciKernel.start (δ : Type) (ports : PciPorts) : PciKernel δ where
  ports := ports
  drivers _ := none
  devices := []
  events := []
  devices_le := Nat.zero_le _

variable {δ : Type}

def reg (s : PciKernel δ) (pcidrv : δ) (class_ subclass : BitVec 8) : PciKernel δ :=
  match firstSlot (fun i => (s.drivers i).isNone) maxPciDrivers with
  | some i => { s with drivers := Function.update s.drivers i (some ⟨class_, subclass, pcidrv⟩) }
  | none => s

def PciKernel.addDevice (s : PciKernel δ) (entry : PciDeviceEntry) : PciKernel δ :=
  if h : s.devices.length < maxPciDevices then
    { s with devices := s.devices ++ [entry], devices_le := by simpa using h }
  else s

abbrev PciActs (δ : Type) := δ → PciHeader → BitVec 8 → BitVec 8 → BitVec 8 → PciPorts → PciPorts

def PciDriver.serves (d : PciDriver δ) (pci : PciHeader) : Bool :=
  d.class_ = pci.class_ && d.subclass = pci.subclass

section
variable (acts : PciActs δ) (pci : PciHeader) (bus device function : BitVec 8)

def pciOffer (s : PciKernel δ) (i : Nat) : PciKernel δ :=
  match s.drivers i with
  | some d =>
    if d.serves pci then
      { s with
        ports := acts d.pcidrv pci bus device function s.ports
        events := s.events ++ [.called d.pcidrv pci bus device function] }
    else s
  | none => s

def pciLaunch (s : PciKernel δ) : PciKernel δ :=
  (List.range maxPciDrivers).foldl (pciOffer acts pci bus device function)
    (s.addDevice ⟨pci, bus, device, function⟩)

end

/-- What `nvme_init` does to the ports: it turns on bus mastering and memory space. -/
def nvmeActs : PciActs Unit := fun _ pci bus device function s =>
  if pci.progIF ≠ 0x02#8 then s
  else
    let cmd := pciReadConfig16 bus device function 0x04 s
    pciWriteConfig16 bus device function 0x04 (cmd.1 ||| 0x0006) cmd.2

-- ---------------------------------------------------------------------------
-- initworkspace
-- ---------------------------------------------------------------------------

/-- What `klog` and `kprintf` find when a function is reported: the time and what is in
their arrays. -/
structure LogMoment where
  apicTicks : BitVec 64
  arrays : KlogArrays
  buf : Buffer 32

def pciFormat : List Byte := bytesOf "%d:%d.%d vendor=%x device=%x class=%x sub=%x\n"

def pciArgs (pci : PciHeader) (bus device function : BitVec 8) : List Arg :=
  [.word (bus.setWidth 64), .word (device.setWidth 64), .word (function.setWidth 64),
    .word (pci.vendorID.setWidth 64), .word (pci.deviceID.setWidth 64),
    .word (pci.class_.setWidth 64), .word (pci.subclass.setWidth 64)]

def pciReport (m : LogMoment) (pci : PciHeader) (bus device function : BitVec 8) :
    Option (List Byte) := do
  let time ← klog .info (bytesOf "PCI") m.apicTicks m.arrays 64
  let line ← kprintfBytes (callOf pciFormat (pciArgs pci bus device function)) 64 m.buf
  return time ++ line

def countFrom (w first : Nat) : List (BitVec w) :=
  (List.range' first (2 ^ w - first)).map (BitVec.ofNat w)

section
variable (acts : PciActs δ) (moment : PciFunction → LogMoment)

def pciFound (s : PciKernel δ) (pci : PciHeader) (f : PciFunction) : Option (PciKernel δ) := do
  let text ← pciReport (moment f) pci f.bus (f.device.setWidth 8) (f.function.setWidth 8)
  return pciLaunch acts pci f.bus (f.device.setWidth 8) (f.function.setWidth 8)
    { s with events := s.events ++ [.shown text] }

def pciScanFunction (s : PciKernel δ) (f : PciFunction) : Option (PciKernel δ) :=
  let load := pciLoad f.bus (f.device.setWidth 8) (f.function.setWidth 8) s.ports
  let s := { s with ports := load.2 }
  if load.1.vendorID ≠ 0xFFFF#16 then pciFound acts moment s load.1 f else some s

def pciScanDevice (bus : BitVec 8) (s : PciKernel δ) (device : BitVec 5) : Option (PciKernel δ) := do
  let load := pciLoad bus (device.setWidth 8) 0 s.ports
  let s := { s with ports := load.2 }
  if load.1.vendorID ≠ 0xFFFF#16 then
    let s ← pciFound acts moment s load.1 ⟨bus, device, 0⟩
    run (pciScanFunction acts moment) s ((countFrom 3 1).map (⟨bus, device, ·⟩))
  else some s

def initworkspace (s : PciKernel δ) : Option (PciKernel δ) :=
  run (fun s bus => run (pciScanDevice acts moment bus) s (countFrom 5 0)) s (countFrom 8 0)

end

-- ---------------------------------------------------------------------------
-- What there is to find
-- ---------------------------------------------------------------------------

def pciHeader (space : PciSpace) (f : PciFunction) : PciHeader :=
  (List.range 32).map fun i => BitVec.ofNat 16 ((configBytes space f).load (2 * i) 2)

/-- Something answers at the function and at the first function of its device. -/
def PciSpace.Present (space : PciSpace) (f : PciFunction) : Prop :=
  (pciHeader space f).vendorID ≠ 0xFFFF#16 ∧
    (pciHeader space { f with function := 0 }).vendorID ≠ 0xFFFF#16

instance PciSpace.Present.instDecidable (space : PciSpace) (f : PciFunction) :
    Decidable (space.Present f) :=
  inferInstanceAs (Decidable (_ ∧ _))

def deviceFunctions (bus : BitVec 8) (device : BitVec 5) : List PciFunction :=
  (countFrom 3 0).map (⟨bus, device, ·⟩)

def pciFunctions : List PciFunction :=
  (countFrom 8 0).flatMap fun bus => (countFrom 5 0).flatMap (deviceFunctions bus)

def presentFunctions (space : PciSpace) : List PciFunction := pciFunctions.filter (space.Present ·)

def pciEntry (space : PciSpace) (f : PciFunction) : PciDeviceEntry :=
  ⟨pciHeader space f, f.bus, f.device.setWidth 8, f.function.setWidth 8⟩

def pciLine (m : LogMoment) (space : PciSpace) (f : PciFunction) : List Byte :=
  let hex (n : Nat) := bytesOf "0x" ++ numeral 16 n
  [klogLine .info (bytesOf "PCI") m.apicTicks, numeral 10 f.bus.toNat, bytesOf ":",
    numeral 10 f.device.toNat, bytesOf ".", numeral 10 f.function.toNat,
    bytesOf " vendor=", hex (pciHeader space f).vendorID.toNat,
    bytesOf " device=", hex (pciHeader space f).deviceID.toNat,
    bytesOf " class=", hex (pciHeader space f).class_.toNat,
    bytesOf " sub=", hex (pciHeader space f).subclass.toNat, bytesOf "\n"].flatten

def pciEvents (moment : PciFunction → LogMoment) (drivers : List (PciDriver δ)) (space : PciSpace)
    (f : PciFunction) : List (PciEvent δ) :=
  .shown (pciLine (moment f) space f) ::
    (drivers.filter (PciDriver.serves · (pciHeader space f))).map fun d =>
      .called d.pcidrv (pciHeader space f) f.bus (f.device.setWidth 8) (f.function.setWidth 8)

/-- A driver reaches only the function that it is called for. -/
def PciActs.OwnFunction (acts : PciActs δ) : Prop :=
  ∀ d pci (f : PciFunction) ports g, g ≠ f →
    (acts d pci f.bus (f.device.setWidth 8) (f.function.setWidth 8) ports).space g = ports.space g

theorem mem_countFrom (w : Nat) (x : BitVec w) : x ∈ countFrom w 0 := by
  refine List.mem_map.mpr ⟨x.toNat, ?_, BitVec.ofNat_toNat w x ▸ BitVec.setWidth_eq x⟩
  rw [List.mem_range'_1]
  exact ⟨Nat.zero_le _, by simpa using x.isLt⟩

theorem nodup_countFrom (w first : Nat) : (countFrom w first).Nodup := by
  refine List.Nodup.map_on ?_ List.nodup_range'
  intro x hx y hy hxy
  have heq := congrArg BitVec.toNat hxy
  rw [List.mem_range'_1] at hx hy
  rwa [BitVec.toNat_ofNat, BitVec.toNat_ofNat, Nat.mod_eq_of_lt (by omega),
    Nat.mod_eq_of_lt (by omega)] at heq

theorem mem_deviceFunctions : f ∈ deviceFunctions bus device ↔ f.bus = bus ∧ f.device = device := by
  rw [deviceFunctions, List.mem_map]
  constructor
  · rintro ⟨n, -, rfl⟩
    exact ⟨rfl, rfl⟩
  · rintro ⟨rfl, rfl⟩
    exact ⟨f.function, mem_countFrom 3 _, rfl⟩

theorem mem_pciFunctions (f : PciFunction) : f ∈ pciFunctions := by
  refine List.mem_flatMap.mpr ⟨f.bus, mem_countFrom 8 _, ?_⟩
  exact List.mem_flatMap.mpr ⟨f.device, mem_countFrom 5 _, mem_deviceFunctions.mpr ⟨rfl, rfl⟩⟩

theorem nodup_deviceFunctions (bus : BitVec 8) (device : BitVec 5) :
    (deviceFunctions bus device).Nodup :=
  (nodup_countFrom 3 0).map fun x y hxy => by simpa using hxy

theorem nodup_pciFunctions : pciFunctions.Nodup := by
  have hdevices (bus : BitVec 8) : ((countFrom 5 0).flatMap (deviceFunctions bus)).Nodup := by
    refine List.nodup_flatMap.mpr ⟨fun device _ => nodup_deviceFunctions bus device, ?_⟩
    refine (nodup_countFrom 5 0).imp fun {d e} hne f hd he => hne ?_
    rw [← (mem_deviceFunctions.mp hd).2, (mem_deviceFunctions.mp he).2]
  refine List.nodup_flatMap.mpr ⟨fun bus _ => hdevices bus, ?_⟩
  refine (nodup_countFrom 8 0).imp fun {b c} hne f hb hc => hne ?_
  obtain ⟨d, -, hd⟩ := List.mem_flatMap.mp hb
  obtain ⟨e, -, he⟩ := List.mem_flatMap.mp hc
  rw [← (mem_deviceFunctions.mp hd).1, (mem_deviceFunctions.mp he).1]

theorem mem_presentFunctions {space : PciSpace} : f ∈ presentFunctions space ↔ space.Present f := by
  simp [presentFunctions, mem_pciFunctions]

-- ---------------------------------------------------------------------------
-- Headers and reports
-- ---------------------------------------------------------------------------

theorem pciLoadLoop_eq (f : PciFunction) (h : ∀ i ∈ is, i < 32) (s : PciPorts) :
    let load := pciLoadLoop f.bus (f.device.setWidth 8) (f.function.setWidth 8) is s
    load.1 = is.map (fun i => BitVec.ofNat 16 ((configBytes s.space f).load (2 * i) 2)) ∧
      load.2.space = s.space := by
  induction is generalizing s with
  | nil => exact ⟨rfl, rfl⟩
  | cons i is ih =>
    rw [List.forall_mem_cons] at h
    have hoffset : (BitVec.ofNat 8 (i * 2)).toNat = 2 * i := by
      rw [BitVec.toNat_ofNat, Nat.mod_eq_of_lt (by omega), Nat.mul_comm]
    have hread : (pciReadConfig16 f.bus (f.device.setWidth 8) (f.function.setWidth 8)
        (BitVec.ofNat 8 (i * 2)) s).1.toNat = (configBytes s.space f).load (2 * i) 2 := by
      rw [← hoffset]
      exact read_eq_load f.bus f.device f.function (BitVec.ofNat 8 (i * 2)) .word
        (by rw [hoffset]; exact Nat.mul_mod_right 2 i) s
    obtain ⟨hrest, hspace⟩ := ih h.2
      (pciReadConfig16 f.bus (f.device.setWidth 8) (f.function.setWidth 8)
        (BitVec.ofNat 8 (i * 2)) s).2
    refine ⟨?_, hspace⟩
    rw [List.map_cons]
    refine congrArg₂ List.cons ?_ hrest
    apply BitVec.eq_of_toNat_eq
    rw [BitVec.toNat_ofNat, ← hread, Nat.mod_eq_of_lt (BitVec.isLt _)]

theorem pciLoad_eq (f : PciFunction) (s : PciPorts) :
    (pciLoad f.bus (f.device.setWidth 8) (f.function.setWidth 8) s).1 = pciHeader s.space f ∧
      (pciLoad f.bus (f.device.setWidth 8) (f.function.setWidth 8) s).2.space = s.space :=
  pciLoadLoop_eq f (fun _ hi => List.mem_range.mp hi) s

theorem pciHeader_congr {space space' : PciSpace} (h : space f = space' f) :
    pciHeader space f = pciHeader space' f := by
  have hbytes : configBytes space f = configBytes space' f := by
    funext o
    rw [configBytes, configBytes, h]
  rw [pciHeader, pciHeader, hbytes]

theorem pciFormat_expands (pci : PciHeader) (bus device function : BitVec 8) :
    expand (callOf pciFormat (pciArgs pci bus device function)) 0 pciFormat =
      [intNumeral ((bus.setWidth 64).setWidth 32).toInt, bytesOf ":",
        intNumeral ((device.setWidth 64).setWidth 32).toInt, bytesOf ".",
        intNumeral ((function.setWidth 64).setWidth 32).toInt, bytesOf " vendor=",
        bytesOf "0x" ++ numeral 16 ((pci.vendorID.setWidth 64).setWidth 32).toNat,
        bytesOf " device=",
        bytesOf "0x" ++ numeral 16 ((pci.deviceID.setWidth 64).setWidth 32).toNat,
        bytesOf " class=",
        bytesOf "0x" ++ numeral 16 ((pci.class_.setWidth 64).setWidth 32).toNat,
        bytesOf " sub=",
        bytesOf "0x" ++ numeral 16 ((pci.subclass.setWidth 64).setWidth 32).toNat,
        bytesOf "\n"].flatten := rfl

theorem argument_toNat (x : BitVec w) (hw : w < 32) : ((x.setWidth 64).setWidth 32).toNat = x.toNat := by
  have hx := x.isLt
  have hpow : 2 ^ w < 2 ^ 32 := Nat.pow_lt_pow_right (by decide) hw
  rw [BitVec.toNat_setWidth, BitVec.toNat_setWidth, Nat.mod_mod_of_dvd _ (by decide),
    Nat.mod_eq_of_lt (by omega)]

theorem argument_toInt (x : BitVec w) (hw : w < 32) :
    ((x.setWidth 64).setWidth 32).toInt = x.toNat := by
  have hx := x.isLt
  have hpow : 2 ^ w ≤ 2 ^ 31 := Nat.pow_le_pow_right (by decide) (by omega)
  have hnat := argument_toNat x hw
  rw [BitVec.toInt_eq_toNat_of_lt (by omega), hnat]

theorem intNumeral_argument (x : BitVec w) (hw : w < 32) :
    intNumeral ((x.setWidth 64).setWidth 32).toInt = numeral 10 x.toNat := by
  rw [argument_toInt x hw, intNumeral, if_neg (by omega), Int.natAbs_natCast]

theorem argument_able (x : BitVec w) (hw : w < 32) (k : Stdio.Conversion) :
    k.Able (x.setWidth 64) = true := by
  have hint := argument_toInt x hw
  have hmin : (x.setWidth 64).setWidth 32 ≠ BitVec.intMin 32 := by
    intro h
    rw [h] at hint
    exact absurd hint (by rw [show (BitVec.intMin 32).toInt = -2 ^ 31 by decide]; omega)
  rw [Stdio.Conversion.Able, Bool.or_eq_true]
  exact .inr (decide_eq_true hmin)

theorem numeral_short (x : BitVec w) (hw : w ≤ 16) (hb : 1 < b) : (numeral b x.toNat).length ≤ 16 := by
  have hx : x.toNat < b ^ 16 := calc
    x.toNat < 2 ^ w := x.isLt
    _ ≤ 2 ^ 16 := Nat.pow_le_pow_right (by decide) hw
    _ ≤ b ^ 16 := Nat.pow_le_pow_left hb 16
  exact (numeral_length_le hb (by decide)).mpr hx

theorem flatten_length_le {ls : List (List α)} (h : ∀ l ∈ ls, l.length ≤ n) :
    ls.flatten.length ≤ ls.length * n := by
  rw [List.length_flatten, ← ls.length_map List.length, ← smul_eq_mul]
  exact List.sum_le_card_nsmul _ _ (by simpa using h)

theorem pciFormat_showable (pci : PciHeader) (bus device function : BitVec 8) :
    Stdio.Showable (callOf pciFormat (pciArgs pci bus device function)) 0 pciFormat = true := by
  have hshow : Stdio.Showable (callOf pciFormat (pciArgs pci bus device function)) 0 pciFormat =
      (Stdio.Conversion.d.Able (bus.setWidth 64) && (Stdio.Conversion.d.Able (device.setWidth 64) &&
        (Stdio.Conversion.d.Able (function.setWidth 64) && true))) := rfl
  simp only [hshow, argument_able _ (by decide : 8 < 32), Bool.and_self]

theorem pciReport_eq (m : LogMoment) (space : PciSpace) (f : PciFunction) :
    pciReport m (pciHeader space f) f.bus (f.device.setWidth 8) (f.function.setWidth 8) =
      some (pciLine m space f) := by
  have hdevice : (f.device.setWidth 8).toNat = f.device.toNat :=
    BitVec.toNat_setWidth_of_le (by decide)
  have hfunction : (f.function.setWidth 8).toNat = f.function.toNat :=
    BitVec.toNat_setWidth_of_le (by decide)
  have hline := pciFormat_expands (pciHeader space f) f.bus (f.device.setWidth 8)
    (f.function.setWidth 8)
  simp only [intNumeral_argument _ (by decide : 8 < 32), argument_toNat _ (by decide : 8 < 32),
    argument_toNat _ (by decide : 16 < 32), hdevice, hfunction] at hline
  have hwrites := Stdio.callOf_writes
    (pciArgs (pciHeader space f) f.bus (f.device.setWidth 8) (f.function.setWidth 8)) m.buf
    (by decide : 0 ∉ pciFormat) (Stdio.formatted_of_within 50 (by decide))
    (by decide : pciFormat.length < 64) (pciFormat_showable ..) (by
      rw [hline]
      refine (flatten_length_le (n := 18) ?_).trans (by simp)
      have hhex {w : Nat} (x : BitVec w) (hw : w ≤ 16) : (bytesOf "0x" ++ numeral 16 x.toNat).length ≤ 18 := by
        have hx := numeral_short (b := 16) x hw (by decide)
        rw [List.length_append, show (bytesOf "0x").length = 2 from rfl]
        omega
      have hdec {w : Nat} (x : BitVec w) (hw : w ≤ 16) : (numeral 10 x.toNat).length ≤ 18 :=
        (numeral_short (b := 10) x hw (by decide)).trans (by decide)
      simp only [List.forall_mem_cons, List.not_mem_nil, false_implies, implies_true, and_true]
      refine ⟨hdec _ (by decide), by decide, hdec _ (by decide), by decide, hdec _ (by decide),
        by decide, hhex _ (by decide), by decide, hhex _ (by decide), by decide, hhex _ (by decide),
        by decide, hhex _ (by decide), by decide⟩)
  rw [pciReport, Stdio.klog_writes .info (bytesOf "PCI") m.apicTicks m.arrays (by decide), hwrites,
    hline]
  rfl

-- ---------------------------------------------------------------------------
-- Launches
-- ---------------------------------------------------------------------------

def PciKernel.driverList (s : PciKernel δ) : List (PciDriver δ) :=
  (List.range maxPciDrivers).filterMap s.drivers

theorem take_append_take (l : List α) (x : α) (n : Nat) :
    (l.take n ++ [x]).take n = (l ++ [x]).take n := by
  by_cases h : l.length ≤ n
  · rw [List.take_of_length_le h]
  · rw [List.take_append_of_le_length (by rw [List.length_take]; omega), List.take_take,
      Nat.min_self, List.take_append_of_le_length (by omega)]

theorem addDevice_devices (s : PciKernel δ) (entry : PciDeviceEntry) :
    (s.addDevice entry).devices = (s.devices ++ [entry]).take maxPciDevices := by
  have hle := s.devices_le
  unfold PciKernel.addDevice
  split
  · rw [List.take_of_length_le (by simpa using ‹_ < _›)]
  · rw [List.take_append_of_le_length (by omega), List.take_of_length_le hle]

theorem addDevice_same (s : PciKernel δ) (entry : PciDeviceEntry) :
    (s.addDevice entry).ports = s.ports ∧ (s.addDevice entry).drivers = s.drivers ∧
      (s.addDevice entry).events = s.events := by
  unfold PciKernel.addDevice
  split <;> exact ⟨rfl, rfl, rfl⟩

structure Offered (pci : PciHeader) (f : PciFunction) (slots : List Nat) (s t : PciKernel δ) : Prop where
  drivers : t.drivers = s.drivers
  devices : t.devices = s.devices
  events : t.events = s.events ++
    ((slots.filterMap s.drivers).filter (PciDriver.serves · pci)).map fun d =>
      .called d.pcidrv pci f.bus (f.device.setWidth 8) (f.function.setWidth 8)
  space : ∀ g ≠ f, t.ports.space g = s.ports.space g

section
variable {acts : PciActs δ} {moment : PciFunction → LogMoment}

theorem pciOffer_offers (hown : acts.OwnFunction) (pci : PciHeader) (f : PciFunction)
    (s : PciKernel δ) (i : Nat) :
    Offered pci f [i] s
      (pciOffer acts pci f.bus (f.device.setWidth 8) (f.function.setWidth 8) s i) := by
  unfold pciOffer
  split
  · rename_i d hd
    split
    · rename_i hserves
      exact ⟨rfl, rfl, by simp [hd, hserves], fun g hg => hown _ _ f _ g hg⟩
    · rename_i hserves
      exact ⟨rfl, rfl, by simp [hd, hserves], fun g _ => rfl⟩
  · rename_i hd
    exact ⟨rfl, rfl, by simp [hd], fun g _ => rfl⟩

theorem Offered.append {pci : PciHeader} {f : PciFunction} {s t u : PciKernel δ}
    (h : Offered pci f before s t) (h' : Offered pci f after t u) :
    Offered pci f (before ++ after) s u where
  drivers := h'.drivers.trans h.drivers
  devices := h'.devices.trans h.devices
  events := by
    rw [h'.events, h.events, h.drivers, List.filterMap_append, List.filter_append, List.map_append,
      List.append_assoc]
  space g hg := (h'.space g hg).trans (h.space g hg)

theorem pciOffers_offer (hown : acts.OwnFunction) (pci : PciHeader) (f : PciFunction)
    (s : PciKernel δ) (slots : List Nat) :
    Offered pci f slots s (slots.foldl
      (pciOffer acts pci f.bus (f.device.setWidth 8) (f.function.setWidth 8)) s) := by
  induction slots generalizing s with
  | nil => exact ⟨rfl, rfl, by simp, fun g _ => rfl⟩
  | cons i slots ih => exact (pciOffer_offers hown pci f s i).append (ih _)

structure Launched (pci : PciHeader) (f : PciFunction) (s t : PciKernel δ) : Prop where
  drivers : t.drivers = s.drivers
  devices : t.devices = (s.devices ++
    [PciDeviceEntry.mk pci f.bus (f.device.setWidth 8) (f.function.setWidth 8)]).take maxPciDevices
  events : t.events = s.events ++ (s.driverList.filter (PciDriver.serves · pci)).map fun d =>
    .called d.pcidrv pci f.bus (f.device.setWidth 8) (f.function.setWidth 8)
  space : ∀ g ≠ f, t.ports.space g = s.ports.space g

theorem pciLaunch_launches (hown : acts.OwnFunction) (pci : PciHeader) (f : PciFunction)
    (s : PciKernel δ) :
    Launched pci f s
      (pciLaunch acts pci f.bus (f.device.setWidth 8) (f.function.setWidth 8) s) := by
  have hoffers := pciOffers_offer hown pci f
    (s.addDevice ⟨pci, f.bus, f.device.setWidth 8, f.function.setWidth 8⟩) (List.range maxPciDrivers)
  rw [← pciLaunch] at hoffers
  obtain ⟨hports, hdrivers, hevents⟩ :=
    addDevice_same s ⟨pci, f.bus, f.device.setWidth 8, f.function.setWidth 8⟩
  refine ⟨hoffers.drivers.trans hdrivers, hoffers.devices.trans (addDevice_devices s _), ?_,
    fun g hg => (hoffers.space g hg).trans (by rw [hports])⟩
  rw [hoffers.events, hevents, hdrivers, PciKernel.driverList]

-- ---------------------------------------------------------------------------
-- The scan
-- ---------------------------------------------------------------------------

/-- The state of a scan from `s₀` that has launched the functions in `got`. -/
structure Scanned (moment : PciFunction → LogMoment) (s₀ : PciKernel δ) (got : List PciFunction)
    (s : PciKernel δ) : Prop where
  drivers : s.drivers = s₀.drivers
  devices : s.devices = (s₀.devices ++ got.map (pciEntry s₀.ports.space)).take maxPciDevices
  events : s.events = s₀.events ++
    got.flatMap (pciEvents moment s₀.driverList s₀.ports.space)
  space : ∀ f ∉ got, s.ports.space f = s₀.ports.space f

variable {s₀ s : PciKernel δ} {got : List PciFunction}

theorem Scanned.start (s₀ : PciKernel δ) : Scanned moment s₀ [] s₀ where
  drivers := rfl
  devices := by simpa using (List.take_of_length_le s₀.devices_le).symm
  events := by simp
  space _ _ := rfl

theorem Scanned.load (h : Scanned moment s₀ got s) (hf : f ∉ got) :
    Scanned moment s₀ got { s with
        ports := (pciLoad f.bus (f.device.setWidth 8) (f.function.setWidth 8) s.ports).2 } ∧
      (pciLoad f.bus (f.device.setWidth 8) (f.function.setWidth 8) s.ports).1 =
        pciHeader s₀.ports.space f := by
  obtain ⟨hheader, hspace⟩ := pciLoad_eq f s.ports
  refine ⟨⟨h.drivers, h.devices, h.events, fun g hg => ?_⟩, ?_⟩
  · exact (congrFun hspace g).trans (h.space g hg)
  · rw [hheader, pciHeader_congr (h.space f hf)]

theorem Scanned.found (hown : acts.OwnFunction) (h : Scanned moment s₀ got s) (f : PciFunction) :
    ∃ t, pciFound acts moment s (pciHeader s₀.ports.space f) f = some t ∧
      Scanned moment s₀ (got ++ [f]) t := by
  have hlaunch := pciLaunch_launches hown (pciHeader s₀.ports.space f) f
    { s with events := s.events ++ [.shown (pciLine (moment f) s₀.ports.space f)] }
  rw [pciFound, pciReport_eq]
  refine ⟨_, rfl, hlaunch.drivers.trans h.drivers, ?_, ?_, fun g hg => ?_⟩
  · rw [hlaunch.devices, h.devices, take_append_take, List.map_append, List.append_assoc]
    rfl
  · rw [hlaunch.events, h.events, PciKernel.driverList, h.drivers]
    simp [pciEvents, PciKernel.driverList]
  · rw [List.mem_append, List.mem_singleton, not_or] at hg
    exact (hlaunch.space g hg.2).trans (h.space g hg.1)

def PciSpace.answers (space : PciSpace) (f : PciFunction) : Bool :=
  (pciHeader space f).vendorID ≠ 0xFFFF#16

theorem Scanned.scanFunction (hown : acts.OwnFunction) (h : Scanned moment s₀ got s) (hf : f ∉ got) :
    ∃ t, pciScanFunction acts moment s f = some t ∧
      Scanned moment s₀ (got ++ [f].filter s₀.ports.space.answers) t := by
  obtain ⟨hload, hheader⟩ := h.load hf
  rw [pciScanFunction, hheader]
  by_cases hv : (pciHeader s₀.ports.space f).vendorID ≠ 0xFFFF#16
  · have hanswers : s₀.ports.space.answers f = true := decide_eq_true hv
    rw [if_pos hv, List.filter_singleton, hanswers]
    exact hload.found hown f
  · have hanswers : s₀.ports.space.answers f = false := decide_eq_false hv
    rw [if_neg hv, List.filter_singleton, hanswers]
    exact ⟨_, rfl, by simpa using hload⟩

theorem Scanned.scanFunctions (hown : acts.OwnFunction) (h : Scanned moment s₀ got s)
    (hfs : fs.Nodup) (hnew : ∀ f ∈ fs, f ∉ got) :
    ∃ t, run (pciScanFunction acts moment) s fs = some t ∧
      Scanned moment s₀ (got ++ fs.filter s₀.ports.space.answers) t := by
  have hout : fs.filter s₀.ports.space.answers =
      fs.flatMap fun f => [f].filter s₀.ports.space.answers := by
    rw [← List.filter_flatMap, List.flatMap_singleton']
  rw [hout]
  refine run_collects (Scanned moment s₀) (fun f g => g = f) ?_ ?_ ?_ h
  · exact fun got s f _ hs hf => hs.scanFunction hown fun hmem => hf f hmem rfl
  · refine hfs.imp fun hne g hg hgf => hne ?_
    rw [← hgf, List.mem_singleton.mp (List.mem_of_mem_filter hg)]
  · rintro f hf g hg rfl
    exact hnew g hf hg

theorem deviceFunctions_eq (bus : BitVec 8) (device : BitVec 5) :
    deviceFunctions bus device =
      ⟨bus, device, 0⟩ :: (countFrom 3 1).map (⟨bus, device, ·⟩) := rfl

/-- The functions of a device are there if its first function is and they answer. -/
theorem filter_deviceFunctions (space : PciSpace) (bus : BitVec 8) (device : BitVec 5) :
    (deviceFunctions bus device).filter (space.Present ·) =
      if space.answers ⟨bus, device, 0⟩ then
        ⟨bus, device, 0⟩ :: ((countFrom 3 1).map (⟨bus, device, ·⟩)).filter space.answers
      else [] := by
  have hpresent : ∀ f ∈ deviceFunctions bus device, decide (space.Present f) =
      (space.answers f && space.answers ⟨bus, device, 0⟩) := by
    intro f hf
    obtain ⟨rfl, rfl⟩ := mem_deviceFunctions.mp hf
    exact Bool.decide_and _ _
  cases hzero : space.answers ⟨bus, device, 0⟩ with
  | true =>
    rw [hzero] at hpresent
    rw [List.filter_congr hpresent, deviceFunctions_eq]
    simp only [Bool.and_true]
    rw [List.filter_cons_of_pos hzero, if_pos trivial]
  | false =>
    rw [hzero] at hpresent
    rw [List.filter_congr hpresent]
    simp

theorem Scanned.scanDevice (hown : acts.OwnFunction) (h : Scanned moment s₀ got s)
    (hnew : ∀ f ∈ got, ¬(f.bus = bus ∧ f.device = device)) :
    ∃ t, pciScanDevice acts moment bus s device = some t ∧
      Scanned moment s₀ (got ++ (deviceFunctions bus device).filter (s₀.ports.space.Present ·)) t := by
  have hfirst : (⟨bus, device, 0⟩ : PciFunction) ∉ got := fun hmem => hnew _ hmem ⟨rfl, rfl⟩
  have hzero : (0 : BitVec 3).setWidth 8 = 0 := rfl
  obtain ⟨hload, hheader⟩ := h.load hfirst
  dsimp only at hload hheader
  rw [hzero] at hload hheader
  rw [filter_deviceFunctions, pciScanDevice, hheader]
  by_cases hv : (pciHeader s₀.ports.space ⟨bus, device, 0⟩).vendorID ≠ 0xFFFF#16
  · have hanswers : s₀.ports.space.answers ⟨bus, device, 0⟩ = true := decide_eq_true hv
    obtain ⟨t, ht, hscan⟩ := hload.found hown ⟨bus, device, 0⟩
    have hnodup := nodup_deviceFunctions bus device
    rw [deviceFunctions_eq, List.nodup_cons] at hnodup
    have hnew' : ∀ f ∈ (countFrom 3 1).map (PciFunction.mk bus device),
        f ∉ got ++ [⟨bus, device, 0⟩] := by
      intro f hf hg
      rcases List.mem_append.mp hg with hg | hg
      · obtain ⟨n, -, rfl⟩ := List.mem_map.mp hf
        exact hnew _ hg ⟨rfl, rfl⟩
      · exact hnodup.1 (List.mem_singleton.mp hg ▸ hf)
    obtain ⟨u, hu, hscan'⟩ := hscan.scanFunctions hown hnodup.2 hnew'
    rw [List.append_assoc] at hscan'
    rw [if_pos hv, hanswers, ht, Option.bind_eq_bind, Option.bind_some]
    exact ⟨u, hu, hscan'⟩
  · have hanswers : s₀.ports.space.answers ⟨bus, device, 0⟩ = false := decide_eq_false hv
    rw [if_neg hv, hanswers]
    exact ⟨_, rfl, by simpa using hload⟩

theorem mem_filter_deviceFunctions {p : PciFunction → Bool}
    (h : f ∈ (deviceFunctions bus device).filter p) : f.bus = bus ∧ f.device = device :=
  mem_deviceFunctions.mp (List.mem_of_mem_filter h)

theorem Scanned.scanBus {devices : List (BitVec 5)} (hown : acts.OwnFunction)
    (h : Scanned moment s₀ got s) (hdevices : devices.Nodup) (hnew : ∀ f ∈ got, f.bus ≠ bus) :
    ∃ t, run (pciScanDevice acts moment bus) s devices = some t ∧
      Scanned moment s₀ (got ++ devices.flatMap fun device =>
        (deviceFunctions bus device).filter (s₀.ports.space.Present ·)) t := by
  refine run_collects (Scanned moment s₀)
    (fun device f => f.bus = bus ∧ f.device = device) ?_ ?_ ?_ h
  · exact fun got s device _ hs hnew => hs.scanDevice hown hnew
  · refine hdevices.imp fun hne f hf hown => hne ?_
    rw [← (mem_filter_deviceFunctions hf).2, hown.2]
  · exact fun device _ f hf hown => hnew f hf hown.1

theorem Scanned.scanBuses {buses : List (BitVec 8)} {devices : List (BitVec 5)}
    (hown : acts.OwnFunction) (h : Scanned moment s₀ [] s) (hbuses : buses.Nodup)
    (hdevices : devices.Nodup) :
    ∃ t, run (fun s bus => run (pciScanDevice acts moment bus) s devices) s buses = some t ∧
      Scanned moment s₀ (buses.flatMap fun bus => devices.flatMap fun device =>
        (deviceFunctions bus device).filter (s₀.ports.space.Present ·)) t := by
  refine run_collects (Scanned moment s₀) (fun bus f => f.bus = bus) ?_ ?_ (by simp) h
  · exact fun got s bus _ hs hnew => hs.scanBus hown hdevices hnew
  · refine hbuses.imp fun hne f hf hown => hne ?_
    obtain ⟨device, -, hf⟩ := List.mem_flatMap.mp hf
    rw [← (mem_filter_deviceFunctions hf).1, hown]

theorem initworkspace_scans (moment : PciFunction → LogMoment) (hown : acts.OwnFunction)
    (s₀ : PciKernel δ) :
    ∃ t, initworkspace acts moment s₀ = some t ∧
      Scanned moment s₀ (presentFunctions s₀.ports.space) t := by
  rw [presentFunctions, pciFunctions, List.filter_flatMap, initworkspace]
  simp only [List.filter_flatMap]
  exact Scanned.scanBuses hown (Scanned.start s₀) (nodup_countFrom 8 0) (nodup_countFrom 5 0)

end

-- ---------------------------------------------------------------------------
-- Registration
-- ---------------------------------------------------------------------------

def regAll (s : PciKernel δ) (ds : List (PciDriver δ)) : PciKernel δ :=
  ds.foldl (fun s d => reg s d.pcidrv d.class_ d.subclass) s

def PciKernel.Holds (s : PciKernel δ) (ds : List (PciDriver δ)) : Prop :=
  ∀ i < maxPciDrivers, s.drivers i = ds[i]?

theorem reg_holds {s : PciKernel δ} (h : s.Holds ds) (d : PciDriver δ) :
    (reg s d.pcidrv d.class_ d.subclass).Holds ((ds ++ [d]).take maxPciDrivers) := by
  have hfree : ∀ i < maxPciDrivers, (s.drivers i).isNone = decide (ds.length ≤ i) := by
    intro i hi
    rw [h i hi, Bool.eq_iff_iff, Option.isNone_iff_eq_none, List.getElem?_eq_none_iff,
      decide_eq_true_eq]
  intro i hi
  rw [List.getElem?_take_of_lt hi]
  unfold reg
  split
  · rename_i k hk
    obtain ⟨hlt, hnone, hbefore⟩ := firstSlot_some.mp hk
    have hlen : k = ds.length := by
      rw [hfree k hlt, decide_eq_true_eq] at hnone
      by_contra hne
      have := hbefore ds.length (by omega)
      rw [hfree _ (by omega)] at this
      simp at this
    subst hlen
    by_cases hik : i = ds.length
    · subst hik
      simp
    · change Function.update _ _ _ i = _
      rw [Function.update_of_ne hik, h i hi]
      grind
  · rename_i hk
    have hall := firstSlot_none.mp hk i hi
    rw [hfree i hi, decide_eq_false_iff_not, not_le] at hall
    rw [h i hi, List.getElem?_append_left hall]

theorem regAll_holds {s : PciKernel δ} (ds : List (PciDriver δ))
    (h : s.Holds (before.take maxPciDrivers)) :
    (regAll s ds).Holds ((before ++ ds).take maxPciDrivers) := by
  induction ds generalizing s before with
  | nil => rwa [List.append_nil]
  | cons d ds ih =>
    have hreg := reg_holds h d
    rw [take_append_take] at hreg
    simpa [regAll] using ih hreg

theorem regAll_same (s : PciKernel δ) (ds : List (PciDriver δ)) :
    (regAll s ds).ports = s.ports ∧ (regAll s ds).devices = s.devices ∧
      (regAll s ds).events = s.events := by
  induction ds generalizing s with
  | nil => exact ⟨rfl, rfl, rfl⟩
  | cons d ds ih =>
    have hreg : (reg s d.pcidrv d.class_ d.subclass).ports = s.ports ∧
        (reg s d.pcidrv d.class_ d.subclass).devices = s.devices ∧
        (reg s d.pcidrv d.class_ d.subclass).events = s.events := by
      unfold reg
      split <;> exact ⟨rfl, rfl, rfl⟩
    obtain ⟨hports, hdevices, hevents⟩ := ih (reg s d.pcidrv d.class_ d.subclass)
    exact ⟨hports.trans hreg.1, hdevices.trans hreg.2.1, hevents.trans hreg.2.2⟩

theorem filterMap_getElem? (l : List α) (n : Nat) :
    (List.range n).filterMap (fun i => l[i]?) = l.take n := by
  induction n with
  | zero => rw [List.range_zero, List.filterMap_nil, List.take_zero]
  | succ n ih =>
    rw [List.range_succ, List.filterMap_append, ih, List.take_add_one]
    cases h : l[n]? <;> simp [h]

theorem PciKernel.Holds.driverList {s : PciKernel δ} {ds : List (PciDriver δ)} (h : s.Holds (ds.take maxPciDrivers)) :
    s.driverList = ds.take maxPciDrivers := by
  rw [PciKernel.driverList, List.filterMap_congr fun i hi => h i (List.mem_range.mp hi),
    filterMap_getElem?, List.take_take, Nat.min_self]

/-- Drivers are registered in any number and the bus is scanned. Every function that is
there when the scan begins is reported and then handed to the drivers of its class, in
the order they were registered in, once and with its own header; the first of them fill
the device table. A driver past the 256th is never called, and the functions that are
not launched keep their configuration space. -/
theorem scan_launches_present (acts : PciActs δ) (hown : acts.OwnFunction)
    (moment : PciFunction → LogMoment) (ds : List (PciDriver δ)) (ports : PciPorts) :
    ∃ t, initworkspace acts moment (regAll (.start δ ports) ds) = some t ∧
      t.devices = ((presentFunctions ports.space).map (pciEntry ports.space)).take maxPciDevices ∧
      t.events = (presentFunctions ports.space).flatMap
        (pciEvents moment (ds.take maxPciDrivers) ports.space) ∧
      (∀ f, ¬ports.space.Present f → t.ports.space f = ports.space f) ∧
      (presentFunctions ports.space).Nodup ∧
      ∀ f, f ∈ presentFunctions ports.space ↔ ports.space.Present f := by
  obtain ⟨hports, hdevices, hevents⟩ := regAll_same (.start δ ports) ds
  have hstart : (PciKernel.start δ ports).Holds (([] : List (PciDriver δ)).take maxPciDrivers) :=
    fun _ _ => rfl
  have hlist := (regAll_holds ds hstart).driverList
  obtain ⟨t, ht, hscan⟩ := initworkspace_scans moment hown (regAll (.start δ ports) ds)
  rw [hports] at hscan
  refine ⟨t, ht, ?_, ?_, fun f hf => ?_, nodup_pciFunctions.filter _, fun f => mem_presentFunctions⟩
  · rw [hscan.devices, hdevices, hports]
    rfl
  · rw [hscan.events, hevents, hports, hlist]
    rfl
  · rw [hscan.space f (mt mem_presentFunctions.mp hf), hports]
    rfl

theorem nvmeActs_own : nvmeActs.OwnFunction := by
  intro d pci f ports g hg
  unfold nvmeActs
  split
  · rfl
  · rw [pciWriteConfig16, outPortD_selected, PciSpace.put, Function.update_of_ne hg]
    rfl

def nvmePorts : PciPorts where
  configAddress := 0
  space f i :=
    if f = ⟨0, 4, 0⟩ then if i = 0 then 0x00101b36 else if i = 2 then 0x01080202 else 0
    else BitVec.allOnes 32

def bootMoment : LogMoment :=
  let zeros (size : Nat) : Buffer size := ⟨List.replicate size 0, List.length_replicate⟩
  ⟨0, ⟨zeros 20, zeros 20, zeros 20, zeros 8, zeros 32⟩, zeros 32⟩

/-- The driver for NVMe controllers gets the controller. -/
theorem scan_launches_nvme : ∃ t,
    initworkspace nvmeActs (fun _ => bootMoment)
      (regAll (.start Unit nvmePorts) [⟨0x01, 0x08, ()⟩]) = some t ∧
    .called () (pciHeader nvmePorts.space ⟨0, 4, 0⟩) 0 4 0 ∈ t.events := by
  obtain ⟨t, ht, -, hevents, -, -, hpresent⟩ := scan_launches_present nvmeActs nvmeActs_own
    (fun _ => bootMoment) [⟨0x01, 0x08, ()⟩] nvmePorts
  refine ⟨t, ht, ?_⟩
  rw [hevents]
  refine List.mem_flatMap.mpr ⟨⟨0, 4, 0⟩, (hpresent _).mpr (by decide), ?_⟩
  exact List.mem_cons_of_mem _ (by decide)

end TomatoOs.Drivers
