import TomatoOs.Lib.Bytes

/-!
# PCI configuration space

The accessors of `pci.h` select a 32-bit word through `CONFIG_ADDRESS` and reach
it through `CONFIG_DATA`. Accesses of one and two bytes shift, mask and merge
around that word. Behind the two ports the configuration space of every function
is a store of 256 bytes: `config_accesses` says that the accessors are its loads
and stores.
-/

namespace TomatoOs.Drivers

open Lib

structure PciFunction where
  bus : BitVec 8
  device : BitVec 5
  function : BitVec 3
deriving DecidableEq

abbrev PciSpace := PciFunction → BitVec 6 → BitVec 32

structure PciPorts where
  configAddress : BitVec 32
  space : PciSpace

def pciConfigAddress : Nat := 0xCF8

def pciConfigData : Nat := 0xCFC

def selectedFunction (address : BitVec 32) : PciFunction :=
  { bus := address.extractLsb' 16 8
    device := address.extractLsb' 11 5
    function := address.extractLsb' 8 3 }

def selectedWord (address : BitVec 32) : BitVec 6 := address.extractLsb' 2 6

def PciSpace.put (space : PciSpace) (f : PciFunction) (i : BitVec 6) (value : BitVec 32) : PciSpace :=
  Function.update space f (Function.update (space f) i value)

/-- Bit 31 of `CONFIG_ADDRESS` lets accesses of `CONFIG_DATA` through. -/
def outPortD (port : Nat) (value : BitVec 32) (s : PciPorts) : PciPorts :=
  if port = pciConfigAddress then { s with configAddress := value }
  else if port = pciConfigData ∧ s.configAddress.msb then
    { s with
      space := s.space.put (selectedFunction s.configAddress) (selectedWord s.configAddress) value }
  else s

def inPortD (port : Nat) (s : PciPorts) : BitVec 32 :=
  if port = pciConfigAddress then s.configAddress
  else if port = pciConfigData ∧ s.configAddress.msb then
    s.space (selectedFunction s.configAddress) (selectedWord s.configAddress)
  else BitVec.allOnes 32

-- ---------------------------------------------------------------------------
-- pci.h
-- ---------------------------------------------------------------------------

def configAddress (bus num function offset : BitVec 8) : BitVec 32 :=
  (1#32 <<< 31) ||| (bus.setWidth 32 <<< 16) ||| (num.setWidth 32 <<< 11) |||
    (function.setWidth 32 <<< 8) ||| (offset.setWidth 32 &&& 0xfc#32)

section
variable (bus num function offset : BitVec 8)

def pciReadConfig32 (s : PciPorts) : BitVec 32 × PciPorts :=
  let s := outPortD pciConfigAddress (configAddress bus num function offset) s
  (inPortD pciConfigData s, s)

def pciReadConfig16 (s : PciPorts) : BitVec 16 × PciPorts :=
  let s := outPortD pciConfigAddress (configAddress bus num function offset) s
  (((inPortD pciConfigData s >>> ((offset &&& 2#8) * 8#8).toNat) &&& 0xffff#32).setWidth 16, s)

def pciReadConfig8 (s : PciPorts) : BitVec 8 × PciPorts :=
  let s := outPortD pciConfigAddress (configAddress bus num function offset) s
  (((inPortD pciConfigData s >>> ((offset &&& 3#8) * 8#8).toNat) &&& 0xff#32).setWidth 8, s)

def pciWriteConfig32 (value : BitVec 32) (s : PciPorts) : PciPorts :=
  let s := outPortD pciConfigAddress (configAddress bus num function offset) s
  outPortD pciConfigData value s

def pciWriteConfig16 (value : BitVec 16) (s : PciPorts) : PciPorts :=
  let s := outPortD pciConfigAddress (configAddress bus num function offset) s
  let current := inPortD pciConfigData s
  let shift := ((offset &&& 2#8) * 8#8).toNat
  let merged := (current &&& ~~~(0xffff#32 <<< shift)) ||| (value.setWidth 32 <<< shift)
  outPortD pciConfigData merged s

def pciWriteConfig8 (value : BitVec 8) (s : PciPorts) : PciPorts :=
  let s := outPortD pciConfigAddress (configAddress bus num function offset) s
  let current := inPortD pciConfigData s
  let shift := ((offset &&& 3#8) * 8#8).toNat
  let merged := (current &&& ~~~(0xff#32 <<< shift)) ||| (value.setWidth 32 <<< shift)
  outPortD pciConfigData merged s

end

-- ---------------------------------------------------------------------------
-- Bytes
-- ---------------------------------------------------------------------------

def configBytes (space : PciSpace) (f : PciFunction) : Mem := fun o =>
  (space f (BitVec.ofNat 6 (o / 4)) >>> (8 * (o % 4))).setWidth 8

inductive ConfigWidth
  | byte
  | word
  | dword

def ConfigWidth.bytes : ConfigWidth → Nat
  | .byte => 1
  | .word => 2
  | .dword => 4

section
variable (bus num function offset : BitVec 8)

def ConfigWidth.read (w : ConfigWidth) (s : PciPorts) : BitVec (8 * w.bytes) × PciPorts :=
  match w with
  | .byte => pciReadConfig8 bus num function offset s
  | .word => pciReadConfig16 bus num function offset s
  | .dword => pciReadConfig32 bus num function offset s

def ConfigWidth.write (w : ConfigWidth) (value : BitVec (8 * w.bytes)) (s : PciPorts) : PciPorts :=
  match w with
  | .byte => pciWriteConfig8 bus num function offset value s
  | .word => pciWriteConfig16 bus num function offset value s
  | .dword => pciWriteConfig32 bus num function offset value s

end

theorem word_byte (word : BitVec 32) (j : Nat) :
    (word >>> (8 * j)).setWidth 8 = BitVec.ofNat 8 (word.toNat / 256 ^ j) := by
  apply BitVec.eq_of_toNat_eq
  rw [BitVec.toNat_setWidth, BitVec.toNat_ushiftRight, Nat.shiftRight_eq_div_pow,
    BitVec.toNat_ofNat, Nat.pow_mul]

theorem configBytes_load (space : PciSpace) (f : PciFunction) (h : o % 4 + n ≤ 4) :
    (configBytes space f).load o n =
      (space f (BitVec.ofNat 6 (o / 4))).toNat / 256 ^ (o % 4) % 256 ^ n := by
  refine Mem.load_digits fun i hi => ?_
  have hword : (o + i) / 4 = o / 4 := by omega
  have hbyte : (o + i) % 4 = o % 4 + i := by omega
  rw [configBytes, hword, hbyte, word_byte, Nat.div_div_eq_div_mul, ← Nat.pow_add]

theorem merged_byte (current : BitVec 32) (value : BitVec (8 * n)) (hj : j < 4) :
    (((current &&& ~~~((BitVec.allOnes (8 * n)).setWidth 32 <<< (8 * k))) |||
      (value.setWidth 32 <<< (8 * k))) >>> (8 * j)).setWidth 8 =
      if k ≤ j ∧ j < k + n then BitVec.ofNat 8 (value.toNat / 256 ^ (j - k))
      else (current >>> (8 * j)).setWidth 8 := by
  ext b hb
  have hlt : 8 * j + b < 32 := by omega
  split
  · rename_i hin
    have hge : ¬8 * j + b < 8 * k := by omega
    have hbit : 8 * j + b - 8 * k < 8 * n := by omega
    have hvalue : (BitVec.ofNat 8 (value.toNat / 256 ^ (j - k)))[b] =
        value.getLsbD (8 * j + b - 8 * k) := by
      have hpow : 256 ^ (j - k) = 2 ^ (8 * (j - k)) := by rw [Nat.pow_mul]
      have hpos : b + 8 * (j - k) = 8 * j + b - 8 * k := by omega
      rw [← BitVec.getLsbD_eq_getElem, BitVec.getLsbD_ofNat, decide_eq_true hb, Bool.true_and, hpow,
        Nat.testBit_div_two_pow, hpos]
      rfl
    rw [hvalue]
    simp [hlt, hge, hbit]
  · rename_i hout
    simp only [BitVec.getElem_setWidth, BitVec.getLsbD_ushiftRight, BitVec.getLsbD_or,
      BitVec.getLsbD_and, BitVec.getLsbD_not, BitVec.getLsbD_shiftLeft, BitVec.getLsbD_setWidth,
      BitVec.getLsbD_allOnes, hlt]
    by_cases hlow : 8 * j + b < 8 * k
    · simp [hlow]
    · have hhigh : 8 * n ≤ 8 * j + b - 8 * k := by omega
      simp [hlow, BitVec.getLsbD_of_ge _ _ hhigh, Nat.not_lt.mpr hhigh]

-- ---------------------------------------------------------------------------
-- The word behind the ports
-- ---------------------------------------------------------------------------

theorem or_fields (ha : a = 2 ^ i * k) (hb : b < 2 ^ i) : a ||| b = a + b := by
  rw [ha, Nat.two_pow_add_eq_or_of_lt hb]

theorem shifted_toNat {x : BitVec w} (h : 2 ^ i * x.toNat < 2 ^ 32) :
    (x.setWidth 32 <<< i).toNat = 2 ^ i * x.toNat := by
  have hx : x.toNat < 2 ^ 32 := (Nat.le_mul_of_pos_left _ (Nat.two_pow_pos i)).trans_lt h
  rw [BitVec.toNat_shiftLeft, BitVec.toNat_setWidth, Nat.mod_eq_of_lt hx, Nat.shiftLeft_eq,
    Nat.mul_comm, Nat.mod_eq_of_lt h]

section
variable (bus : BitVec 8) (device : BitVec 5) (function : BitVec 3) (offset : BitVec 8)

theorem configAddress_toNat :
    (configAddress bus (device.setWidth 8) (function.setWidth 8) offset).toNat =
      2 ^ 31 + 2 ^ 16 * bus.toNat + 2 ^ 11 * device.toNat + 2 ^ 8 * function.toNat +
        4 * (offset.toNat / 4) := by
  have hbus := bus.isLt
  have hdevice := device.isLt
  have hfunction := function.isLt
  have hoffset := offset.isLt
  have hword : (offset.setWidth 32 &&& 252#32).toNat = 4 * (offset.toNat / 4) := by
    have hall : ∀ x : BitVec 8, (x.setWidth 32 &&& 252#32).toNat = 4 * (x.toNat / 4) := by decide
    exact hall offset
  have h31 : (1#32 <<< 31).toNat = 2 ^ 31 := by decide
  have h16 : (bus.setWidth 32 <<< 16).toNat = 2 ^ 16 * bus.toNat :=
    shifted_toNat (by omega)
  have h11 : ((device.setWidth 8).setWidth 32 <<< 11).toNat = 2 ^ 11 * device.toNat := by
    rw [BitVec.setWidth_setWidth (by decide)]
    exact shifted_toNat (by omega)
  have h8 : ((function.setWidth 8).setWidth 32 <<< 8).toNat = 2 ^ 8 * function.toNat := by
    rw [BitVec.setWidth_setWidth (by decide)]
    exact shifted_toNat (by omega)
  rw [configAddress, BitVec.toNat_or, BitVec.toNat_or, BitVec.toNat_or, BitVec.toNat_or, hword, h31,
    h16, h11, h8]
  have hor31 : 2 ^ 31 ||| 2 ^ 16 * bus.toNat = 2 ^ 31 + 2 ^ 16 * bus.toNat :=
    or_fields (i := 31) (k := 1) (Nat.mul_one _).symm (by omega)
  rw [hor31, or_fields (a := 2 ^ 31 + _) (b := 2 ^ 11 * _) (i := 16) (k := 2 ^ 15 + bus.toNat)
      (by omega) (by omega),
    or_fields (b := 2 ^ 8 * _) (i := 11) (k := 2 ^ 20 + 2 ^ 5 * bus.toNat + device.toNat)
      (by omega) (by omega),
    or_fields (i := 8) (k := 2 ^ 23 + 2 ^ 8 * bus.toNat + 2 ^ 3 * device.toNat + function.toNat)
      (by omega) (by omega)]

theorem selectedFunction_configAddress :
    selectedFunction (configAddress bus (device.setWidth 8) (function.setWidth 8) offset) =
      ⟨bus, device, function⟩ := by
  have hbus := bus.isLt
  have hdevice := device.isLt
  have hfunction := function.isLt
  have hoffset := offset.isLt
  simp only [selectedFunction, PciFunction.mk.injEq]
  refine ⟨?_, ?_, ?_⟩ <;> apply BitVec.eq_of_toNat_eq <;>
    rw [BitVec.extractLsb'_toNat, configAddress_toNat, Nat.shiftRight_eq_div_pow] <;> omega

theorem selectedWord_configAddress :
    selectedWord (configAddress bus (device.setWidth 8) (function.setWidth 8) offset) =
      BitVec.ofNat 6 (offset.toNat / 4) := by
  have hfunction := function.isLt
  have hoffset := offset.isLt
  apply BitVec.eq_of_toNat_eq
  rw [selectedWord, BitVec.extractLsb'_toNat, configAddress_toNat, Nat.shiftRight_eq_div_pow,
    BitVec.toNat_ofNat]
  omega

theorem configAddress_enabled :
    (configAddress bus (device.setWidth 8) (function.setWidth 8) offset).msb = true := by
  rw [BitVec.msb_eq_decide, configAddress_toNat, decide_eq_true_eq]
  omega

theorem inPortD_selected (s : PciPorts) :
    inPortD pciConfigData (outPortD pciConfigAddress
        (configAddress bus (device.setWidth 8) (function.setWidth 8) offset) s) =
      s.space ⟨bus, device, function⟩ (BitVec.ofNat 6 (offset.toNat / 4)) := by
  simp [inPortD, outPortD, pciConfigAddress, pciConfigData, configAddress_enabled,
    selectedFunction_configAddress, selectedWord_configAddress]

theorem outPortD_selected (s : PciPorts) (value : BitVec 32) :
    (outPortD pciConfigData value (outPortD pciConfigAddress
        (configAddress bus (device.setWidth 8) (function.setWidth 8) offset) s)).space =
      s.space.put ⟨bus, device, function⟩ (BitVec.ofNat 6 (offset.toNat / 4)) value := by
  simp [outPortD, pciConfigAddress, pciConfigData, configAddress_enabled,
    selectedFunction_configAddress, selectedWord_configAddress]

end

theorem configBytes_put {space : PciSpace} {f : PciFunction} {word : BitVec 32}
    (ho : o < 256) (hn : o % 4 + n ≤ 4)
    (hword : ∀ j < 4, (word >>> (8 * j)).setWidth 8 =
      if o % 4 ≤ j ∧ j < o % 4 + n then BitVec.ofNat 8 (v / 256 ^ (j - o % 4))
      else (space f (BitVec.ofNat 6 (o / 4)) >>> (8 * j)).setWidth 8) (g : PciFunction) (hx : x < 256) :
    configBytes (space.put f (BitVec.ofNat 6 (o / 4)) word) g x =
      if g = f then (configBytes space f).store o n v x else configBytes space g x := by
  by_cases hg : g = f
  · subst hg
    rw [if_pos rfl, configBytes, PciSpace.put, Function.update_self]
    by_cases hsame : x / 4 = o / 4
    · have hin : Within o n x ↔ o % 4 ≤ x % 4 ∧ x % 4 < o % 4 + n := by
        unfold Within
        omega
      have hdist : x - o = x % 4 - o % 4 := by omega
      rw [hsame, Function.update_self, hword _ (Nat.mod_lt x (by decide)), Mem.store, hdist]
      simp only [hin, configBytes, hsame]
    · have hne : BitVec.ofNat 6 (x / 4) ≠ BitVec.ofNat 6 (o / 4) := by
        intro he
        have := congrArg BitVec.toNat he
        simp only [BitVec.toNat_ofNat] at this
        omega
      have hout : ¬Within o n x := by
        unfold Within
        omega
      rw [Function.update_of_ne hne, Mem.store_outside hout, configBytes]
  · rw [if_neg hg, configBytes, configBytes, PciSpace.put, Function.update_of_ne hg]

-- ---------------------------------------------------------------------------
-- Loads and stores
-- ---------------------------------------------------------------------------

theorem byte_shift (offset : BitVec 8) : ((offset &&& 3#8) * 8#8).toNat = 8 * (offset.toNat % 4) := by
  have hall : ∀ x : BitVec 8, ((x &&& 3#8) * 8#8).toNat = 8 * (x.toNat % 4) := by decide
  exact hall offset

theorem word_shift {offset : BitVec 8} (h : offset.toNat % 2 = 0) :
    ((offset &&& 2#8) * 8#8).toNat = 8 * (offset.toNat % 4) := by
  have hall : ∀ x : BitVec 8, x.toNat % 2 = 0 → ((x &&& 2#8) * 8#8).toNat = 8 * (x.toNat % 4) := by
    decide
  exact hall offset h

theorem field_toNat (word : BitVec 32) (hn : 8 * n ≤ 32) :
    (((word >>> (8 * k)) &&& (BitVec.allOnes (8 * n)).setWidth 32).setWidth (8 * n)).toNat =
      word.toNat / 256 ^ k % 256 ^ n := by
  have hmask : ((word >>> (8 * k)) &&& (BitVec.allOnes (8 * n)).setWidth 32).setWidth (8 * n) =
      (word >>> (8 * k)).setWidth (8 * n) := by
    ext b hb
    have hb32 : b < 32 := by omega
    simp [hb, hb32]
  rw [hmask, BitVec.toNat_setWidth, BitVec.toNat_ushiftRight, Nat.shiftRight_eq_div_pow, Nat.pow_mul,
    Nat.pow_mul]

section
variable (bus : BitVec 8) (device : BitVec 5) (function : BitVec 3) (offset : BitVec 8)

theorem read_eq_load (w : ConfigWidth) (ha : offset.toNat % w.bytes = 0) (s : PciPorts) :
    (w.read bus (device.setWidth 8) (function.setWidth 8) offset s).1.toNat =
      (configBytes s.space ⟨bus, device, function⟩).load offset.toNat w.bytes := by
  cases w with
  | byte =>
    rw [configBytes_load _ _ (by change _ + 1 ≤ 4; omega)]
    simp only [ConfigWidth.read, pciReadConfig8, inPortD_selected, byte_shift]
    exact field_toNat (n := 1) _ (by decide)
  | word =>
    have ha : offset.toNat % 2 = 0 := ha
    rw [configBytes_load _ _ (by change _ + 2 ≤ 4; omega)]
    simp only [ConfigWidth.read, pciReadConfig16, inPortD_selected, word_shift ha]
    exact field_toNat (n := 2) _ (by decide)
  | dword =>
    have ha : offset.toNat % 4 = 0 := ha
    rw [configBytes_load _ _ (by change _ + 4 ≤ 4; omega), ha]
    simp only [ConfigWidth.read, pciReadConfig32, inPortD_selected]
    rw [Nat.pow_zero, Nat.div_one]
    exact (Nat.mod_eq_of_lt (BitVec.isLt _)).symm

theorem write_eq_store (w : ConfigWidth) (ha : offset.toNat % w.bytes = 0)
    (value : BitVec (8 * w.bytes)) (s : PciPorts) (g : PciFunction) (hx : x < 256) :
    configBytes (w.write bus (device.setWidth 8) (function.setWidth 8) offset value s).space g x =
      if g = ⟨bus, device, function⟩ then
        (configBytes s.space ⟨bus, device, function⟩).store offset.toNat w.bytes value.toNat x
      else configBytes s.space g x := by
  cases w with
  | byte =>
    simp only [ConfigWidth.write, pciWriteConfig8, outPortD_selected, inPortD_selected, byte_shift]
    refine configBytes_put offset.isLt (by change _ + 1 ≤ 4; omega) (fun j hj => ?_) g hx
    exact merged_byte _ value hj
  | word =>
    have ha : offset.toNat % 2 = 0 := ha
    simp only [ConfigWidth.write, pciWriteConfig16, outPortD_selected, inPortD_selected,
      word_shift ha]
    refine configBytes_put offset.isLt (by change _ + 2 ≤ 4; omega) (fun j hj => ?_) g hx
    exact merged_byte _ value hj
  | dword =>
    have ha : offset.toNat % 4 = 0 := ha
    have hspace : (ConfigWidth.dword.write bus (device.setWidth 8) (function.setWidth 8) offset value
        s).space = s.space.put ⟨bus, device, function⟩ (BitVec.ofNat 6 (offset.toNat / 4)) value :=
      outPortD_selected bus device function offset s value
    rw [hspace]
    refine configBytes_put offset.isLt (by change _ + 4 ≤ 4; omega) (fun j hj => ?_) g hx
    rw [if_pos ⟨by omega, by change j < _ + 4; omega⟩, ha, Nat.sub_zero]
    exact word_byte value j

/-- An access of any width at an offset that is a multiple of it: a read gives the
little-endian bytes there and changes nothing, a write changes these bytes and
no other byte of any function, and is read back. -/
theorem config_accesses (w : ConfigWidth) (ha : offset.toNat % w.bytes = 0)
    (value : BitVec (8 * w.bytes)) (s : PciPorts) :
    let read := w.read bus (device.setWidth 8) (function.setWidth 8) offset
    let write := w.write bus (device.setWidth 8) (function.setWidth 8) offset value
    let bytes := configBytes s.space ⟨bus, device, function⟩
    ((read s).1.toNat = bytes.load offset.toNat w.bytes ∧ (read s).2.space = s.space) ∧
      (read (write s)).1 = value ∧
      ∀ g x, x < 256 → configBytes (write s).space g x =
        if g = ⟨bus, device, function⟩ then bytes.store offset.toNat w.bytes value.toNat x
        else configBytes s.space g x := by
  have hwrite := fun g x => write_eq_store bus device function offset (x := x) w ha value s g
  have hend : offset.toNat + w.bytes ≤ 256 := by
    have hlt := offset.isLt
    cases w <;> simp only [ConfigWidth.bytes] at * <;> omega
  refine ⟨⟨read_eq_load bus device function offset w ha s, by cases w <;> rfl⟩, ?_, hwrite⟩
  apply BitVec.eq_of_toNat_eq
  rw [read_eq_load bus device function offset w ha]
  -- the bytes that are read are those that were stored
  have hstored : ∀ y, Within offset.toNat w.bytes y → configBytes
      (w.write bus (device.setWidth 8) (function.setWidth 8) offset value s).space
        ⟨bus, device, function⟩ y =
      (configBytes s.space ⟨bus, device, function⟩).store offset.toNat w.bytes value.toNat y := by
    intro y hy
    rw [hwrite _ y (hy.2.trans_le hend), if_pos rfl]
  rw [Mem.load_congr hstored, Mem.load_store_eq]
  rw [show 256 ^ w.bytes = 2 ^ (8 * w.bytes) by rw [Nat.pow_mul]]
  exact value.isLt

/-- The command register of device 3, below a status register with bits set. -/
theorem config_accesses_command :
    (pciReadConfig16 0 3 0 4 (pciWriteConfig16 0 3 0 4 6 ⟨0, fun _ _ => 0xFFFF0000⟩)).1 = 6 :=
  (config_accesses 0 3 0 4 .word (by decide) 6 ⟨0, fun _ _ => 0xFFFF0000⟩).2.1

end

end TomatoOs.Drivers
