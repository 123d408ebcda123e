import TomatoOs.Lib.Radix
import TomatoOs.Lib.Words

/-!
# Page tables

`paging.c`: the four-level page tables of the kernel. Tables are reached
through `phys_to_virt`, which adds one constant to every physical address, so
that a table is named here by its physical address and the memory of tables is
a function of that address and an index. What `pmm_alloc_page` returns is left
open: `supply k` is the result of its `k`th call.
-/

namespace TomatoOs.Memory

open Lib

structure PageEntry where
  present : Bool
  writable : Bool
  userAccessible : Bool
  writeThroughCaching : Bool
  disableCache : Bool
  accessed : Bool
  dirty : Bool
  null : Bool
  global : Bool
  avl1 : BitVec 3
  physicalAddress : BitVec 40
  avl2 : BitVec 11
  noExecute : Bool
  deriving DecidableEq, Repr

def PageEntry.zero : PageEntry :=
  { present := false, writable := false, userAccessible := false, writeThroughCaching := false,
    disableCache := false, accessed := false, dirty := false, null := false, global := false,
    avl1 := 0, physicalAddress := 0, avl2 := 0, noExecute := false }

/-- `physical_address << 12`, in the 40 bits of the field. -/
def PageEntry.address (e : PageEntry) : Nat := (e.physicalAddress <<< 12).toNat

def PageEntry.next (e : PageEntry) : Option Nat := if e.present then some e.address else none

/-- `flags` is one byte, so that the bits tested last are never set. -/
def setPageTableEntry (entry : PageEntry) (flags physicalAddress available : Nat) : PageEntry :=
  let flags := flags % 2 ^ 8
  { entry with
    present := flags.testBit 0
    writable := flags.testBit 1
    userAccessible := flags.testBit 2
    writeThroughCaching := flags.testBit 3
    disableCache := flags.testBit 4
    accessed := false
    dirty := false
    global := flags.testBit 8
    avl1 := BitVec.ofNat 3 (available &&& 0x3)
    physicalAddress := BitVec.ofNat 40 (physicalAddress >>> 12)
    avl2 := BitVec.ofNat 11 (available >>> 3)
    noExecute := flags.testBit 9 }

/-- The tables, and the number of calls of `pmm_alloc_page` so far. -/
structure Vmm where
  pml4 : Nat
  tables : Radix.Nodes PageEntry
  calls : Nat

def tableIndex (k virt : Nat) : Nat := (virt >>> k) &&& 0x1FF

def getPhysicalAddress (s : Vmm) (virt : Nat) : Nat :=
  let offset := virt &&& 0xFFF
  let pml4e := s.tables s.pml4 (tableIndex 39 virt)
  if ¬pml4e.present then 0
  else
    let pdpe := s.tables pml4e.address (tableIndex 30 virt)
    if ¬pdpe.present then 0
    else
      let pde := s.tables pdpe.address (tableIndex 21 virt)
      if ¬pde.present then 0
      else
        let pte := s.tables pde.address (tableIndex 12 virt)
        if ¬pte.present then 0 else wadd 64 pte.address offset

section
variable (supply : Nat → Nat)

/-- `PTE_PRESENT` and `PTE_WRITABLE` are bits 0 and 1. -/
def allocateEntry (s : Vmm) (table index flags : Nat) : Vmm × Nat :=
  let phys := supply s.calls
  let s := { s with calls := s.calls + 1 }
  if phys = 0 then (s, 0)
  else
    let tables := Radix.fill s.tables phys .zero
    let entry := setPageTableEntry (tables table index) (flags ||| 1 ||| 2) phys 0
    ({ s with tables := Radix.store tables table index entry }, phys)

/-- One level of `map_page`: the table behind an entry, allocated if there is
none. A failed allocation goes unnoticed. -/
def descend (s : Vmm) (table index : Nat) : Vmm × Nat :=
  let s := if (s.tables table index).present then s else (allocateEntry supply s table index 2).1
  (s, (s.tables table index).address)

def mapOne (s : Vmm) (vir phy flags : Nat) : Vmm :=
  let pdp := descend supply s s.pml4 (tableIndex 39 vir)
  let pd := descend supply pdp.1 pdp.2 (tableIndex 30 vir)
  let pt := descend supply pd.1 pd.2 (tableIndex 21 vir)
  let entry := setPageTableEntry (pt.1.tables pt.2 (tableIndex 12 vir)) flags phy 0
  { pt.1 with tables := Radix.store pt.1.tables pt.2 (tableIndex 12 vir) entry }

def mapPage (s : Vmm) (virt phys flags : Nat) : Nat → Vmm
  | 0 => s
  | i + 1 =>
    mapOne supply (mapPage s virt phys flags i) (wadd 64 virt (wmul 64 i 4096))
      (wadd 64 phys (wmul 64 i 4096)) flags

end

-- ---------------------------------------------------------------------------
-- Addresses
-- ---------------------------------------------------------------------------

/-- Bits 12 to 47: all that the tables see of an address. -/
def pageNumber (virt : Nat) : Nat := virt / 4096 % 2 ^ 36

def Canonical (a : Nat) : Prop := a < 2 ^ 47 ∨ 2 ^ 64 - 2 ^ 47 ≤ a ∧ a < 2 ^ 64

theorem pageNumber_eq_iff (ha : Canonical a) (hb : Canonical b) :
    pageNumber a = pageNumber b ↔ a / 4096 = b / 4096 := by
  rw [Canonical] at ha hb
  rw [pageNumber, pageNumber]
  omega

def tablePath (virt : Nat) : List Nat :=
  [tableIndex 39 virt, tableIndex 30 virt, tableIndex 21 virt, tableIndex 12 virt]

theorem tableIndex_eq (k virt : Nat) : tableIndex k virt = virt / 2 ^ k % 512 := by
  rw [tableIndex, Nat.shiftRight_eq_div_pow]
  exact Nat.and_two_pow_sub_one_eq_mod _ 9

theorem mod_mul_eq_iff (a b m n : Nat) :
    a % (m * n) = b % (m * n) ↔ a / m % n = b / m % n ∧ a % m = b % m := by
  constructor
  · intro h
    rw [← Nat.mod_mul_right_div_self, ← Nat.mod_mul_right_div_self, h]
    refine ⟨rfl, ?_⟩
    rw [← Nat.mod_mul_right_mod a m n, ← Nat.mod_mul_right_mod b m n, h]
  · rintro ⟨hdigit, hrest⟩
    rw [Nat.mod_mul, Nat.mod_mul, hdigit, hrest]

/-- The four indices are the digits of the page number to the base 512. -/
theorem tablePath_eq_iff : tablePath a = tablePath b ↔ pageNumber a = pageNumber b := by
  have hdigit : ∀ v k, v / 2 ^ (12 + k) % 512 = v / 4096 / 2 ^ k % 512 := by
    intro v k
    rw [Nat.pow_add, Nat.div_div_eq_div_mul]
  have hpage : ∀ k, a / 4096 % 2 ^ (k + 9) = b / 4096 % 2 ^ (k + 9) ↔
      a / 4096 / 2 ^ k % 512 = b / 4096 / 2 ^ k % 512 ∧ a / 4096 % 2 ^ k = b / 4096 % 2 ^ k := by
    intro k
    rw [Nat.pow_add]
    exact mod_mul_eq_iff _ _ _ 512
  simp only [tablePath, tableIndex_eq, List.cons.injEq, and_true]
  rw [hdigit a 27, hdigit b 27, hdigit a 18, hdigit b 18, hdigit a 9, hdigit b 9]
  rw [pageNumber, pageNumber, hpage 27, hpage 18, hpage 9]
  exact Iff.rfl

theorem tablePath_wrapped (virt n : Nat) :
    tablePath (wadd 64 virt (wmul 64 n 4096)) = tablePath (virt + 4096 * n) := by
  simp only [tablePath_eq_iff, pageNumber, wadd, wmul]
  omega

theorem walk_entry (T : Radix.Nodes PageEntry) (a i : Nat) (is : List Nat) :
    Radix.walk PageEntry.next T a (i :: is) =
      if (T a i).present then Radix.walk PageEntry.next T (T a i).address is else none := by
  rw [Radix.walk, PageEntry.next]
  split <;> rfl

/-- The walk that the hardware makes as well. -/
abbrev Vmm.walk (s : Vmm) (is : List Nat) : Option Nat :=
  Radix.walk PageEntry.next s.tables s.pml4 is

theorem getPhysicalAddress_eq (s : Vmm) (virt : Nat) :
    getPhysicalAddress s virt =
      match s.walk (tablePath virt) with
      | none => 0
      | some frame => wadd 64 frame (virt % 4096) := by
  have hoff : virt &&& 0xFFF = virt % 4096 := Nat.and_two_pow_sub_one_eq_mod _ 12
  simp only [getPhysicalAddress, Vmm.walk, tablePath, walk_entry, Radix.walk_nil, hoff, ite_not]
  split_ifs <;> rfl

theorem address_of_next {e : PageEntry} (h : e.next = some a) : e.address = a := by
  rw [PageEntry.next] at h
  split at h
  · exact Option.some.inj h
  · cases h

theorem PageEntry.address_lt (e : PageEntry) : e.address < 2 ^ 40 ∧ e.address % 4096 = 0 := by
  simp only [PageEntry.address, BitVec.toNat_shiftLeft, Nat.shiftLeft_eq]
  omega

/-- What the tables can translate to at all: an address below `2 ^ 40` with the
offset asked for, or nothing. -/
theorem getPhysicalAddress_range (s : Vmm) (virt : Nat) :
    getPhysicalAddress s virt < 2 ^ 40 ∧
      (getPhysicalAddress s virt = 0 ∨ getPhysicalAddress s virt % 4096 = virt % 4096) := by
  have hoff : virt &&& 0xFFF = virt % 4096 := Nat.and_two_pow_sub_one_eq_mod _ 12
  have hleaf : ∀ e : PageEntry, wadd 64 e.address (virt % 4096) < 2 ^ 40 ∧
      (wadd 64 e.address (virt % 4096) = 0 ∨
        wadd 64 e.address (virt % 4096) % 4096 = virt % 4096) := by
    intro e
    obtain ⟨hlt, hmod⟩ := e.address_lt
    rw [wadd_eq (by omega)]
    exact ⟨by omega, .inr (by omega)⟩
  simp only [getPhysicalAddress, hoff, ite_not]
  split_ifs
  · exact hleaf _
  all_goals exact ⟨by decide, .inl rfl⟩

theorem next_zero : PageEntry.zero.next = none := rfl

def frameOf (flags phys : Nat) : Option Nat :=
  if flags.testBit 0 then some (phys / 4096 * 4096 % 2 ^ 40) else none

theorem next_eq_frameOf : (setPageTableEntry e flags phys available).next = frameOf flags phys := by
  have haddr : (setPageTableEntry e flags phys available).address =
      phys / 4096 * 4096 % 2 ^ 40 := by
    simp only [PageEntry.address, setPageTableEntry, BitVec.toNat_shiftLeft, BitVec.toNat_ofNat,
      Nat.shiftRight_eq_div_pow, Nat.shiftLeft_eq]
    omega
  have hbit : (setPageTableEntry e flags phys available).present = flags.testBit 0 := by
    simp [setPageTableEntry]
  rw [PageEntry.next, haddr, hbit, frameOf]

theorem next_set (hlt : phys < 2 ^ 40) (hal : phys % 4096 = 0) :
    (setPageTableEntry e flags phys available).next =
      if flags.testBit 0 then some phys else none := by
  have hphys : phys / 4096 * 4096 % 2 ^ 40 = phys := by omega
  rw [next_eq_frameOf, frameOf, hphys]

end TomatoOs.Memory
