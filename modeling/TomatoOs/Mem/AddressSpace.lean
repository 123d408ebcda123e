import Mathlib.Data.List.GetD
import TomatoOs.Mem.Exhausted
import TomatoOs.Mem.PmmOwnership

/-!
# The address space and its pages

The two halves of memory management at work together. `map_page` takes its tables from
the allocator that everybody else takes pages from, while clients allocate pages, free
them and write to them. No table ever lies in a client's page, so the tables translate
what the calls of `map_page` asked for, whatever the clients do in between.
-/

namespace TomatoOs.Memory

open Lib

-- ---------------------------------------------------------------------------
-- Tables from the allocator
-- ---------------------------------------------------------------------------

def Ledger.draw (l : Ledger) : Ledger :=
  let r := pmmAllocPage l.pmm 1
  { pmm := r.1, out := if r.2 = 0 then l.out else { addr := r.2, size := 1 } :: l.out }

def Ledger.drawn (l : Ledger) (k : Nat) : Nat := (pmmAllocPage (Ledger.draw^[k] l).pmm 1).2

/-- All pages that are handed out, those of the tables among them; `tablePages` are
the results of `pmm_alloc_page` in `map_page`, in their order. -/
structure AddressSpace where
  ledger : Ledger
  tablePages : List Nat
  vmm : Vmm

def AddressSpace.tables (s : AddressSpace) : List Nat := s.vmm.pml4 :: s.tablePages

def AddressSpace.supply (s : AddressSpace) (k : Nat) : Nat :=
  s.tablePages.getD k (s.ledger.drawn (k - s.tablePages.length))

/-- `initPML4` up to `map_all_mem`. -/
def AddressSpace.start (r : Region) (bitmap : Mem) (memory : Radix.Nodes PageEntry) :
    Option AddressSpace :=
  let pml4 := (Ledger.start r bitmap).drawn 0
  if pml4 = 0 then none
  else some { ledger := (Ledger.start r bitmap).draw, tablePages := [], vmm := .zeroed pml4 memory }

inductive SpaceOp
  | alloc (size : Nat)
  | free (g : Grant)
  | store (page index : Nat) (entry : PageEntry)
  | map (c : MapCall)

def AddressSpace.lent (s : AddressSpace) (g : Grant) : Bool :=
  g ∈ s.ledger.out ∧ g.addr ∉ s.tables

/-- What `pmm_alloc_page` returns to a call of `map_page`, one result for each table. -/
def AddressSpace.newPages (s : AddressSpace) (c : MapCall) : List Nat :=
  (List.range ((s.vmm.map s.supply c).calls - s.vmm.calls)).map s.ledger.drawn

/-- Clients free and write what they got themselves. -/
def AddressSpace.step (s : AddressSpace) : SpaceOp → Option AddressSpace
  | .alloc size => (s.ledger.step (.alloc size)).map fun l => { s with ledger := l }
  | .free g =>
    if s.lent g then (s.ledger.step (.free g)).map fun l => { s with ledger := l } else none
  | .store page index entry =>
    if s.ledger.out.any fun g => s.lent g ∧ Within g.addr g.length page ∧ page % 4096 = 0 then
      some { s with vmm := { s.vmm with tables := Radix.store s.vmm.tables page index entry } }
    else none
  | .map c =>
    some
      { ledger := Ledger.draw^[(s.newPages c).length] s.ledger
        tablePages := s.tablePages ++ s.newPages c
        vmm := s.vmm.map s.supply c }

/-- A call of `map_page` gets a page for every table that it needs. One that does not
goes on all the same; the module `Exhausted` is about those. -/
def AddressSpace.Served (s : AddressSpace) : SpaceOp → Prop
  | .map c => 0 ∉ s.newPages c
  | .alloc _ | .free _ | .store _ _ _ => True

instance (s : AddressSpace) (op : SpaceOp) : Decidable (s.Served op) :=
  match op with
  | .map c => inferInstanceAs (Decidable (0 ∉ s.newPages c))
  | .alloc _ | .free _ | .store _ _ _ => .isTrue trivial

-- ---------------------------------------------------------------------------
-- What the tables are for
-- ---------------------------------------------------------------------------

abbrev Translation := Nat → Option Nat

def SpaceOp.translate (view : Translation) : SpaceOp → Translation
  | .map c => fun b => (asked c.virt c.phys c.flags c.numPages b).getD (view b)
  | .alloc _ | .free _ | .store _ _ _ => view

def translated (ops : List SpaceOp) : Translation :=
  ops.foldl SpaceOp.translate fun _ => none

/-- The region of the allocator, where entries can name its pages. -/
structure Region.Nameable (r : Region) : Prop where
  aligned : r.base % 4096 = 0
  low : r.page r.totalPages ≤ 2 ^ 40

def tableGrant (a : Nat) : Grant := { addr := a, size := 1 }

structure AddressSpace.Sound (r : Region) (s : AddressSpace) : Prop where
  kept : s.ledger.Kept r
  count : s.tablePages.length = s.vmm.calls
  nodup : s.tables.Nodup
  held : ∀ a ∈ s.tables, tableGrant a ∈ s.ledger.out
  vmm : s.vmm.Sound s.supply

section
variable {r : Region} {l : Ledger} {s s' : AddressSpace}

-- ---------------------------------------------------------------------------
-- Fresh pages
-- ---------------------------------------------------------------------------

theorem draw_step (l : Ledger) : l.step (.alloc 1) = some l.draw := by
  rw [Ledger.step, if_pos (by decide)]
  rfl

theorem Ledger.Kept.draw (hK : l.Kept r) : l.draw.Kept r := ledger_step_kept hK (draw_step l)

theorem Ledger.Kept.draws (hK : l.Kept r) (k : Nat) : (Ledger.draw^[k] l).Kept r := by
  induction k with
  | zero => exact hK
  | succ k ih =>
    rw [Function.iterate_succ_apply']
    exact ih.draw

theorem draws_out (hk : l.drawn k ≠ 0) :
    (Ledger.draw^[k + 1] l).out = tableGrant (l.drawn k) :: (Ledger.draw^[k] l).out := by
  rw [Function.iterate_succ_apply']
  exact if_neg hk

theorem out_subset_draws (l : Ledger) (k : Nat) : l.out ⊆ (Ledger.draw^[k] l).out := by
  induction k with
  | zero => exact List.Subset.refl _
  | succ k ih =>
    rw [Function.iterate_succ_apply', Ledger.draw]
    dsimp only
    split
    · exact ih
    · exact List.subset_cons_of_subset _ ih

theorem Ledger.Kept.drawn (hK : l.Kept r) (hr : r.Nameable) (hk : l.drawn k ≠ 0) :
    l.drawn k % 4096 = 0 ∧ l.drawn k < 2 ^ 40 ∧
      ∀ g ∈ (Ledger.draw^[k] l).out, g.addr ≠ l.drawn k := by
  have hK' := hK.draws (k + 1)
  have hout := draws_out hk
  have hmem : tableGrant (l.drawn k) ∈ (Ledger.draw^[k + 1] l).out :=
    hout ▸ List.mem_cons_self
  obtain ⟨⟨i, hi⟩, -, hhi⟩ := hK'.owned.inside _ hmem
  have hlow := hr.low
  have halign := hr.aligned
  simp only [tableGrant, Grant.length, pages, blockSize] at hi hhi
  refine ⟨?_, by omega, fun g hg heq => ?_⟩
  · rw [hi, Region.page, blockSize]
    omega
  · have hdisjoint := hK'.owned.disjoint
    rw [hout, List.pairwise_cons] at hdisjoint
    have hapart := hdisjoint.1 g hg
    have hlen : 0 < g.length := Nat.mul_pos ((hK.draws k).nonempty g hg) (by decide)
    simp only [tableGrant, Grant.length, pages, blockSize, Apart] at hapart hlen
    omega

theorem drawn_mem (hall : ∀ i < k, l.drawn i ≠ 0) (hi : i < k) :
    tableGrant (l.drawn i) ∈ (Ledger.draw^[k] l).out := by
  induction k with
  | zero => omega
  | succ k ih =>
    rw [draws_out (hall k (Nat.lt_succ_self k))]
    rcases Nat.eq_or_lt_of_le (Nat.le_of_lt_succ hi) with rfl | hlt
    · exact List.mem_cons_self
    · exact List.mem_cons_of_mem _ (ih (fun j hj => hall j (by omega)) hlt)

-- ---------------------------------------------------------------------------
-- The supply
-- ---------------------------------------------------------------------------

theorem supply_past (hk : k < s.tablePages.length) : s.supply k ∈ s.tablePages := by
  rw [AddressSpace.supply, List.getD_eq_getElem _ _ hk]
  exact List.getElem_mem hk

theorem supply_ahead (s : AddressSpace) (i : Nat) :
    s.supply (s.tablePages.length + i) = s.ledger.drawn i := by
  rw [AddressSpace.supply, List.getD_eq_default _ _ (Nat.le_add_right _ _), Nat.add_sub_cancel_left]

theorem Vmm.Sound.supplied {supply supply' : Nat → Nat} {v : Vmm} (h : v.Sound supply)
    (hsame : ∀ k < v.calls, supply' k = supply k) : v.Sound supply' := by
  refine ⟨h.tree, fun a is his hw => ?_⟩
  rcases h.known a is his hw with hroot | ⟨k, hk, hka⟩
  · exact .inl hroot
  · exact .inr ⟨k, hk, (hsame k hk).trans hka⟩

theorem AddressSpace.Sound.table_mem (hS : s.Sound r) (ha : s.vmm.Table a) : a ∈ s.tables := by
  obtain ⟨is, his, hw⟩ := ha
  rcases hS.vmm.known a is his hw with rfl | ⟨k, hk, rfl⟩
  · exact List.mem_cons_self
  · rw [← hS.count] at hk
    exact List.mem_cons_of_mem _ (supply_past hk)

theorem Ledger.Kept.named (hK : l.Kept r) (hr : r.Nameable) (hg : g ∈ l.out) :
    g.addr ≠ 0 ∧ g.addr % 4096 = 0 ∧ g.addr < 2 ^ 40 := by
  obtain ⟨i, hi, hbitmap, htotal, -⟩ := hK.span hg
  have hpos := hK.nonempty g hg
  have hbitmap0 := r.bitmapPages_pos (by omega)
  have halign := hr.aligned
  have hlow := hr.low
  simp only [Region.page, blockSize] at hi hlow
  omega

theorem AddressSpace.Sound.fresh (hS : s.Sound r) (hr : r.Nameable)
    (hall : ∀ i < k, s.ledger.drawn i ≠ 0) :
    FreshSupply s.supply s.vmm.pml4 (s.tablePages.length + k) := by
  obtain ⟨hroot, hnodup⟩ := List.nodup_cons.mp hS.nodup
  have hpast : ∀ m < s.tablePages.length, s.supply m ∈ s.tables := fun m hm =>
    List.mem_cons_of_mem _ (supply_past hm)
  intro m hm
  by_cases hlt : m < s.tablePages.length
  · obtain ⟨h0, hmod, hlow⟩ := hS.kept.named hr (hS.held _ (hpast m hlt))
    refine ⟨h0, hmod, hlow, fun h => hroot (h ▸ supply_past hlt), fun i hi heq => ?_⟩
    rw [AddressSpace.supply, AddressSpace.supply, List.getD_eq_getElem _ _ (hi.trans hlt),
      List.getD_eq_getElem _ _ hlt] at heq
    exact Nat.ne_of_lt hi ((hnodup.getElem_inj_iff).mp heq)
  · obtain ⟨i, rfl⟩ := Nat.exists_eq_add_of_le (Nat.le_of_not_lt hlt)
    have hi : s.ledger.drawn i ≠ 0 := hall i (by omega)
    obtain ⟨hmod, hlow, hothers⟩ := hS.kept.drawn hr hi
    have hheld : ∀ a ∈ s.tables, a ≠ s.ledger.drawn i := fun a ha =>
      hothers _ (out_subset_draws _ _ (hS.held a ha))
    rw [supply_ahead]
    refine ⟨hi, hmod, hlow, (hheld _ List.mem_cons_self).symm, fun j hj => ?_⟩
    by_cases hjlt : j < s.tablePages.length
    · exact hheld _ (hpast j hjlt)
    · obtain ⟨j, rfl⟩ := Nat.exists_eq_add_of_le (Nat.le_of_not_lt hjlt)
      rw [supply_ahead]
      exact hothers _ (drawn_mem (fun m hm => hall m (by omega)) (by omega))

-- ---------------------------------------------------------------------------
-- Steps
-- ---------------------------------------------------------------------------

theorem tablePages_eq (s : AddressSpace) (k : Nat) :
    s.tablePages ++ (List.range k).map s.ledger.drawn =
      (List.range (s.tablePages.length + k)).map s.supply := by
  rw [List.range_add, List.map_append, List.map_map]
  congr 1
  · refine List.ext_getElem (by simp) fun i hi _ => ?_
    rw [List.getElem_map, List.getElem_range, AddressSpace.supply, List.getD_eq_getElem _ _ hi]
  · exact List.map_congr_left fun i _ => (supply_ahead s i).symm

theorem FreshSupply.nodup {supply : Nat → Nat} (h : FreshSupply supply pml4 m) :
    (pml4 :: (List.range m).map supply).Nodup := by
  refine List.nodup_cons.mpr ⟨fun hroot => ?_, List.nodup_range.map_on fun i hi j hj heq => ?_⟩
  · obtain ⟨k, hk, hka⟩ := List.mem_map.mp hroot
    exact (h k (List.mem_range.mp hk)).2.2.2.1 hka
  · rcases Nat.lt_trichotomy i j with hlt | rfl | hlt
    · exact absurd heq ((h j (List.mem_range.mp hj)).2.2.2.2 i hlt)
    · rfl
    · exact absurd heq.symm ((h i (List.mem_range.mp hi)).2.2.2.2 j hlt)

theorem supply_eq_of_tablePages (h : s'.tablePages = (List.range n).map s.supply) (hk : k < n) :
    s'.supply k = s.supply k := by
  rw [AddressSpace.supply, List.getD_eq_getElem _ _ (by rw [h]; simpa using hk)]
  simp [h]

theorem map_sound (hS : s.Sound r) (hr : r.Nameable) (hserved : s.Served (.map c))
    (hs : s.step (.map c) = some s') :
    s'.Sound r ∧ ∀ b, s'.vmm.walk (tablePath b) =
      (asked c.virt c.phys c.flags c.numPages b).getD (s.vmm.walk (tablePath b)) := by
  have hcalls : s.vmm.calls ≤ (s.vmm.map s.supply c).calls := mapPage_calls
  have hall : ∀ i < (s.vmm.map s.supply c).calls - s.vmm.calls, s.ledger.drawn i ≠ 0 :=
    fun i hi h0 => hserved (List.mem_map.mpr ⟨i, List.mem_range.mpr hi, h0⟩)
  have hcount : s.tablePages.length + ((s.vmm.map s.supply c).calls - s.vmm.calls) =
      (s.vmm.map s.supply c).calls := by
    have := hS.count
    omega
  have hfresh := hS.fresh hr hall
  have hpages : s.tablePages ++ s.newPages c = _ :=
    tablePages_eq s ((s.vmm.map s.supply c).calls - s.vmm.calls)
  rw [hcount] at hfresh hpages
  obtain ⟨hsound, hroot⟩ := mapPage_sound hS.vmm hfresh
  cases hs
  refine ⟨⟨hS.kept.draws _, ?_, ?_, ?_, ?_⟩, mapPage_asked hS.vmm hfresh⟩
  · rw [hpages]
    simp
  · rw [AddressSpace.tables, hpages]
    dsimp only
    rw [Vmm.map, hroot]
    exact hfresh.nodup
  · intro a ha
    rw [AddressSpace.newPages, List.length_map, List.length_range]
    rcases List.mem_cons.mp ha with rfl | ha
    · rw [Vmm.map, hroot]
      exact out_subset_draws _ _ (hS.held _ List.mem_cons_self)
    · rcases List.mem_append.mp ha with ha | ha
      · exact out_subset_draws _ _ (hS.held a (List.mem_cons_of_mem _ ha))
      · obtain ⟨i, hi, rfl⟩ := List.mem_map.mp ha
        exact drawn_mem hall (List.mem_range.mp hi)
  · exact hsound.supplied fun k hk => supply_eq_of_tablePages hpages hk

theorem AddressSpace.Sound.ledger (hS : s.Sound r) (hK : l.Kept r)
    (hheld : ∀ a ∈ s.tables, tableGrant a ∈ l.out) :
    AddressSpace.Sound r { s with ledger := l } := by
  refine ⟨hK, hS.count, hS.nodup, hheld, hS.vmm.supplied fun k hk => ?_⟩
  rw [← hS.count] at hk
  rw [AddressSpace.supply, AddressSpace.supply, List.getD_eq_getElem _ _ hk,
    List.getD_eq_getElem _ _ hk]

theorem lent_iff : s.lent g = true ↔ g ∈ s.ledger.out ∧ g.addr ∉ s.tables := by
  simp [AddressSpace.lent]

theorem AddressSpace.Sound.lent_apart (hS : s.Sound r) (hg : s.lent g = true)
    (ha : a ∈ s.tables) : Apart g.addr g.length a 4096 := by
  obtain ⟨hout, hnot⟩ := lent_iff.mp hg
  have hne : g ≠ tableGrant a := fun h => hnot (by rw [h]; exact ha)
  have : Std.Symm fun g g' : Grant => Apart g.addr g.length g'.addr g'.length :=
    ⟨fun _ _ h => h.symm⟩
  have hapart := hS.kept.owned.disjoint.forall hout (hS.held a ha) hne
  simpa [tableGrant, Grant.length, pages, blockSize] using hapart

theorem AddressSpace.Sound.store (hS : s.Sound r) (hg : s.lent g = true)
    (hin : Within g.addr g.length page) (index : Nat) (e : PageEntry) :
    AddressSpace.Sound r
        { s with vmm := { s.vmm with tables := Radix.store s.vmm.tables page index e } } ∧
      ∀ js : List Nat, js.length ≤ 4 →
        Vmm.walk { s.vmm with tables := Radix.store s.vmm.tables page index e } js =
          s.vmm.walk js := by
  have hwalk : ∀ js : List Nat, js.length ≤ 4 →
      Vmm.walk { s.vmm with tables := Radix.store s.vmm.tables page index e } js =
        s.vmm.walk js := fun js hjs => by
    refine Radix.walk_congr (fun a is his hw => funext fun i => ?_) (d := 3) hjs
    have hapart := hS.lent_apart hg (hS.table_mem ⟨is, his, hw⟩)
    have hne : a ≠ page := by
      rintro rfl
      exact hapart.not_within ⟨Nat.le_refl a, by omega⟩ hin
    exact if_neg fun h => hne h.1
  refine ⟨⟨hS.kept, hS.count, hS.nodup, hS.held, ?_, ?_⟩, hwalk⟩
  · intro a is js his hjs hi hj
    exact hS.vmm.tree a is js his hjs ((hwalk is (by omega)).symm.trans hi)
      ((hwalk js (by omega)).symm.trans hj)
  · intro a is his hw
    rw [hwalk is (by omega)] at hw
    exact hS.vmm.known a is his hw

theorem alloc_out {l' : Ledger} (hl : l.step (.alloc size) = some l') : l.out ⊆ l'.out := by
  rw [Ledger.step] at hl
  split at hl
  · cases hl
    dsimp only
    split
    · exact List.Subset.refl _
    · exact List.subset_cons_self _ _
  · cases hl

theorem free_out {l' : Ledger} (hl : l.step (.free g) = some l') : l'.out = l.out.erase g := by
  rw [Ledger.step] at hl
  split at hl
  · cases hl
    rfl
  · cases hl

theorem space_step_sound (hS : s.Sound r) (hr : r.Nameable) (hserved : s.Served op)
    (hs : s.step op = some s') :
    s'.Sound r ∧ (fun b => s'.vmm.walk (tablePath b)) =
      op.translate fun b => s.vmm.walk (tablePath b) := by
  cases op with
  | alloc size =>
    obtain ⟨l, hl, rfl⟩ := Option.map_eq_some_iff.mp hs
    exact ⟨hS.ledger (ledger_step_kept hS.kept hl) fun a ha => alloc_out hl (hS.held a ha), rfl⟩
  | free g =>
    rw [AddressSpace.step] at hs
    split at hs
    · case isTrue hlent =>
      obtain ⟨l, hl, rfl⟩ := Option.map_eq_some_iff.mp hs
      refine ⟨hS.ledger (ledger_step_kept hS.kept hl) fun a ha => ?_, rfl⟩
      have hne : tableGrant a ≠ g := fun h => (lent_iff.mp hlent).2 (by rw [← h]; exact ha)
      rw [free_out hl]
      exact (List.mem_erase_of_ne hne).mpr (hS.held a ha)
    · cases hs
  | store page index entry =>
    rw [AddressSpace.step] at hs
    split at hs
    · case isTrue hany =>
      obtain ⟨g, -, hg⟩ := List.any_eq_true.mp hany
      obtain ⟨hlent, hin, -⟩ := of_decide_eq_true hg
      cases hs
      obtain ⟨hsound, hwalk⟩ := hS.store hlent hin index entry
      exact ⟨hsound, funext fun b => hwalk (tablePath b) (Nat.le_refl 4)⟩
    · cases hs
  | map c =>
    obtain ⟨hsound, hwalk⟩ := map_sound hS hr hserved hs
    exact ⟨hsound, funext hwalk⟩

theorem space_start_sound
    (h0 : ∀ i < r.totalPages, Bitmap.test bitmap i = true ↔ i < r.bitmapPages)
    (hs : AddressSpace.start r bitmap memory = some s) :
    s.Sound r ∧ ∀ b, s.vmm.walk (tablePath b) = none := by
  rw [AddressSpace.start] at hs
  split at hs
  · cases hs
  · case isFalse hne =>
    cases hs
    have hK : (Ledger.start r bitmap).Kept r :=
      ⟨rfl, rfl, List.forall_mem_nil _, List.forall_mem_nil _, .nil, by simpa [Ledger.start] using h0⟩
    refine ⟨⟨hK.draw, rfl, List.nodup_singleton _, fun a ha => ?_, zeroed_sound⟩,
      fun b => zeroed_walk (List.cons_ne_nil _ _)⟩
    obtain rfl := List.mem_singleton.mp ha
    exact drawn_mem (k := 1) (fun i hi => by rwa [Nat.lt_one_iff.mp hi]) (by decide)

theorem space_run_sound (hr : r.Nameable) (hS : s.Sound r)
    (hserved : AllSteps AddressSpace.step AddressSpace.Served s ops)
    (hrun : run AddressSpace.step s ops = some s') :
    s'.Sound r ∧ (fun b => s'.vmm.walk (tablePath b)) =
      ops.foldl SpaceOp.translate fun b => s.vmm.walk (tablePath b) := by
  induction ops generalizing s with
  | nil =>
    cases hrun
    exact ⟨hS, rfl⟩
  | cons op ops ih =>
    obtain ⟨t, ht, hrun⟩ := run_cons.mp hrun
    obtain ⟨hT, hview⟩ := space_step_sound hS hr hserved.1 ht
    rw [List.foldl_cons, ← hview]
    exact ih hT (hserved.2 t ht) hrun

theorem Vmm.walk_lt {v : Vmm} (h : v.walk (tablePath b) = some frame) : frame < 2 ^ 40 := by
  have hsplit : tablePath b = upperPath b ++ [tableIndex 12 b] := rfl
  rw [Vmm.walk, hsplit, Radix.walk_snoc] at h
  obtain ⟨a, -, hnext⟩ := Option.bind_eq_some_iff.mp h
  rw [← address_of_next hnext]
  exact (PageEntry.address_lt _).1

theorem getPhysicalAddress_elim (v : Vmm) (b : Nat) :
    getPhysicalAddress v b = (v.walk (tablePath b)).elim 0 (· + b % 4096) := by
  rw [getPhysicalAddress_eq]
  cases hw : v.walk (tablePath b) with
  | none => rfl
  | some frame =>
    have := Vmm.walk_lt hw
    exact wadd_eq (by omega)

/-- Whatever the clients of the allocator do between the calls of `map_page`, and with
their pages, an address translates as the last call that covered it asked for, if the calls
got their tables. No page of a client is a table, and the bitmap has every page that is
handed out. -/
theorem tables_follow_maps (hr : r.Nameable)
    (h0 : ∀ i < r.totalPages, Bitmap.test bitmap i = true ↔ i < r.bitmapPages)
    (hstart : AddressSpace.start r bitmap memory = some s)
    (hserved : AllSteps AddressSpace.step AddressSpace.Served s ops)
    (hrun : run AddressSpace.step s ops = some s') :
    (∀ b, getPhysicalAddress s'.vmm b = (translated ops b).elim 0 (· + b % 4096)) ∧
      (∀ g, s'.lent g = true → ∀ a, s'.vmm.Table a → Apart g.addr g.length a 4096) ∧
      s'.ledger.Owned r := by
  obtain ⟨hS, hempty⟩ := space_start_sound h0 hstart
  obtain ⟨hS', hview⟩ := space_run_sound hr hS hserved hrun
  refine ⟨fun b => ?_, fun g hg a ha => hS'.lent_apart hg (hS'.table_mem ha), hS'.kept.owned⟩
  have hwalk : s'.vmm.walk (tablePath b) = translated ops b := by
    rw [translated, ← funext hempty, ← hview]
  rw [getPhysicalAddress_elim, hwalk]

def reusedPage : List SpaceOp :=
  [.map ⟨0x40000000, 0x9000, 3, 1⟩, .alloc 4096,
    .store 1069056 0 (setPageTableEntry .zero 3 0x7000 0), .free ⟨1069056, 4096⟩,
    .map ⟨0x80000000, 0xA000, 3, 1⟩]

theorem tables_follow_maps_reused :
    let r : Region := { base := 1048576, size := 65536, fits := by decide }
    let bitmap : Mem := fun x => if x = 0 then 1 else 0
    ∃ s s', AddressSpace.start r bitmap (fun _ _ => .zero) = some s ∧
      run AddressSpace.step s reusedPage = some s' ∧ s'.tables.contains 1069056 = true ∧
      getPhysicalAddress s'.vmm 0x80000123 = 0xA123 := by
  intro r bitmap
  have hrun : ((AddressSpace.start r bitmap fun _ _ => .zero).bind fun s =>
      run AddressSpace.step s reusedPage).map AddressSpace.tables =
        some [1052672, 1056768, 1060864, 1064960, 1069056, 1073152] := by decide +kernel
  obtain ⟨s', hbind, htables⟩ := Option.map_eq_some_iff.mp hrun
  obtain ⟨s, hs, hs'⟩ := Option.bind_eq_some_iff.mp hbind
  have hserved : ((AddressSpace.start r bitmap fun _ _ => .zero).all fun s =>
      AllSteps AddressSpace.step AddressSpace.Served s reusedPage) = true := by decide +kernel
  rw [hs, Option.all_some, decide_eq_true_eq] at hserved
  have hfollow := tables_follow_maps (r := r) ⟨by decide, by decide⟩ (by decide +kernel) hs hserved hs'
  refine ⟨s, s', hs, hs', by rw [htables]; decide, ?_⟩
  rw [hfollow.1]
  decide +kernel

end

end TomatoOs.Memory
