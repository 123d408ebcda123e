import TomatoOs.Mem.Entries

/-!
# Access rights

The processor combines the rights in the entries of all four levels. The tables
above the last level are made with one set of flags, and `setPageTableEntry`
takes its flags in one byte, so that of the rights in a request only those for
writing and caching arrive. `rights_iff` says for which requests that is
enough.
-/

namespace TomatoOs.Memory

open Lib

structure Rights where
  writable : Bool
  user : Bool
  noExecute : Bool
  disableCache : Bool
  global : Bool
  deriving DecidableEq, Repr

/-- `PTE_WRITABLE`, `PTE_USER`, `PTE_NX`, `PTE_NOCACHE` and `PTE_GLOBAL` -/
def requested (flags : Nat) : Rights :=
  { writable := flags.testBit 1
    user := flags.testBit 2
    noExecute := flags.testBit 63
    disableCache := flags.testBit 4
    global := flags.testBit 8 }

/-- What the processor makes of the entries of an address. The tables lie below
`2 ^ 40`, where it reads the same addresses from the entries as the kernel. -/
def effective (s : Vmm) (virt : Nat) : Option Rights :=
  let pml4e := s.tables s.pml4 (tableIndex 39 virt)
  let pdpe := s.tables pml4e.address (tableIndex 30 virt)
  let pde := s.tables pdpe.address (tableIndex 21 virt)
  let pte := s.tables pde.address (tableIndex 12 virt)
  if pml4e.present && pdpe.present && pde.present && pte.present then
    some
      { writable := pml4e.writable && pdpe.writable && pde.writable && pte.writable
        user := pml4e.userAccessible && pdpe.userAccessible && pde.userAccessible &&
          pte.userAccessible
        noExecute := pml4e.noExecute || pdpe.noExecute || pde.noExecute || pte.noExecute
        disableCache := pte.disableCache
        global := pte.global }
  else none

def PageEntry.Plain (e : PageEntry) : Prop :=
  e.present = true → e.writable = true ∧ e.userAccessible = false ∧ e.noExecute = false

def PageEntry.rights (e : PageEntry) : Rights :=
  { writable := e.writable
    user := false
    noExecute := e.noExecute
    disableCache := e.disableCache
    global := e.global }

theorem plain_innate : Innate PageEntry.Plain where
  zero := nofun
  table := fun _ _ _ => ⟨rfl, rfl, rfl⟩

theorem rights_set (e : PageEntry) (flags phys : Nat) :
    (setPageTableEntry e flags phys 0).rights =
      ⟨flags.testBit 1, false, false, flags.testBit 4, false⟩ := by
  simp only [PageEntry.rights, setPageTableEntry, Nat.testBit_mod_two_pow]
  rfl

section
variable {supply : Nat → Nat} {s s' : Vmm}

/-- Only the last entry makes a difference. -/
theorem effective_eq (hu : s.Upper PageEntry.Plain) (virt : Nat) :
    effective s virt =
      (s.leaf [tableIndex 39 virt, tableIndex 30 virt, tableIndex 21 virt]
        (tableIndex 12 virt)).map PageEntry.rights := by
  have h4 := hu [] (tableIndex 39 virt) (s.tables s.pml4 (tableIndex 39 virt)) (by simp) rfl
  have h3 := hu [tableIndex 39 virt] (tableIndex 30 virt) (s.tables
    (s.tables s.pml4 (tableIndex 39 virt)).address (tableIndex 30 virt)) (by simp)
  have h2 := hu [tableIndex 39 virt, tableIndex 30 virt] (tableIndex 21 virt) (s.tables (s.tables
    (s.tables s.pml4 (tableIndex 39 virt)).address (tableIndex 30 virt)).address
    (tableIndex 21 virt)) (by simp)
  simp only [Vmm.entry_eq, Vmm.walk, walk_entry, Radix.walk_nil] at h3 h2
  simp only [effective, Vmm.leaf, Vmm.entry_eq, Vmm.walk, walk_entry, Radix.walk_nil]
  generalize s.tables s.pml4 (tableIndex 39 virt) = pml4e at *
  cases hp4 : pml4e.present with
  | false => simp
  | true =>
    simp only [hp4, ↓reduceIte, Option.map_some] at h3 h2 ⊢
    have h3 := h3 trivial
    generalize s.tables pml4e.address (tableIndex 30 virt) = pdpe at *
    cases hp3 : pdpe.present with
    | false => simp
    | true =>
      simp only [hp3, ↓reduceIte, Option.map_some] at h2 ⊢
      have h2 := h2 trivial
      generalize s.tables pdpe.address (tableIndex 21 virt) = pde at *
      cases hp2 : pde.present with
      | false => simp
      | true =>
        obtain ⟨hw4, hu4, hx4⟩ := h4 hp4
        obtain ⟨hw3, hu3, hx3⟩ := h3 hp3
        obtain ⟨hw2, hu2, hx2⟩ := h2 hp2
        cases hp1 : (s.tables pde.address (tableIndex 12 virt)).present <;>
          simp [PageEntry.rights, *]

-- ---------------------------------------------------------------------------
-- A range
-- ---------------------------------------------------------------------------

/-- The entries of a range hold the rights in the flags, and the entries of other
pages what they held. -/
theorem mapPage_leaf (hs : s.Sound supply)
    (hf : FreshSupply supply s.pml4 (mapPage supply s virt phys flags n).calls)
    (hflags : flags.testBit 0 = true) :
    (∀ js j, js.length = 3 → (∃ i < n, js ++ [j] = tablePath (virt + 4096 * i)) →
        ((mapPage supply s virt phys flags n).leaf js j).map PageEntry.rights =
          some ⟨flags.testBit 1, false, false, flags.testBit 4, false⟩) ∧
      ∀ js j, js.length = 3 → (∀ i < n, js ++ [j] ≠ tablePath (virt + 4096 * i)) →
        (mapPage supply s virt phys flags n).leaf js j = s.leaf js j := by
  induction n with
  | zero => exact ⟨fun _ _ _ ⟨i, hi, _⟩ => absurd hi (Nat.not_lt_zero i), fun _ _ _ _ => rfl⟩
  | succ n ih =>
    obtain ⟨hin, hout⟩ := ih (hf.mono mapOne_calls)
    obtain ⟨hs', hroot⟩ := mapPage_sound hs (hf.mono mapOne_calls)
    obtain ⟨e, hleaf⟩ := mapOne_leaf hs' (hroot ▸ hf)
    have hpresent : ∀ phy, (setPageTableEntry e flags phy 0).present = true := by
      intro phy
      simp only [setPageTableEntry, Nat.testBit_mod_two_pow, hflags]
      rfl
    rw [tablePath_wrapped] at hleaf
    refine ⟨fun js j hjs hpage => ?_, fun js j hjs hpage => ?_⟩
    · rw [mapPage, hleaf js j hjs]
      split
      · rw [Option.filter_some, if_pos (hpresent _), Option.map_some, rights_set]
      · rename_i hne
        obtain ⟨i, hi, hpage⟩ := hpage
        refine hin js j hjs ⟨i, ?_, hpage⟩
        rcases Nat.eq_or_lt_of_le (Nat.le_of_lt_succ hi) with rfl | hlt
        · exact absurd hpage hne
        · exact hlt
    · rw [mapPage, hleaf js j hjs, if_neg (hpage n (Nat.lt_succ_self n))]
      exact hout js j hjs fun i hi => hpage i (Nat.lt_succ_of_lt hi)

/-- The pages of a range get the rights that were asked for, and other pages
keep theirs, exactly if neither user access nor a global page nor an execution
ban is asked for. -/
theorem rights_iff (cs : List MapCall) (hs : cs.foldl (Vmm.map supply) (.zeroed pml4 memory) = s)
    (hs' : mapPage supply s virt phys flags n = s') (hf : FreshSupply supply pml4 s'.calls)
    (hpresent : flags.testBit 0 = true) :
    ((∀ i < n, effective s' (virt + 4096 * i) = some (requested flags)) ∧
        ∀ b, (∀ i < n, pageNumber b ≠ pageNumber (virt + 4096 * i)) →
          effective s' b = effective s b) ↔
      n = 0 ∨ flags.testBit 2 = false ∧ flags.testBit 8 = false ∧ flags.testBit 63 = false := by
  subst hs'
  have hfs : FreshSupply supply pml4 s.calls := hf.mono mapPage_calls
  obtain ⟨hsound, hroot, hupper⟩ :
      s.Sound supply ∧ s.pml4 = pml4 ∧ s.Upper PageEntry.Plain := by
    subst hs
    obtain ⟨hsound, hroot⟩ := maps_sound cs zeroed_sound hfs
    exact ⟨hsound, hroot, maps_upper cs plain_innate zeroed_sound (zeroed_upper plain_innate) hfs⟩
  rw [← hroot] at hf
  have hupper' := (mapPage_filled hsound hf).upper _ plain_innate hupper
  obtain ⟨hin, hout⟩ := mapPage_leaf hsound hf hpresent
  have hrange : ∀ i < n, effective (mapPage supply s virt phys flags n) (virt + 4096 * i) =
      some ⟨flags.testBit 1, false, false, flags.testBit 4, false⟩ := by
    intro i hi
    rw [effective_eq hupper']
    exact hin _ _ rfl ⟨i, hi, rfl⟩
  have hother : ∀ b, (∀ i < n, pageNumber b ≠ pageNumber (virt + 4096 * i)) →
      effective (mapPage supply s virt phys flags n) b = effective s b := by
    intro b hb
    rw [effective_eq hupper', effective_eq hupper, hout _ _ rfl]
    exact fun i hi hpath => hb i hi (tablePath_eq_iff.mp hpath)
  constructor
  · rintro ⟨hrights, -⟩
    rcases Nat.eq_zero_or_pos n with h0 | hpos
    · exact .inl h0
    · have heq := (hrange 0 hpos).symm.trans (hrights 0 hpos)
      simp only [requested, Option.some.injEq, Rights.mk.injEq] at heq
      obtain ⟨-, huser, hnx, -, hglobal⟩ := heq
      exact .inr ⟨huser.symm, hglobal.symm, hnx.symm⟩
  · intro h
    refine ⟨fun i hi => ?_, hother⟩
    obtain ⟨huser, hglobal, hnx⟩ := h.resolve_left (by omega)
    rw [hrange i hi, requested, huser, hglobal, hnx]

/-- A page without caching next to one that was mapped before. -/
theorem rights_iff_nocache :
    let supply : Nat → Nat := fun k => 8192 + 4096 * k
    let s := [⟨0x40000000, 0x9000, 1, 1⟩].foldl (Vmm.map supply) (.zeroed 4096 fun _ _ => .zero)
    let s' := mapPage supply s 0x40001000 0x5000 0b10011 1
    effective s' 0x40001000 = some (requested 0b10011) ∧
      effective s' 0x40000000 = effective s 0x40000000 := by
  intro supply s s'
  have hcalls : s'.calls = 3 := by decide +kernel
  have hf : FreshSupply supply 4096 s'.calls := freshSupply_stepped (by omega)
  obtain ⟨hin, hout⟩ := (rights_iff [⟨0x40000000, 0x9000, 1, 1⟩] rfl rfl hf (by decide)).mpr
    (.inr ⟨by decide, by decide, by decide⟩)
  refine ⟨hin 0 Nat.one_pos, hout 0x40000000 ?_⟩
  decide

/-- User access, a global page and an execution ban get lost. -/
theorem rights_lost :
    let supply : Nat → Nat := fun k => 8192 + 4096 * k
    let s := Vmm.zeroed 4096 fun _ _ => .zero
    ∀ flags ∈ [1 ||| 1 <<< 2, 1 ||| 1 <<< 8, 1 ||| 1 <<< 63],
      FreshSupply supply 4096 (mapPage supply s 0x40000000 0x5000 flags 1).calls ∧
        effective (mapPage supply s 0x40000000 0x5000 flags 1) 0x40000000 ≠
          some (requested flags) := by
  intro supply s flags hflags
  have hcalls : ∀ flags ∈ [1 ||| 1 <<< 2, 1 ||| 1 <<< 8, 1 ||| 1 <<< 63],
      (mapPage supply s 0x40000000 0x5000 flags 1).calls = 3 := by decide +kernel
  have hlost : ∀ flags ∈ [1 ||| 1 <<< 2, 1 ||| 1 <<< 8, 1 ||| 1 <<< 63],
      effective (mapPage supply s 0x40000000 0x5000 flags 1) 0x40000000 ≠
        some (requested flags) := by decide +kernel
  refine ⟨?_, hlost flags hflags⟩
  rw [hcalls flags hflags]
  exact freshSupply_stepped (by decide)

end

end TomatoOs.Memory
