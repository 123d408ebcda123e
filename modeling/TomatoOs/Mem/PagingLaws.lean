import TomatoOs.Mem.Paging

/-!
# Mapping and looking up

As long as every table comes from a page that is not a table yet, the tables
form a tree, and `map_page` sets the translations of its range and of no other
page. The tables that it allocates on the way translate nothing.
-/

namespace TomatoOs.Memory

open Lib

/-- The first `m` pages handed out are new tables, each in a page of its own
that an entry can name. -/
def FreshSupply (supply : Nat → Nat) (pml4 m : Nat) : Prop :=
  ∀ k < m, supply k ≠ 0 ∧ supply k % 4096 = 0 ∧ supply k < 2 ^ 40 ∧ supply k ≠ pml4 ∧
    ∀ l < k, supply l ≠ supply k

structure Vmm.Sound (supply : Nat → Nat) (s : Vmm) : Prop where
  tree : Radix.Tree PageEntry.next 3 s.tables s.pml4
  known : ∀ a is, is.length ≤ 3 → s.walk is = some a → a = s.pml4 ∨ ∃ k < s.calls, supply k = a

/-- Tables may have been added, but no translation has changed. -/
structure Vmm.Grown (s s' : Vmm) : Prop where
  pml4 : s'.pml4 = s.pml4
  calls : s.calls ≤ s'.calls
  walk : ∀ js : List Nat, js.length = 4 → s'.walk js = s.walk js

theorem Vmm.Grown.refl (s : Vmm) : s.Grown s := ⟨rfl, Nat.le_refl _, fun _ _ => rfl⟩

theorem Vmm.Grown.trans (h : Vmm.Grown s s') (h' : Vmm.Grown s' s'') : Vmm.Grown s s'' :=
  ⟨h'.pml4.trans h.pml4, Nat.le_trans h.calls h'.calls,
    fun js hjs => (h'.walk js hjs).trans (h.walk js hjs)⟩

section
variable {supply : Nat → Nat} {s s' : Vmm}

theorem FreshSupply.mono (h : FreshSupply supply pml4 m) (hle : k ≤ m) :
    FreshSupply supply pml4 k :=
  fun l hl => h l (Nat.lt_of_lt_of_le hl hle)

theorem Vmm.Sound.unreached (hs : s.Sound supply)
    (hf : FreshSupply supply s.pml4 (s.calls + 1)) :
    Radix.Unreached PageEntry.next 3 s.tables s.pml4 (supply s.calls) := by
  intro is his hw
  obtain ⟨-, -, -, hroot, hearlier⟩ := hf s.calls (Nat.lt_succ_self _)
  rcases hs.known _ is his hw with h | ⟨k, hk, h⟩
  · exact hroot h
  · exact hearlier k hk h

-- ---------------------------------------------------------------------------
-- One level
-- ---------------------------------------------------------------------------

theorem allocateEntry_eq (h : supply s.calls ≠ 0) (table index flags : Nat) :
    ∃ e, (allocateEntry supply s table index flags).1 =
      { s with
        calls := s.calls + 1
        tables := Radix.store (Radix.fill s.tables (supply s.calls) .zero) table index
          (setPageTableEntry e (flags ||| 1 ||| 2) (supply s.calls) 0) } := by
  simp only [allocateEntry, if_neg h]
  exact ⟨_, rfl⟩

theorem allocateEntry_grown (hs : s.Sound supply) (hw : s.walk is = some a) (his : is.length < 3)
    (hnone : (s.tables a i).next = none) (hf : FreshSupply supply s.pml4 (s.calls + 1))
    (he : (allocateEntry supply s a i 2).1 = s') :
    s'.Sound supply ∧ s.Grown s' ∧ s'.walk (is ++ [i]) = some (s'.tables a i).address := by
  obtain ⟨hne, hal, hlt, -, -⟩ := hf s.calls (Nat.lt_succ_self _)
  have hun := hs.unreached hf
  obtain ⟨e, hs'⟩ := allocateEntry_eq hne a i 2
  rw [hs'] at he
  subst he
  have hnext : (setPageTableEntry e (2 ||| 1 ||| 2) (supply s.calls) 0).next =
      some (supply s.calls) := next_set hlt hal
  have hwalk : ∀ {js : List Nat}, js.length ≤ 4 → _ :=
    fun hjs => Radix.walk_hang hs.tree hw his hnone hun next_zero hnext hjs
  refine ⟨⟨hs.tree.hang hw his hnone hun next_zero hnext, ?_⟩, ⟨rfl, by simp, ?_⟩, ?_⟩
  · intro b js hjs hb
    rw [Vmm.walk, hwalk (by omega)] at hb
    split at hb
    · exact .inr ⟨s.calls, Nat.lt_succ_self _, Option.some.inj hb⟩
    · rcases hs.known b js hjs hb with h | ⟨k, hk, h⟩
      · exact .inl h
      · exact .inr ⟨k, Nat.lt_succ_of_lt hk, h⟩
  · intro js hjs
    rw [Vmm.walk, hwalk (by omega), if_neg]
    rintro rfl
    rw [List.length_append, List.length_singleton] at hjs
    omega
  · rw [Vmm.walk, hwalk (by rw [List.length_append, List.length_singleton]; omega), if_pos rfl]
    simp only [Radix.store, true_and, ↓reduceIte]
    rw [address_of_next hnext]

theorem allocateEntry_calls : (allocateEntry supply s table index flags).1.calls = s.calls + 1 := by
  simp only [allocateEntry]
  split <;> rfl

theorem descend_calls (h : descend supply s table index = r) : s.calls ≤ r.1.calls := by
  rw [← h]
  simp only [descend]
  split
  · exact Nat.le_refl _
  · rw [allocateEntry_calls]
    exact Nat.le_succ _

theorem descend_grown (hs : s.Sound supply) (hw : s.walk is = some a) (his : is.length < 3)
    (hf : FreshSupply supply s.pml4 s'.calls) (hd : descend supply s a i = (s', b)) :
    s'.Sound supply ∧ s.Grown s' ∧ s'.walk (is ++ [i]) = some b := by
  by_cases hp : (s.tables a i).present = true
  · simp only [descend, hp, ↓reduceIte, Prod.mk.injEq] at hd
    obtain ⟨rfl, rfl⟩ := hd
    refine ⟨hs, .refl s, ?_⟩
    rw [Vmm.walk] at hw
    rw [Vmm.walk, Radix.walk_snoc, hw, Option.bind_some, PageEntry.next, if_pos hp]
  · simp only [descend, hp, Bool.false_eq_true, ↓reduceIte, Prod.mk.injEq] at hd
    obtain ⟨rfl, rfl⟩ := hd
    rw [allocateEntry_calls] at hf
    have hnone : (s.tables a i).next = none := by rw [PageEntry.next, if_neg hp]
    exact allocateEntry_grown hs hw his hnone hf rfl

-- ---------------------------------------------------------------------------
-- One page, and a range
-- ---------------------------------------------------------------------------

/-- The tables above an address, as the loop of `map_page` builds them. -/
theorem descend_all (hs : s.Sound supply) (h1 : descend supply s s.pml4 i = (s1, pdp))
    (h2 : descend supply s1 pdp j = (s2, pd)) (h3 : descend supply s2 pd k = (s3, pt))
    (hf : FreshSupply supply s.pml4 s3.calls) :
    s3.Sound supply ∧ s.Grown s3 ∧ s3.walk [i, j, k] = some pt := by
  have hle3 := descend_calls h3
  have hle2 := Nat.le_trans (descend_calls h2) hle3
  have hroot : s.walk [] = some s.pml4 := rfl
  obtain ⟨hs1, hg1, hw1⟩ := descend_grown hs hroot (by simp) (hf.mono hle2) h1
  obtain ⟨hs2, hg2, hw2⟩ := descend_grown hs1 hw1 (by simp) (hg1.pml4 ▸ hf.mono hle3) h2
  have hg12 := hg1.trans hg2
  obtain ⟨hs3, hg3, hw3⟩ := descend_grown hs2 hw2 (by simp) (hg12.pml4 ▸ hf) h3
  exact ⟨hs3, hg12.trans hg3, hw3⟩

theorem mapOne_calls : s.calls ≤ (mapOne supply s vir phy flags).calls := by
  simp only [mapOne]
  exact Nat.le_trans (descend_calls rfl) (Nat.le_trans (descend_calls rfl) (descend_calls rfl))

theorem mapOne_walk (hs : s.Sound supply)
    (hf : FreshSupply supply s.pml4 (mapOne supply s vir phy flags).calls) :
    (mapOne supply s vir phy flags).Sound supply ∧
      (mapOne supply s vir phy flags).pml4 = s.pml4 ∧
      ∃ e, ∀ js : List Nat, js.length = 4 → (mapOne supply s vir phy flags).walk js =
        if js = tablePath vir then (setPageTableEntry e flags phy 0).next else s.walk js := by
  obtain ⟨⟨s1, pdp⟩, h1⟩ : ∃ r, descend supply s s.pml4 (tableIndex 39 vir) = r := ⟨_, rfl⟩
  obtain ⟨⟨s2, pd⟩, h2⟩ : ∃ r, descend supply s1 pdp (tableIndex 30 vir) = r := ⟨_, rfl⟩
  obtain ⟨⟨s3, pt⟩, h3⟩ : ∃ r, descend supply s2 pd (tableIndex 21 vir) = r := ⟨_, rfl⟩
  simp only [mapOne, h1, h2, h3] at hf ⊢
  obtain ⟨hs3, hg, hw⟩ := descend_all hs h1 h2 h3 hf
  have hwalk : ∀ {e} {js : List Nat}, js.length ≤ 4 → _ :=
    fun {e} {js} hjs => Radix.walk_store (i := tableIndex 12 vir) (e := e) hs3.tree hw
      (Nat.le_refl 3) (fun h => absurd h (by simp)) hjs
  refine ⟨⟨hs3.tree.store_last hw rfl, ?_⟩, hg.pml4, s3.tables pt (tableIndex 12 vir),
    fun js hjs => ?_⟩
  · intro b js hjs hb
    rw [Vmm.walk, hwalk (by omega), if_neg] at hb
    · exact hs3.known b js hjs hb
    · rintro rfl
      simp at hjs
  · rw [Vmm.walk, hwalk (by omega), ← hg.walk js hjs]
    rfl

theorem mapPage_calls : s.calls ≤ (mapPage supply s virt phys flags n).calls := by
  induction n with
  | zero => exact Nat.le_refl _
  | succ n ih => exact Nat.le_trans ih mapOne_calls

theorem mapPage_sound (hs : s.Sound supply)
    (hf : FreshSupply supply s.pml4 (mapPage supply s virt phys flags n).calls) :
    (mapPage supply s virt phys flags n).Sound supply ∧
      (mapPage supply s virt phys flags n).pml4 = s.pml4 := by
  induction n with
  | zero => exact ⟨hs, rfl⟩
  | succ n ih =>
    obtain ⟨hs', hroot⟩ := ih (hf.mono mapOne_calls)
    obtain ⟨hs'', hroot', -⟩ := mapOne_walk hs' (hroot ▸ hf)
    exact ⟨hs'', hroot'.trans hroot⟩

/-- What the last page of a range asks for that the tables cannot tell from the
page of an address. -/
def asked (virt phys flags : Nat) : Nat → Nat → Option (Option Nat)
  | 0, _ => none
  | n + 1, b =>
    if pageNumber b = pageNumber (virt + 4096 * n) then
      some (frameOf flags (wadd 64 phys (wmul 64 n 4096)))
    else asked virt phys flags n b

theorem mapPage_asked (hs : s.Sound supply)
    (hf : FreshSupply supply s.pml4 (mapPage supply s virt phys flags n).calls) (b : Nat) :
    (mapPage supply s virt phys flags n).walk (tablePath b) =
      (asked virt phys flags n b).getD (s.walk (tablePath b)) := by
  induction n with
  | zero => rfl
  | succ n ih =>
    obtain ⟨hs', hroot⟩ := mapPage_sound hs (hf.mono mapOne_calls)
    obtain ⟨-, -, e, hwalk⟩ := mapOne_walk hs' (hroot ▸ hf)
    rw [mapPage, hwalk _ rfl, tablePath_wrapped, next_eq_frameOf, asked]
    simp only [tablePath_eq_iff]
    split
    · rfl
    · exact ih (hf.mono mapOne_calls)

theorem asked_none (h : ∀ i < n, pageNumber b ≠ pageNumber (virt + 4096 * i)) :
    asked virt phys flags n b = none := by
  induction n with
  | zero => rfl
  | succ n ih =>
    rw [asked, if_neg (h n (Nat.lt_succ_self n))]
    exact ih fun i hi => h i (Nat.lt_succ_of_lt hi)

theorem asked_some (hi : i < n) (hb : pageNumber b = pageNumber (virt + 4096 * i))
    (hn : n ≤ 2 ^ 36) :
    asked virt phys flags n b = some (frameOf flags (wadd 64 phys (wmul 64 i 4096))) := by
  induction n with
  | zero => cases hi
  | succ n ih =>
    rw [asked]
    rcases Nat.eq_or_lt_of_le (Nat.le_of_lt_succ hi) with rfl | hlt
    · rw [if_pos hb]
    · -- the page numbers of so short a range differ
      rw [if_neg, ih hlt (by omega)]
      rw [hb, pageNumber, pageNumber]
      omega

/-- A page of the range translates as asked, and any other page as before. The
pages of the range count from the pages of its two ends. -/
theorem mapPage_range (hs : s.Sound supply)
    (hf : FreshSupply supply s.pml4 (mapPage supply s virt phys flags n).calls)
    (hflags : flags.testBit 0 = true) (hle : phys / 4096 * 4096 + 4096 * n ≤ 2 ^ 40) :
    (∀ i < n, ∀ b, pageNumber b = (virt / 4096 + i) % 2 ^ 36 →
        (mapPage supply s virt phys flags n).walk (tablePath b) =
          some ((phys / 4096 + i) * 4096)) ∧
      ∀ b, (∀ i < n, pageNumber b ≠ (virt / 4096 + i) % 2 ^ 36) →
        (mapPage supply s virt phys flags n).walk (tablePath b) = s.walk (tablePath b) := by
  have hpage : ∀ i, pageNumber (virt + 4096 * i) = (virt / 4096 + i) % 2 ^ 36 := by
    intro i
    rw [pageNumber]
    omega
  refine ⟨fun i hi b hb => ?_, fun b hb => ?_⟩
  · rw [mapPage_asked hs hf, asked_some hi (hb.trans (hpage i).symm) (by omega),
      wmul_eq (by omega), wadd_eq (by omega), frameOf, if_pos hflags, Option.getD_some,
      Option.some.injEq]
    omega
  · rw [mapPage_asked hs hf, asked_none fun i hi => (hpage i).symm ▸ hb i hi]
    rfl

-- ---------------------------------------------------------------------------
-- From an empty root table
-- ---------------------------------------------------------------------------

structure MapCall where
  virt : Nat
  phys : Nat
  flags : Nat
  numPages : Nat

def Vmm.map (supply : Nat → Nat) (s : Vmm) (c : MapCall) : Vmm :=
  mapPage supply s c.virt c.phys c.flags c.numPages

/-- `PML4` after its `memset`, whatever the rest of the memory holds. -/
def Vmm.zeroed (pml4 : Nat) (memory : Radix.Nodes PageEntry) : Vmm :=
  { pml4, tables := Radix.fill memory pml4 .zero, calls := 0 }

theorem zeroed_walk (h : is ≠ []) : (Vmm.zeroed pml4 memory).walk is = none := by
  cases is with
  | nil => exact absurd rfl h
  | cons i is => simp [Vmm.zeroed, Vmm.walk, Radix.walk, Radix.fill, next_zero]

theorem zeroed_sound : (Vmm.zeroed pml4 memory).Sound supply := by
  have hwalk : ∀ is a, (Vmm.zeroed pml4 memory).walk is = some a → is = [] ∧ a = pml4 := by
    intro is a h
    cases is with
    | nil =>
      cases h
      exact ⟨rfl, rfl⟩
    | cons i is =>
      rw [zeroed_walk (List.cons_ne_nil i is)] at h
      cases h
  refine ⟨fun a is js _ _ hi hj => ?_, fun a is _ h => .inl (hwalk is a h).2⟩
  rw [(hwalk is a hi).1, (hwalk js a hj).1]

theorem maps_calls (cs : List MapCall) : s.calls ≤ (cs.foldl (Vmm.map supply) s).calls := by
  induction cs generalizing s with
  | nil => exact Nat.le_refl _
  | cons c cs ih => exact Nat.le_trans mapPage_calls ih

theorem maps_sound (cs : List MapCall) (hs : s.Sound supply)
    (hf : FreshSupply supply s.pml4 (cs.foldl (Vmm.map supply) s).calls) :
    (cs.foldl (Vmm.map supply) s).Sound supply ∧
      (cs.foldl (Vmm.map supply) s).pml4 = s.pml4 := by
  induction cs generalizing s with
  | nil => exact ⟨hs, rfl⟩
  | cons c cs ih =>
    obtain ⟨hs', hroot⟩ := mapPage_sound hs (hf.mono (maps_calls cs))
    obtain ⟨hs'', hroot'⟩ := ih hs' (hroot ▸ hf)
    exact ⟨hs'', hroot'.trans hroot⟩

/-- The range is translated as asked, and every other page as before. That the
range lies below `2 ^ 40` makes the page numbers distinct. -/
theorem map_lookup (cs : List MapCall) (hs : cs.foldl (Vmm.map supply) (.zeroed pml4 memory) = s)
    (hs' : mapPage supply s virt phys flags n = s') (hf : FreshSupply supply pml4 s'.calls)
    (hv : virt % 4096 = 0) (hp : phys % 4096 = 0) (hflags : flags.testBit 0 = true)
    (hle : phys + 4096 * n ≤ 2 ^ 40) :
    (∀ a, virt ≤ a → a < virt + 4096 * n → getPhysicalAddress s' a = phys + (a - virt)) ∧
      ∀ b, (∀ i < n, pageNumber b ≠ pageNumber (virt + 4096 * i)) →
        getPhysicalAddress s' b = getPhysicalAddress s b := by
  subst hs'
  have hfs : FreshSupply supply pml4 s.calls := hf.mono mapPage_calls
  obtain ⟨hsound, hroot⟩ : s.Sound supply ∧ s.pml4 = pml4 := by
    subst hs
    exact maps_sound cs zeroed_sound hfs
  rw [← hroot] at hf
  obtain ⟨hin, hout⟩ := mapPage_range hsound hf hflags (by omega)
  refine ⟨fun a hlo hhi => ?_, fun b hb => ?_⟩
  · have hwalk := hin ((a - virt) / 4096) (by omega) a (by rw [pageNumber]; omega)
    rw [getPhysicalAddress_eq, hwalk]
    simp only
    rw [wadd_eq (by omega)]
    omega
  · rw [getPhysicalAddress_eq, getPhysicalAddress_eq, hout b fun i hi => ?_]
    have hne := hb i hi
    rw [pageNumber] at hne ⊢
    rw [pageNumber] at hne
    omega

theorem freshSupply_stepped (h : n ≤ 1024) : FreshSupply (fun k => 8192 + 4096 * k) 4096 n := by
  intro k hk
  dsimp only
  exact ⟨by omega, by omega, by omega, by omega, fun l hl => by omega⟩

/-- Two pages across a boundary of the two upper levels, the second of them
mapped before. -/
theorem map_lookup_two :
    let supply : Nat → Nat := fun k => 8192 + 4096 * k
    let s := [⟨0x40000000, 0x9000, 1, 1⟩].foldl (Vmm.map supply) (.zeroed 4096 fun _ _ => .zero)
    let s' := mapPage supply s 0x3FFFF000 0x5000 3 2
    s'.calls = 5 ∧ getPhysicalAddress s 0x40000123 = 0x9123 ∧
      getPhysicalAddress s' 0x3FFFF008 = 0x5008 ∧ getPhysicalAddress s' 0x40000123 = 0x6123 := by
  intro supply s s'
  have hcalls : s'.calls = 5 := by decide +kernel
  have hf : FreshSupply supply 4096 s'.calls := freshSupply_stepped (by omega)
  have h := (map_lookup [⟨0x40000000, 0x9000, 1, 1⟩] rfl rfl hf (by decide) (by decide)
    (by decide) (by decide)).1
  exact ⟨hcalls, by decide +kernel, h 0x3FFFF008 (by decide) (by decide),
    h 0x40000123 (by decide) (by decide)⟩

end

end TomatoOs.Memory
