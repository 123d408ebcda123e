import TomatoOs.Mem.PagingLaws

/-!
# The entries of the tables

What `map_page` does to the tables entry by entry, and not only to the
translations they give: which tables it adds and how many, that an entry above
the last level keeps what `allocateEntry` put there, and which entries of the
last level it sets.
-/

namespace TomatoOs.Memory

open Lib

abbrev Vmm.entry (s : Vmm) (is : List Nat) (i : Nat) : Option PageEntry :=
  Radix.entry PageEntry.next s.tables s.pml4 is i

def Vmm.leaf (s : Vmm) (is : List Nat) (i : Nat) : Option PageEntry :=
  (s.entry is i).filter (·.present)

def Vmm.Upper (P : PageEntry → Prop) (s : Vmm) : Prop :=
  ∀ is i e, is.length < 3 → s.entry is i = some e → P e

/-- Cleared entries satisfy `P`, and so do the ones that `allocateEntry` sets. -/
structure Innate (P : PageEntry → Prop) : Prop where
  zero : P .zero
  table : ∀ e phys, P (setPageTableEntry e 3 phys 0)

/-- `s'` is `s` with the next page that is handed out as the table behind entry
`i` of the table at `is`. -/
structure Vmm.Hung (supply : Nat → Nat) (s s' : Vmm) (is : List Nat) (i : Nat) : Prop where
  depth : is.length < 3
  pml4 : s'.pml4 = s.pml4
  calls : s'.calls = s.calls + 1
  absent : s.walk (is ++ [i]) = none
  walk : ∀ js : List Nat, js.length ≤ 4 →
    s'.walk js = if js = is ++ [i] then some (supply s.calls) else s.walk js
  entry : ∃ e, ∀ (js : List Nat) j, js.length ≤ 3 → s'.entry js j =
    if js = is ++ [i] then some .zero
    else if js = is ∧ j = i then some (setPageTableEntry e 3 (supply s.calls) 0)
    else s.entry js j

/-- `s'` has the tables of `s` and those at `new`, each in a page that was handed
out in between. -/
structure Vmm.Filled (supply : Nat → Nat) (s s' : Vmm) (new : Finset (List Nat)) : Prop where
  pml4 : s'.pml4 = s.pml4
  calls : s'.calls = s.calls + new.card
  absent : ∀ js ∈ new, s.walk js = none
  absent_iff : ∀ js : List Nat, js.length ≤ 3 →
    (s'.walk js = none ↔ s.walk js = none ∧ js ∉ new)
  known : ∀ js a, js.length ≤ 3 → s'.walk js = some a →
    s.walk js = some a ∨ ∃ k, s.calls ≤ k ∧ k < s'.calls ∧ supply k = a
  upper : ∀ P, Innate P → s.Upper P → s'.Upper P

section
variable {supply : Nat → Nat} {s s' s'' : Vmm} {P : PageEntry → Prop}

theorem Vmm.walk_snoc (s : Vmm) (is : List Nat) (i : Nat) :
    s.walk (is ++ [i]) = (s.walk is).bind fun a => (s.tables a i).next := Radix.walk_snoc ..

theorem Vmm.entry_eq (s : Vmm) (is : List Nat) (i : Nat) :
    s.entry is i = (s.walk is).map fun a => s.tables a i := rfl

-- ---------------------------------------------------------------------------
-- One table
-- ---------------------------------------------------------------------------

theorem allocateEntry_hung (hs : s.Sound supply) (hw : s.walk is = some a) (his : is.length < 3)
    (hnone : (s.tables a i).next = none) (hf : FreshSupply supply s.pml4 (s.calls + 1))
    (he : (allocateEntry supply s a i 2).1 = s') : s.Hung supply s' is i := by
  obtain ⟨hne, hal, hlt, -, -⟩ := hf s.calls (Nat.lt_succ_self _)
  have hun := hs.unreached hf
  obtain ⟨e, hs'⟩ := allocateEntry_eq hne a i 2
  rw [hs'] at he
  subst he
  have hnext : (setPageTableEntry e 3 (supply s.calls) 0).next = some (supply s.calls) :=
    next_set hlt hal
  refine ⟨his, rfl, rfl, ?_, fun js hjs => ?_, e, fun js j hjs => ?_⟩
  · rw [Vmm.walk_snoc, hw]
    exact hnone
  · exact Radix.walk_hang hs.tree hw his hnone hun next_zero hnext hjs
  · exact Radix.entry_hang hs.tree hw his hnone hun next_zero hnext hjs

theorem descend_hung (hs : s.Sound supply) (hw : s.walk is = some a) (his : is.length < 3)
    (hf : FreshSupply supply s.pml4 s'.calls) (hd : descend supply s a i = (s', b)) :
    s' = s ∧ s.walk (is ++ [i]) = some b ∨ s.Hung supply s' is i := by
  by_cases hp : (s.tables a i).present = true
  · simp only [descend, hp, ↓reduceIte, Prod.mk.injEq] at hd
    obtain ⟨rfl, rfl⟩ := hd
    refine .inl ⟨rfl, ?_⟩
    rw [Vmm.walk_snoc, hw, Option.bind_some, PageEntry.next, if_pos hp]
  · simp only [descend, hp, Bool.false_eq_true, ↓reduceIte, Prod.mk.injEq] at hd
    obtain ⟨rfl, -⟩ := hd
    rw [allocateEntry_calls] at hf
    have hnone : (s.tables a i).next = none := by rw [PageEntry.next, if_neg hp]
    exact .inr (allocateEntry_hung hs hw his hnone hf rfl)

theorem Vmm.Hung.upper (h : s.Hung supply s' is i) (hP : Innate P) (hu : s.Upper P) :
    s'.Upper P := by
  intro js j e hjs he
  obtain ⟨e', hentry⟩ := h.entry
  rw [hentry js j (by omega)] at he
  split at he
  · cases he
    exact hP.zero
  split at he
  · cases he
    exact hP.table ..
  · exact hu js j e hjs he

theorem Vmm.Hung.leaf (h : s.Hung supply s' is i) (hjs : js.length = 3) :
    s'.leaf js j = s.leaf js j := by
  obtain ⟨e, hentry⟩ := h.entry
  have hdepth := h.depth
  rw [Vmm.leaf, hentry js j (by omega)]
  split
  · -- the page has lost nothing: its table was not there
    rename_i hnew
    rw [Vmm.leaf, Vmm.entry_eq, hnew, h.absent]
    rfl
  · rw [if_neg, Vmm.leaf]
    rintro ⟨rfl, -⟩
    omega

theorem Vmm.Hung.filled (h : s.Hung supply s' is i) : s.Filled supply s' {is ++ [i]} where
  pml4 := h.pml4
  calls := h.calls
  absent := by
    intro js hjs
    rw [Finset.mem_singleton.mp hjs]
    exact h.absent
  absent_iff := by
    intro js hjs
    rw [h.walk js (by omega), Finset.mem_singleton]
    split
    · rename_i hnew
      simp [hnew]
    · rename_i hne
      simp [hne]
  known := by
    intro js a hjs ha
    rw [h.walk js (by omega)] at ha
    split at ha
    · have := h.calls
      exact .inr ⟨s.calls, Nat.le_refl _, by omega, Option.some.inj ha⟩
    · exact .inl ha
  upper := fun _ hP hu => h.upper hP hu

-- ---------------------------------------------------------------------------
-- Several tables
-- ---------------------------------------------------------------------------

theorem Vmm.Filled.refl (supply : Nat → Nat) (s : Vmm) : s.Filled supply s ∅ where
  pml4 := rfl
  calls := rfl
  absent := by simp
  absent_iff := by simp
  known := fun _ _ _ h => .inl h
  upper := fun _ _ hu => hu

theorem Vmm.Filled.trans (h : s.Filled supply s' new) (h' : s'.Filled supply s'' new')
    (hlen : ∀ js ∈ new', js.length ≤ 3) : s.Filled supply s'' (new ∪ new') where
  pml4 := h'.pml4.trans h.pml4
  calls := by
    have hdisj : Disjoint new new' := by
      rw [Finset.disjoint_left]
      intro js hjs hjs'
      exact ((h.absent_iff js (hlen js hjs')).mp (h'.absent js hjs')).2 hjs
    rw [h'.calls, h.calls, Finset.card_union_of_disjoint hdisj, Nat.add_assoc]
  absent := by
    intro js hjs
    rcases Finset.mem_union.mp hjs with hjs | hjs
    · exact h.absent js hjs
    · exact ((h.absent_iff js (hlen js hjs)).mp (h'.absent js hjs)).1
  absent_iff := by
    intro js hjs
    rw [h'.absent_iff js hjs, h.absent_iff js hjs, Finset.mem_union, not_or, and_assoc]
  known := by
    intro js a hjs ha
    have hle := h'.calls
    have hle' := h.calls
    rcases h'.known js a hjs ha with ha | ⟨k, hlo, hhi, hk⟩
    · rcases h.known js a hjs ha with ha | ⟨k, hlo, hhi, hk⟩
      · exact .inl ha
      · exact .inr ⟨k, hlo, by omega, hk⟩
    · exact .inr ⟨k, by omega, hhi, hk⟩
  upper := fun P hP hu => h'.upper P hP (h.upper P hP hu)

def Vmm.lacks (s : Vmm) (paths : Finset (List Nat)) : Finset (List Nat) :=
  paths.filter fun js => s.walk js = none

theorem Vmm.mem_lacks : js ∈ s.lacks paths ↔ js ∈ paths ∧ s.walk js = none := Finset.mem_filter

theorem Vmm.Filled.lacks (h : s.Filled supply s' (s.lacks paths))
    (hlen : ∀ js ∈ paths', js.length ≤ 3) :
    s.lacks paths ∪ s'.lacks paths' = s.lacks (paths ∪ paths') := by
  ext js
  rw [Finset.mem_union, Vmm.mem_lacks, Vmm.mem_lacks, Vmm.mem_lacks, Finset.mem_union]
  constructor
  · rintro (⟨hjs, hnone⟩ | ⟨hjs, hnone⟩)
    · exact ⟨.inl hjs, hnone⟩
    · exact ⟨.inr hjs, ((h.absent_iff js (hlen js hjs)).mp hnone).1⟩
  · rintro ⟨hjs | hjs, hnone⟩
    · exact .inl ⟨hjs, hnone⟩
    · by_cases hin : js ∈ s.lacks paths
      · exact .inl (Vmm.mem_lacks.mp hin)
      · exact .inr ⟨hjs, (h.absent_iff js (hlen js hjs)).mpr ⟨hnone, hin⟩⟩

theorem Vmm.Filled.then (h : s.Filled supply s' (s.lacks paths))
    (h' : s'.Filled supply s'' (s'.lacks paths')) (hlen : ∀ js ∈ paths', js.length ≤ 3) :
    s.Filled supply s'' (s.lacks (paths ∪ paths')) := by
  rw [← h.lacks hlen]
  exact h.trans h' fun js hjs => hlen js (Vmm.mem_lacks.mp hjs).1

/-- What is missing of two sets of tables is missing of the first, or still
missing of the second once the first is there. -/
theorem Vmm.Filled.calls_add (h : s.Filled supply s' (s.lacks paths))
    (hlen : ∀ js ∈ paths', js.length ≤ 3) :
    s'.calls + (s'.lacks paths').card = s.calls + (s.lacks (paths ∪ paths')).card := by
  have hdisj : Disjoint (s.lacks paths) (s'.lacks paths') := by
    rw [Finset.disjoint_left]
    intro js hjs hjs'
    obtain ⟨hin, hnone⟩ := Vmm.mem_lacks.mp hjs'
    exact ((h.absent_iff js (hlen js hin)).mp hnone).2 hjs
  rw [← h.lacks hlen, Finset.card_union_of_disjoint hdisj, h.calls, Nat.add_assoc]

theorem Vmm.lacks_singleton (s : Vmm) (js : List Nat) :
    s.lacks {js} = if s.walk js = none then {js} else ∅ := Finset.filter_singleton ..

theorem descend_filled (hs : s.Sound supply) (hw : s.walk is = some a) (his : is.length < 3)
    (hf : FreshSupply supply s.pml4 s'.calls) (hd : descend supply s a i = (s', b)) :
    s.Filled supply s' (s.lacks {is ++ [i]}) ∧
      ∀ js j, js.length = 3 → s'.leaf js j = s.leaf js j := by
  rw [Vmm.lacks_singleton]
  rcases descend_hung hs hw his hf hd with ⟨rfl, hb⟩ | h
  · rw [if_neg (by rw [hb]; exact nofun)]
    exact ⟨.refl supply s', fun _ _ _ => rfl⟩
  · rw [if_pos h.absent]
    exact ⟨h.filled, fun js j hjs => h.leaf hjs⟩

-- ---------------------------------------------------------------------------
-- The way to a page
-- ---------------------------------------------------------------------------

def descendAlong (supply : Nat → Nat) (s : Vmm) (table : Nat) : List Nat → Vmm × Nat
  | [] => (s, table)
  | i :: is => descendAlong supply (descend supply s table i).1 (descend supply s table i).2 is

def pathsAlong (is : List Nat) : List Nat → Finset (List Nat)
  | [] => ∅
  | j :: js => {is ++ [j]} ∪ pathsAlong (is ++ [j]) js

def upperPath (virt : Nat) : List Nat :=
  [tableIndex 39 virt, tableIndex 30 virt, tableIndex 21 virt]

theorem tablePath_eq (virt : Nat) : tablePath virt = upperPath virt ++ [tableIndex 12 virt] := rfl

theorem mapOne_eq (supply : Nat → Nat) (s : Vmm) (vir phy flags : Nat) :
    mapOne supply s vir phy flags =
      { (descendAlong supply s s.pml4 (upperPath vir)).1 with
        tables := Radix.store (descendAlong supply s s.pml4 (upperPath vir)).1.tables
          (descendAlong supply s s.pml4 (upperPath vir)).2 (tableIndex 12 vir)
          (setPageTableEntry ((descendAlong supply s s.pml4 (upperPath vir)).1.tables
            (descendAlong supply s s.pml4 (upperPath vir)).2 (tableIndex 12 vir)) flags phy 0) } :=
  rfl

theorem pathsAlong_length (h : ks ∈ pathsAlong is js) : ks.length ≤ is.length + js.length := by
  induction js generalizing is with
  | nil => simp [pathsAlong] at h
  | cons j js ih =>
    rw [pathsAlong, Finset.mem_union, Finset.mem_singleton] at h
    rcases h with rfl | h
    · simp
    · have := ih h
      simp only [List.length_append, List.length_cons, List.length_nil] at this ⊢
      omega

theorem descendAlong_calls (js : List Nat) : s.calls ≤ (descendAlong supply s a js).1.calls := by
  induction js generalizing s a with
  | nil => exact Nat.le_refl _
  | cons j js ih => exact Nat.le_trans (descend_calls rfl) ih

theorem descendAlong_filled (is js : List Nat) (hs : s.Sound supply) (hw : s.walk is = some a)
    (hlen : is.length + js.length ≤ 3)
    (hf : FreshSupply supply s.pml4 (descendAlong supply s a js).1.calls) :
    (descendAlong supply s a js).1.Sound supply ∧
      (descendAlong supply s a js).1.walk (is ++ js) = some (descendAlong supply s a js).2 ∧
      s.Filled supply (descendAlong supply s a js).1 (s.lacks (pathsAlong is js)) ∧
      ∀ ks k, ks.length = 3 → (descendAlong supply s a js).1.leaf ks k = s.leaf ks k := by
  induction js generalizing s a is with
  | nil =>
    rw [List.append_nil]
    exact ⟨hs, hw, .refl supply s, fun _ _ _ => rfl⟩
  | cons j js ih =>
    obtain ⟨⟨s', b⟩, hd⟩ : ∃ r, descend supply s a j = r := ⟨_, rfl⟩
    rw [List.length_cons] at hlen
    simp only [descendAlong, hd] at hf ⊢
    have hf' := hf.mono (descendAlong_calls js)
    obtain ⟨hs', hg, hb⟩ := descend_grown hs hw (by omega) hf' hd
    obtain ⟨hfirst, hleaf⟩ := descend_filled hs hw (by omega) hf' hd
    have hlen' : (is ++ [j]).length + js.length ≤ 3 := by
      rw [List.length_append, List.length_singleton]
      omega
    obtain ⟨hs'', hw'', hrest, hleaf'⟩ := ih _ hs' hb hlen' (hg.pml4 ▸ hf)
    rw [List.append_assoc, List.singleton_append] at hw''
    refine ⟨hs'', hw'', hfirst.then hrest fun ks hks => ?_, fun ks k hks => ?_⟩
    · exact Nat.le_trans (pathsAlong_length hks) hlen'
    · rw [hleaf' ks k hks, hleaf ks k hks]

-- ---------------------------------------------------------------------------
-- A page, and a range
-- ---------------------------------------------------------------------------

def tablesAbove (virt : Nat) : Finset (List Nat) := pathsAlong [] (upperPath virt)

theorem tablesAbove_length (h : js ∈ tablesAbove virt) : js.length ≤ 3 := pathsAlong_length h

theorem Vmm.Sound.store_leaf (hs : s.Sound supply) (hw : s.walk is = some a) (his : is.length = 3)
    (e : PageEntry) :
    s.Filled supply { s with tables := Radix.store s.tables a i e } ∅ := by
  have hwalk : ∀ js : List Nat, js.length ≤ 3 →
      Radix.walk PageEntry.next (Radix.store s.tables a i e) s.pml4 js = s.walk js := by
    intro js hjs
    rw [Radix.walk_store hs.tree hw (by omega) (by omega) (by omega), if_neg]
    rintro rfl
    rw [List.length_append, List.length_singleton] at hjs
    omega
  refine ⟨rfl, rfl, by simp, fun js hjs => ?_, fun js a hjs ha => ?_,
    fun P _ hu js j e' hjs he => ?_⟩
  · rw [Vmm.walk, hwalk js hjs]
    simp
  · rw [Vmm.walk, hwalk js hjs] at ha
    exact .inl ha
  · rw [Vmm.entry, Radix.entry_store_last hs.tree hw his (by omega), if_neg] at he
    · exact hu js j e' hjs he
    · rintro ⟨rfl, -⟩
      omega

theorem mapOne_filled (hs : s.Sound supply)
    (hf : FreshSupply supply s.pml4 (mapOne supply s vir phy flags).calls) :
    s.Filled supply (mapOne supply s vir phy flags) (s.lacks (tablesAbove vir)) := by
  obtain ⟨hs', hw, hfill, -⟩ := descendAlong_filled [] (upperPath vir) hs rfl
    (Nat.le_refl 3) hf
  rw [mapOne_eq, ← Finset.union_empty (s.lacks (tablesAbove vir))]
  exact hfill.trans (hs'.store_leaf hw rfl _) (by simp)

/-- `map_page` sets the entry of the page, if it is to be present, and no other. -/
theorem mapOne_leaf (hs : s.Sound supply)
    (hf : FreshSupply supply s.pml4 (mapOne supply s vir phy flags).calls) :
    ∃ e, ∀ js j, js.length = 3 → (mapOne supply s vir phy flags).leaf js j =
      if js ++ [j] = tablePath vir then
        (some (setPageTableEntry e flags phy 0)).filter (·.present)
      else s.leaf js j := by
  obtain ⟨hs', hw, -, hleaf⟩ := descendAlong_filled [] (upperPath vir) hs rfl
    (Nat.le_refl 3) hf
  rw [mapOne_eq]
  generalize descendAlong supply s s.pml4 (upperPath vir) = r at *
  refine ⟨r.1.tables r.2 (tableIndex 12 vir), fun js j hjs => ?_⟩
  rw [← hleaf js j hjs, Vmm.leaf, Vmm.entry, Radix.entry_store_last hs'.tree hw rfl (by omega),
    tablePath_eq]
  simp only [List.append_singleton_inj, List.nil_append]
  split <;> rfl

def rangeTables (virt : Nat) : Nat → Finset (List Nat)
  | 0 => ∅
  | n + 1 => rangeTables virt n ∪ tablesAbove (virt + 4096 * n)

theorem tablesAbove_wrapped (virt n : Nat) :
    tablesAbove (wadd 64 virt (wmul 64 n 4096)) = tablesAbove (virt + 4096 * n) := by
  have hpath := tablePath_wrapped virt n
  rw [tablePath_eq, tablePath_eq, List.append_singleton_inj] at hpath
  rw [tablesAbove, hpath.1, tablesAbove]

/-- A range needs exactly the tables that it lacks. -/
theorem mapPage_filled (hs : s.Sound supply)
    (hf : FreshSupply supply s.pml4 (mapPage supply s virt phys flags n).calls) :
    s.Filled supply (mapPage supply s virt phys flags n) (s.lacks (rangeTables virt n)) := by
  induction n with
  | zero => exact .refl supply s
  | succ n ih =>
    have hf' := hf.mono mapOne_calls
    obtain ⟨hs', hroot⟩ := mapPage_sound hs hf'
    have hstep := mapOne_filled hs' (hroot ▸ hf)
    rw [tablesAbove_wrapped] at hstep
    exact (ih hf').then hstep fun js hjs => tablesAbove_length hjs

-- ---------------------------------------------------------------------------
-- From an empty root table
-- ---------------------------------------------------------------------------

theorem zeroed_upper {P : PageEntry → Prop} (hP : Innate P) : (Vmm.zeroed pml4 memory).Upper P := by
  intro is i e _ he
  cases is with
  | nil =>
    have hz : some PageEntry.zero = some e := by
      rw [← he]
      simp [Vmm.zeroed, Vmm.entry_eq, Radix.fill]
    cases hz
    exact hP.zero
  | cons j is =>
    rw [Vmm.entry_eq, zeroed_walk (List.cons_ne_nil j is)] at he
    cases he

theorem maps_upper {P : PageEntry → Prop} (cs : List MapCall) (hP : Innate P)
    (hs : s.Sound supply) (hu : s.Upper P)
    (hf : FreshSupply supply s.pml4 (cs.foldl (Vmm.map supply) s).calls) :
    (cs.foldl (Vmm.map supply) s).Upper P := by
  induction cs generalizing s with
  | nil => exact hu
  | cons c cs ih =>
    have hfc := hf.mono (maps_calls cs)
    obtain ⟨hs', hroot⟩ := mapPage_sound hs hfc
    exact ih hs' ((mapPage_filled hs hfc).upper P hP hu) (hroot ▸ hf)

end

end TomatoOs.Memory
