import TomatoOs.Mem.Entries

/-!
# Mapping when pages run out

`map_page` does not look at what `allocateEntry` returns. Where a table could
not be made, it goes on behind an entry that is not present: the entry's address
is zero, so that it takes page zero of the memory for a table and writes to it.
`maps_cleanly_iff` says how many pages it takes for this not to happen.
-/

namespace TomatoOs.Memory

open Lib

section
variable (supply : Nat → Nat)

/-- The pages that one level of `map_page` writes to: a new table, and the table
that leads to it. -/
def descendWrites (s : Vmm) (table index : Nat) : List Nat :=
  if (s.tables table index).present then []
  else if supply s.calls = 0 then [] else [supply s.calls, table]

def descendAlongWrites (s : Vmm) (table : Nat) : List Nat → List Nat
  | [] => []
  | i :: is => descendWrites supply s table i ++
      descendAlongWrites (descend supply s table i).1 (descend supply s table i).2 is

/-- The pages that the body of the loop writes to, the one with the page's own
entry last. -/
def mapOneWrites (s : Vmm) (vir : Nat) : List Nat :=
  descendAlongWrites supply s s.pml4 (upperPath vir) ++
    [(descendAlong supply s s.pml4 (upperPath vir)).2]

def mapPageWrites (s : Vmm) (virt phys flags : Nat) : Nat → List Nat
  | 0 => []
  | i + 1 => mapPageWrites s virt phys flags i ++
      mapOneWrites supply (mapPage supply s virt phys flags i) (wadd 64 virt (wmul 64 i 4096))

end

def Vmm.Table (s : Vmm) (a : Nat) : Prop := ∃ is, is.length ≤ 3 ∧ s.walk is = some a

def Vmm.Owns (supply : Nat → Nat) (s s' : Vmm) (a : Nat) : Prop :=
  s.Table a ∨ ∃ k, s.calls ≤ k ∧ k < s'.calls ∧ supply k = a ∧ a ≠ 0

/-- A call of `map_page` writes to tables only, and leaves the translations of
addresses outside its range. -/
structure Vmm.MapsCleanly (supply : Nat → Nat) (s : Vmm) (virt phys flags n : Nat) : Prop where
  writes : ∀ a ∈ mapPageWrites supply s virt phys flags n,
    s.Owns supply (mapPage supply s virt phys flags n) a
  outside : ∀ b, Canonical b → b < virt ∨ virt + 4096 * n ≤ b →
    (mapPage supply s virt phys flags n).walk (tablePath b) = s.walk (tablePath b)

/-- The same tables in a memory that may hold anything else elsewhere. -/
structure Vmm.SameTables (s t : Vmm) : Prop where
  pml4 : t.pml4 = s.pml4
  calls : t.calls = s.calls
  tables : ∀ a, s.Table a → t.tables a = s.tables a

/-- What the entries above the last level hold that lead nowhere. -/
def PageEntry.Blank (e : PageEntry) : Prop := e.present = false → e.address = 0

structure StopsAt (supply : Nat → Nat) (pml4 m : Nat) : Prop where
  fresh : FreshSupply supply pml4 m
  stop : ∀ k, m ≤ k → supply k = 0

/-- An address outside the range whose page is one of the range's, as far as the
tables can tell, is translated already as the range asks. -/
def Vmm.Unshared (s : Vmm) (virt phys flags n : Nat) : Prop :=
  ∀ b, Canonical b → b < virt ∨ virt + 4096 * n ≤ b →
    ∀ t, asked virt phys flags n b = some t → s.walk (tablePath b) = t

theorem blank_innate : Innate PageEntry.Blank where
  zero := fun _ => rfl
  table := by
    intro e phys h
    cases h

section
variable {supply : Nat → Nat} {s s' t : Vmm}

-- ---------------------------------------------------------------------------
-- Pages that are not written to
-- ---------------------------------------------------------------------------

theorem descend_frame (h : c ∉ descendWrites supply s a i) :
    (descend supply s a i).1.tables c = s.tables c := by
  simp only [descendWrites] at h
  simp only [descend]
  split at h
  · rename_i hp
    rw [if_pos hp]
  · rename_i hp
    rw [if_neg hp, allocateEntry]
    split at h
    · rename_i h0
      simp only [if_pos h0]
    · rename_i h0
      simp only [List.mem_cons, List.not_mem_nil, or_false, not_or] at h
      obtain ⟨hnew, htable⟩ := h
      funext j
      simp [if_neg h0, Radix.store, Radix.fill, hnew, htable]

theorem descendAlong_frame (h : c ∉ descendAlongWrites supply s a is) :
    (descendAlong supply s a is).1.tables c = s.tables c := by
  induction is generalizing s a with
  | nil => rfl
  | cons i is ih =>
    rw [descendAlongWrites, List.mem_append, not_or] at h
    rw [descendAlong, ih h.2, descend_frame h.1]

theorem mapOne_frame (h : c ∉ mapOneWrites supply s vir) :
    (mapOne supply s vir phy flags).tables c = s.tables c := by
  rw [mapOneWrites, List.mem_append, not_or, List.mem_singleton] at h
  rw [mapOne_eq, ← descendAlong_frame h.1]
  funext j
  simp [Radix.store, h.2]

theorem mapPage_frame (h : c ∉ mapPageWrites supply s virt phys flags n) :
    (mapPage supply s virt phys flags n).tables c = s.tables c := by
  induction n with
  | zero => rfl
  | succ n ih =>
    rw [mapPageWrites, List.mem_append, not_or] at h
    rw [mapPage, mapOne_frame h.2, ih h.1]

-- ---------------------------------------------------------------------------
-- While pages are handed out
-- ---------------------------------------------------------------------------

theorem Vmm.Owns.mono (h : s.Owns supply s' a) (hle : s'.calls ≤ t.calls) :
    s.Owns supply t a := by
  rcases h with h | ⟨k, hlo, hhi, hk⟩
  · exact .inl h
  · exact .inr ⟨k, hlo, Nat.lt_of_lt_of_le hhi hle, hk⟩

theorem Vmm.Filled.owns (h : s.Filled supply s' new) (hf : FreshSupply supply s.pml4 t.calls)
    (hle : s'.calls ≤ t.calls) (ha : s'.Owns supply t a) : s.Owns supply t a := by
  have hcalls := h.calls
  rcases ha with ⟨is, his, hw⟩ | ⟨k, hlo, hhi, hk⟩
  · rcases h.known is a his hw with hw | ⟨k, hlo, hhi, rfl⟩
    · exact .inl ⟨is, his, hw⟩
    · exact .inr ⟨k, hlo, by omega, rfl, (hf k (by omega)).1⟩
  · exact .inr ⟨k, by omega, hhi, hk⟩

theorem descend_writes (hw : s.walk is = some a) (his : is.length ≤ 3)
    (hc : c ∈ descendWrites supply s a i) : s.Owns supply (descend supply s a i).1 c := by
  simp only [descendWrites] at hc
  split at hc
  · cases hc
  rename_i hp
  split at hc
  · cases hc
  rename_i h0
  simp only [List.mem_cons, List.not_mem_nil, or_false] at hc
  rcases hc with rfl | rfl
  · refine .inr ⟨s.calls, Nat.le_refl _, ?_, rfl, h0⟩
    simp only [descend, if_neg hp, allocateEntry_calls]
    omega
  · exact .inl ⟨is, his, hw⟩

theorem descendAlong_writes (is js : List Nat) (hs : s.Sound supply) (hw : s.walk is = some a)
    (hlen : is.length + js.length ≤ 3)
    (hf : FreshSupply supply s.pml4 (descendAlong supply s a js).1.calls)
    (hc : c ∈ descendAlongWrites supply s a js) :
    s.Owns supply (descendAlong supply s a js).1 c := by
  induction js generalizing s a is with
  | nil => cases hc
  | cons j js ih =>
    rw [List.length_cons] at hlen
    have hf' := hf.mono (descendAlong_calls js)
    obtain ⟨hs', hg, hb⟩ := descend_grown hs hw (by omega) hf' rfl
    obtain ⟨hfirst, -⟩ := descend_filled hs hw (by omega) hf' rfl
    have hlen' : (is ++ [j]).length + js.length ≤ 3 := by
      rw [List.length_append, List.length_singleton]
      omega
    rw [descendAlongWrites, List.mem_append] at hc
    rcases hc with hc | hc
    · exact (descend_writes hw (by omega) hc).mono (descendAlong_calls js)
    · exact hfirst.owns hf (descendAlong_calls js) (ih _ hs' hb hlen' (hg.pml4 ▸ hf) hc)

theorem mapOne_writes (hs : s.Sound supply)
    (hf : FreshSupply supply s.pml4 (mapOne supply s vir phy flags).calls)
    (hc : c ∈ mapOneWrites supply s vir) : s.Owns supply (mapOne supply s vir phy flags) c := by
  rw [mapOneWrites, List.mem_append, List.mem_singleton] at hc
  rcases hc with hc | rfl
  · exact descendAlong_writes [] (upperPath vir) hs rfl (Nat.le_refl 3) hf hc
  · obtain ⟨-, hw, hfill, -⟩ := descendAlong_filled [] (upperPath vir) hs rfl
      (Nat.le_refl 3) hf
    exact hfill.owns hf (Nat.le_refl _) (.inl ⟨upperPath vir, Nat.le_refl 3, hw⟩)

theorem mapPage_writes (hs : s.Sound supply)
    (hf : FreshSupply supply s.pml4 (mapPage supply s virt phys flags n).calls)
    (hc : c ∈ mapPageWrites supply s virt phys flags n) :
    s.Owns supply (mapPage supply s virt phys flags n) c := by
  induction n with
  | zero => cases hc
  | succ n ih =>
    have hf' := hf.mono mapOne_calls
    rw [mapPageWrites, List.mem_append] at hc
    rcases hc with hc | hc
    · exact (ih hf' hc).mono mapOne_calls
    · obtain ⟨hs', hroot⟩ := mapPage_sound hs hf'
      exact (mapPage_filled hs hf').owns hf mapOne_calls (mapOne_writes hs' (hroot ▸ hf) hc)

-- ---------------------------------------------------------------------------
-- How many pages are needed
-- ---------------------------------------------------------------------------

theorem descend_calls_eq (supply : Nat → Nat) (i : Nat) (hw : s.walk is = some a) :
    (descend supply s a i).1.calls = s.calls + (s.lacks {is ++ [i]}).card := by
  rw [Vmm.lacks_singleton, Vmm.walk_snoc, hw, Option.bind_some, PageEntry.next]
  by_cases hp : (s.tables a i).present = true
  · simp [descend, hp]
  · simp [descend, hp, allocateEntry_calls]

/-- With a page for every table that is missing, none is asked for in vain. -/
theorem descendAlong_enough (is js : List Nat) (hs : s.Sound supply) (hw : s.walk is = some a)
    (hlen : is.length + js.length ≤ 3) (hf : FreshSupply supply s.pml4 m)
    (hle : s.calls + (s.lacks (pathsAlong is js)).card ≤ m) :
    (descendAlong supply s a js).1.calls ≤ m := by
  induction js generalizing s a is with
  | nil => exact Nat.le_trans (Nat.le_add_right ..) hle
  | cons j js ih =>
    rw [List.length_cons] at hlen
    have hsub : s.lacks {is ++ [j]} ⊆ s.lacks (pathsAlong is (j :: js)) :=
      Finset.filter_subset_filter _ Finset.subset_union_left
    have hcard := Finset.card_le_card hsub
    have hcalls := descend_calls_eq supply j hw
    have hf' := hf.mono (k := (descend supply s a j).1.calls) (by omega)
    obtain ⟨hs', hg, hb⟩ := descend_grown hs hw (by omega) hf' rfl
    obtain ⟨hfirst, -⟩ := descend_filled hs hw (by omega) hf' rfl
    have hlen' : (is ++ [j]).length + js.length ≤ 3 := by
      rw [List.length_append, List.length_singleton]
      omega
    refine ih _ hs' hb hlen' (hg.pml4 ▸ hf) ?_
    rw [hfirst.calls_add fun ks hks => Nat.le_trans (pathsAlong_length hks) hlen']
    exact hle

theorem mapPage_calls_add (hs : s.Sound supply)
    (hf : FreshSupply supply s.pml4 (mapPage supply s virt phys flags n).calls) :
    (mapPage supply s virt phys flags n).calls + ((mapPage supply s virt phys flags n).lacks
        (tablesAbove (wadd 64 virt (wmul 64 n 4096)))).card =
      s.calls + (s.lacks (rangeTables virt (n + 1))).card := by
  rw [tablesAbove_wrapped]
  exact (mapPage_filled hs hf).calls_add fun js hjs => tablesAbove_length hjs

theorem mapPage_enough (virt phys flags n : Nat) (hs : s.Sound supply)
    (hf : FreshSupply supply s.pml4 m) (hle : s.calls + (s.lacks (rangeTables virt n)).card ≤ m) :
    (mapPage supply s virt phys flags n).calls ≤ m := by
  induction n with
  | zero => exact Nat.le_trans (Nat.le_add_right ..) hle
  | succ n ih =>
    have hsub : s.lacks (rangeTables virt n) ⊆ s.lacks (rangeTables virt (n + 1)) :=
      Finset.filter_subset_filter _ Finset.subset_union_left
    have hcard := Finset.card_le_card hsub
    have hcalls := ih (by omega)
    obtain ⟨hs', hroot⟩ := mapPage_sound hs (hf.mono hcalls)
    have hadd := mapPage_calls_add hs (hf.mono hcalls)
    exact descendAlong_enough [] (upperPath (wadd 64 virt (wmul 64 n 4096))) hs' rfl
      (Nat.le_refl 3) (hroot ▸ hf) (hadd.trans_le hle)

-- ---------------------------------------------------------------------------
-- Once no page is handed out
-- ---------------------------------------------------------------------------

theorem descend_fails (hp : ¬(s.tables a i).present = true) (hz : supply s.calls = 0) :
    descend supply s a i = ({ s with calls := s.calls + 1 }, (s.tables a i).address) := by
  simp only [descend, if_neg hp, allocateEntry, hz, ↓reduceIte]

theorem descendAlong_zero (hz : ∀ k, s.calls ≤ k → supply k = 0)
    (h0 : s.tables 0 = fun _ => .zero) : (descendAlong supply s 0 is).2 = 0 := by
  induction is generalizing s with
  | nil => rfl
  | cons i is ih =>
    have hp : ¬(s.tables 0 i).present = true := by
      rw [h0]
      exact nofun
    have haddr : (s.tables 0 i).address = 0 := by
      rw [h0]
      rfl
    rw [descendAlong, descend_fails hp (hz s.calls (Nat.le_refl _)), haddr]
    refine ih (fun k hk => hz k ?_) h0
    exact Nat.le_trans (Nat.le_succ _) hk

theorem descendAlong_short (is js : List Nat) (hs : s.Sound supply) (hb : s.Upper PageEntry.Blank)
    (hroot : s.pml4 ≠ 0) (hw : s.walk is = some a) (hlen : is.length + js.length ≤ 3)
    (hf : StopsAt supply s.pml4 m) (h0 : s.tables 0 = fun _ => .zero) (hm : s.calls ≤ m)
    (hlt : m < s.calls + (s.lacks (pathsAlong is js)).card) :
    (descendAlong supply s a js).2 = 0 := by
  induction js generalizing s a is with
  | nil =>
    simp [pathsAlong, Vmm.lacks] at hlt
    omega
  | cons j js ih =>
    rw [List.length_cons] at hlen
    have hcalls := descend_calls_eq supply j hw
    rcases Nat.lt_or_ge m (descend supply s a j).1.calls with hover | hunder
    · -- this is the table that cannot be made
      have hp : ¬(s.tables a j).present = true := by
        intro hp
        simp only [descend, if_pos hp] at hover
        omega
      have hmax : m ≤ s.calls := by
        simp only [descend, if_neg hp, allocateEntry_calls] at hover
        omega
      have haddr : (s.tables a j).address = 0 := by
        refine hb is j _ (by omega) ?_ (Bool.not_eq_true _ ▸ hp)
        rw [Vmm.entry_eq, hw]
        rfl
      rw [descendAlong, descend_fails hp (hf.stop s.calls hmax), haddr]
      refine descendAlong_zero (fun k hk => hf.stop k ?_) h0
      exact Nat.le_trans hmax (Nat.le_trans (Nat.le_succ _) hk)
    · have hf' := hf.fresh.mono hunder
      obtain ⟨hs', hg, hb'⟩ := descend_grown hs hw (by omega) hf' rfl
      obtain ⟨hfirst, -⟩ := descend_filled hs hw (by omega) hf' rfl
      have hlen' : (is ++ [j]).length + js.length ≤ 3 := by
        rw [List.length_append, List.length_singleton]
        omega
      have hzero : (descend supply s a j).1.tables 0 = fun _ => .zero := by
        rw [descend_frame, h0]
        intro hc
        rcases descend_writes hw (by omega) hc with ⟨ks, hks, hk⟩ | ⟨k, -, -, -, hne⟩
        · rcases hs.known 0 ks hks hk with h | ⟨k, hk, h⟩
          · exact hroot h.symm
          · exact (hf.fresh k (by omega)).1 h
        · exact hne rfl
      refine ih _ hs' (hfirst.upper _ blank_innate hb) (hg.pml4 ▸ hroot) hb' hlen' (hg.pml4 ▸ hf)
        hzero hunder ?_
      rw [hfirst.calls_add fun ks hks => Nat.le_trans (pathsAlong_length hks) hlen']
      exact hlt

theorem Vmm.Owns.ne_zero (hs : s.Sound supply) (hroot : s.pml4 ≠ 0)
    (hf : FreshSupply supply s.pml4 s.calls) (h : s.Owns supply s' a) : a ≠ 0 := by
  rintro rfl
  rcases h with ⟨is, his, hw⟩ | ⟨k, -, -, -, hne⟩
  · rcases hs.known 0 is his hw with h | ⟨k, hk, h⟩
    · exact hroot h.symm
    · exact (hf k hk).1 h
  · exact hne rfl

theorem mapPage_short (virt phys flags n : Nat) (hs : s.Sound supply)
    (hb : s.Upper PageEntry.Blank) (hroot : s.pml4 ≠ 0)
    (hf : StopsAt supply s.pml4 m) (h0 : s.tables 0 = fun _ => .zero) (hm : s.calls ≤ m)
    (hlt : m < s.calls + (s.lacks (rangeTables virt n)).card) :
    0 ∈ mapPageWrites supply s virt phys flags n := by
  induction n with
  | zero =>
    simp [rangeTables, Vmm.lacks] at hlt
    omega
  | succ n ih =>
    rw [mapPageWrites, List.mem_append]
    rcases Nat.lt_or_ge m (s.calls + (s.lacks (rangeTables virt n)).card) with hover | hunder
    · exact .inl (ih hover)
    · have hcalls := mapPage_enough virt phys flags n hs hf.fresh hunder
      have hf' := hf.fresh.mono hcalls
      obtain ⟨hs', hroot'⟩ := mapPage_sound hs hf'
      have hzero : (mapPage supply s virt phys flags n).tables 0 = fun _ => .zero := by
        rw [mapPage_frame, h0]
        exact fun hc => (mapPage_writes hs hf' hc).ne_zero hs hroot (hf.fresh.mono hm) rfl
      have hupper := (mapPage_filled hs hf').upper _ blank_innate hb
      have hlast := descendAlong_short []
        (upperPath (wadd 64 virt (wmul 64 n 4096))) hs' hupper (hroot' ▸ hroot) rfl
        (Nat.le_refl 3) (hroot' ▸ hf) hzero hcalls (hlt.trans_eq (mapPage_calls_add hs hf').symm)
      exact .inr (List.mem_append_right _ (List.mem_singleton.mpr hlast.symm))

-- ---------------------------------------------------------------------------
-- The rest of the memory
-- ---------------------------------------------------------------------------

theorem Vmm.SameTables.walk (h : s.SameTables t) (hlen : js.length ≤ 4) :
    t.walk js = s.walk js := by
  rw [Vmm.walk, h.pml4]
  exact Radix.walk_congr (d := 3) (fun a is his hw => h.tables a ⟨is, his, hw⟩) hlen

theorem Vmm.SameTables.sound (h : s.SameTables t) (hs : s.Sound supply) : t.Sound supply := by
  refine ⟨fun a is js his hjs hi hj => ?_, fun a is his hw => ?_⟩
  · rw [← Vmm.walk, h.walk (by omega)] at hi hj
    exact hs.tree a is js his hjs hi hj
  · rw [h.walk (by omega)] at hw
    rw [h.pml4, h.calls]
    exact hs.known a is his hw

theorem Vmm.SameTables.upper {P : PageEntry → Prop} (h : s.SameTables t) (hu : s.Upper P) :
    t.Upper P := by
  intro is i e his he
  refine hu is i e his ?_
  rw [Vmm.entry_eq, h.walk (by omega)] at he
  rw [Vmm.entry_eq, ← he]
  cases hw : s.walk is with
  | none => rfl
  | some a => rw [Option.map_some, Option.map_some, h.tables a ⟨is, by omega, hw⟩]

theorem Vmm.SameTables.lacks (h : s.SameTables t) (hlen : ∀ js ∈ paths, js.length ≤ 3) :
    t.lacks paths = s.lacks paths := by
  refine Finset.filter_congr fun js hjs => ?_
  rw [h.walk (Nat.le_succ_of_le (hlen js hjs))]

theorem rangeTables_length (h : js ∈ rangeTables virt n) : js.length ≤ 3 := by
  induction n with
  | zero => simp [rangeTables] at h
  | succ n ih =>
    rw [rangeTables, Finset.mem_union] at h
    exact h.elim ih tablesAbove_length

/-- With enough pages, only an address that shares its page with the range can be
translated otherwise. -/
theorem maps_cleanly_of_enough (hs : s.Sound supply)
    (hf : FreshSupply supply s.pml4 (mapPage supply s virt phys flags n).calls) :
    s.MapsCleanly supply virt phys flags n ↔ s.Unshared virt phys flags n := by
  constructor
  · intro h b hb hout t ht
    have hwalk := h.outside b hb hout
    rw [mapPage_asked hs hf, ht] at hwalk
    exact hwalk.symm
  · refine fun h => ⟨fun a ha => mapPage_writes hs hf ha, fun b hb hout => ?_⟩
    rw [mapPage_asked hs hf]
    cases ht : asked virt phys flags n b with
    | none => rfl
    | some t => exact (h b hb hout t ht).symm

/-- A range maps cleanly, whatever the memory holds besides the tables, exactly
if there is a page for every table that it lacks, and its pages are its own. -/
theorem maps_cleanly_iff (hs : s.Sound supply) (hb : s.Upper PageEntry.Blank) (hroot : s.pml4 ≠ 0)
    (hf : StopsAt supply s.pml4 m) (hm : s.calls ≤ m) :
    (∀ t, s.SameTables t → t.MapsCleanly supply virt phys flags n) ↔
      s.calls + (s.lacks (rangeTables virt n)).card ≤ m ∧ s.Unshared virt phys flags n := by
  have hrange : ∀ js ∈ rangeTables virt n, js.length ≤ 3 := fun js hjs => rangeTables_length hjs
  constructor
  · intro h
    have hle : s.calls + (s.lacks (rangeTables virt n)).card ≤ m := by
      by_contra hlt
      -- in a memory whose first page is cleared, that page is written to
      have hne : ∀ a, s.Table a → a ≠ 0 := fun a ha =>
        Vmm.Owns.ne_zero hs hroot (hf.fresh.mono hm) (show s.Owns supply s a from .inl ha)
      have hsame : s.SameTables { s with tables := Radix.fill s.tables 0 .zero } := by
        refine ⟨rfl, rfl, fun a ha => ?_⟩
        funext i
        exact if_neg (hne a ha)
      have hclear : Radix.fill s.tables 0 .zero 0 = fun _ => .zero := funext fun _ => if_pos rfl
      have hzero := mapPage_short virt phys flags n (hsame.sound hs) (hsame.upper hb) hroot hf
        hclear hm (by rw [hsame.lacks hrange]; exact Nat.lt_of_not_le hlt)
      exact Vmm.Owns.ne_zero (hsame.sound hs) hroot (hf.fresh.mono hm)
        ((h _ hsame).writes 0 hzero) rfl
    refine ⟨hle, ?_⟩
    have hf' := hf.fresh.mono (mapPage_enough virt phys flags n hs hf.fresh hle)
    exact (maps_cleanly_of_enough hs hf').mp (h s ⟨rfl, rfl, fun _ _ => rfl⟩)
  · rintro ⟨hle, hun⟩ t ht
    have hst := ht.sound hs
    have hft : FreshSupply supply t.pml4 m := ht.pml4 ▸ hf.fresh
    have hf' := hft.mono (mapPage_enough virt phys flags n hst hft
      (by rw [ht.calls, ht.lacks hrange]; exact hle))
    refine (maps_cleanly_of_enough hst hf').mpr fun b hb hout r hr => ?_
    rw [ht.walk (show (tablePath b).length ≤ 4 from Nat.le_refl 4)]
    exact hun b hb hout r hr

theorem unshared_of_aligned (hv : virt % 4096 = 0)
    (hrange : virt + 4096 * n ≤ 2 ^ 47 ∨ 2 ^ 64 - 2 ^ 47 ≤ virt ∧ virt + 4096 * n ≤ 2 ^ 64) :
    s.Unshared virt phys flags n := by
  intro b hb hout t ht
  have hnone : asked virt phys flags n b = none := by
    refine asked_none fun i hi heq => ?_
    rw [Canonical] at hb
    rw [pageNumber, pageNumber] at heq
    omega
  rw [hnone] at ht
  cases ht

/-- Three pages are left, and the page to be mapped lacks three tables. -/
theorem maps_cleanly_iff_three :
    let supply : Nat → Nat := fun k => if k < 3 then 8192 + 4096 * k else 0
    let s := Vmm.zeroed 4096 fun _ _ => .zero
    ∀ t, s.SameTables t → t.MapsCleanly supply 0x40000000 0x5000 3 1 := by
  intro supply s
  have hf : StopsAt supply 4096 3 := by
    refine ⟨fun k hk => ?_, fun k hk => if_neg (by omega)⟩
    have hval : ∀ l < 3, supply l = 8192 + 4096 * l := fun l hl => if_pos hl
    rw [hval k hk]
    refine ⟨by omega, by omega, by omega, by omega, fun l hl => ?_⟩
    rw [hval l (by omega)]
    omega
  exact (maps_cleanly_iff (m := 3) zeroed_sound (zeroed_upper blank_innate) (by decide) hf
    (by decide)).mpr ⟨by decide +kernel, unshared_of_aligned (by decide) (by decide)⟩

/-- Without any page left, mapping a page writes an entry into page zero. -/
theorem page_zero_written :
    let supply : Nat → Nat := fun _ => 0
    let s := Vmm.zeroed 4096 fun _ _ => .zero
    s.Sound supply ∧ s.Upper PageEntry.Blank ∧ StopsAt supply 4096 0 ∧
      0 ∈ mapPageWrites supply s 0x40000000 0x5000 3 1 ∧
      (mapPage supply s 0x40000000 0x5000 3 1).tables 0 0 ≠ s.tables 0 0 ∧
      ¬s.MapsCleanly supply 0x40000000 0x5000 3 1 := by
  intro supply s
  have hs : s.Sound supply := zeroed_sound
  have hf : StopsAt supply 4096 0 := ⟨fun k hk => absurd hk (Nat.not_lt_zero k), fun _ _ => rfl⟩
  have hmem : 0 ∈ mapPageWrites supply s 0x40000000 0x5000 3 1 := by decide +kernel
  refine ⟨hs, zeroed_upper blank_innate, hf, hmem, by decide +kernel, fun h => ?_⟩
  exact Vmm.Owns.ne_zero hs (by decide) hf.fresh (h.writes 0 hmem) rfl

end

end TomatoOs.Memory
