import Mathlib.Tactic

/-!
# Radix trees in a memory of nodes

A node is an array of entries, and an entry may lead to a child node. The tree
is what a walk from the root reaches. Nothing but the walk makes it one: two
entries of the memory may lead to the same node. `Tree` says that up to depth
`d` no node is reached in two ways, which is what makes an update local.
-/

namespace TomatoOs.Lib.Radix

abbrev Nodes (ε : Type) := Nat → Nat → ε

def store (T : Nodes ε) (a i : Nat) (e : ε) : Nodes ε :=
  fun a' i' => if a' = a ∧ i' = i then e else T a' i'

def fill (T : Nodes ε) (a : Nat) (e : ε) : Nodes ε :=
  fun a' i' => if a' = a then e else T a' i'

section
variable {ε : Type} (child : ε → Option Nat)

def walk (T : Nodes ε) (a : Nat) : List Nat → Option Nat
  | [] => some a
  | i :: is => (child (T a i)).bind fun b => walk T b is

def entry (T : Nodes ε) (a : Nat) (is : List Nat) (i : Nat) : Option ε :=
  (walk child T a is).map fun b => T b i

/-- Up to depth `d`, a node is reached along one path at most. -/
def Tree (d : Nat) (T : Nodes ε) (root : Nat) : Prop :=
  ∀ a is js, is.length ≤ d → js.length ≤ d →
    walk child T root is = some a → walk child T root js = some a → is = js

def Unreached (d : Nat) (T : Nodes ε) (root b : Nat) : Prop :=
  ∀ is, is.length ≤ d → walk child T root is ≠ some b

end

section
variable {ε : Type} {child : ε → Option Nat} {T : Nodes ε}

@[simp] theorem walk_nil (a : Nat) : walk child T a [] = some a := rfl

theorem walk_snoc (a : Nat) (is : List Nat) (i : Nat) :
    walk child T a (is ++ [i]) = (walk child T a is).bind fun b => child (T b i) := by
  induction is generalizing a with
  | nil => simp [walk]
  | cons j is ih =>
    rw [List.cons_append, walk, walk]
    cases child (T a j) with
    | none => rfl
    | some b => exact ih b

theorem walk_congr (h : ∀ a is, is.length ≤ d → walk child T root is = some a → T' a = T a)
    (hlen : js.length ≤ d + 1) : walk child T' root js = walk child T root js := by
  induction js using List.reverseRecOn with
  | nil => rfl
  | append_singleton js j ih =>
    rw [List.length_append, List.length_singleton] at hlen
    rw [walk_snoc, walk_snoc, ih (by omega)]
    cases hw : walk child T root js with
    | none => rfl
    | some c => simp [h c js (by omega) hw]

theorem walk_fill (hb : Unreached child d T root b) (hlen : js.length ≤ d + 1) :
    walk child (fill T b e) root js = walk child T root js := by
  refine walk_congr (fun a is his hw => ?_) hlen
  have hne : a ≠ b := fun h => hb is his (h ▸ hw)
  funext i
  rw [fill, if_neg hne]

/-- A write to the entry behind `is` changes the walk along that entry only.
Above the last level it has to hang an empty node where there was none. -/
theorem walk_store (ht : Tree child d T root) (ha : walk child T root is = some a)
    (hlen : is.length ≤ d)
    (hnew : is.length < d → child (T a i) = none ∧
      ∀ b, child e = some b → b ≠ a ∧ ∀ j, child (T b j) = none)
    (hjs : js.length ≤ d + 1) :
    walk child (store T a i e) root js =
      if js = is ++ [i] then child e else walk child T root js := by
  induction js using List.reverseRecOn with
  | nil => simp [walk]
  | append_singleton js j ih =>
    rw [List.length_append, List.length_singleton] at hjs
    rw [walk_snoc, ih (by omega)]
    by_cases hjs' : js = is ++ [i]
    · -- one level below the new entry
      have hlt : is.length < d := by
        rw [hjs', List.length_append, List.length_singleton] at hjs
        omega
      obtain ⟨hold, hempty⟩ := hnew hlt
      have hne : js ++ [j] ≠ is ++ [i] := by
        intro h
        have := congrArg List.length (hjs' ▸ h)
        simp at this
      have hbefore : walk child T root (js ++ [j]) = none := by
        rw [hjs', walk_snoc, walk_snoc, ha, Option.bind_some, hold, Option.bind_none]
      rw [if_pos hjs', if_neg hne, hbefore]
      cases he : child e with
      | none => rfl
      | some b =>
        obtain ⟨hba, hb⟩ := hempty b he
        simp [store, hba, hb j]
    · rw [if_neg hjs', walk_snoc]
      cases hw : walk child T root js with
      | none =>
        have hne : js ++ [j] ≠ is ++ [i] := by
          intro h
          rw [(List.append_singleton_inj.mp h).1, ha] at hw
          cases hw
        rw [if_neg hne, Option.bind_none, Option.bind_none]
      | some c =>
        rw [Option.bind_some, Option.bind_some]
        by_cases hhere : c = a ∧ j = i
        · obtain ⟨rfl, rfl⟩ := hhere
          have := ht c js is (by omega) hlen hw ha
          simp [store, this]
        · have hne : js ++ [j] ≠ is ++ [i] := by
            intro h
            obtain ⟨rfl, rfl⟩ := List.append_singleton_inj.mp h
            rw [ha, Option.some.injEq] at hw
            exact hhere ⟨hw.symm, rfl⟩
          rw [if_neg hne, store, if_neg hhere]

theorem Tree.fill (ht : Tree child d T root) (hb : Unreached child d T root b) :
    Tree child d (fill T b e) root := by
  intro a is js his hjs hi hj
  rw [walk_fill hb (by omega)] at hi hj
  exact ht a is js his hjs hi hj

theorem Tree.store_last (ht : Tree child d T root) (ha : walk child T root is = some a)
    (hlen : is.length = d) : Tree child d (store T a i e) root := by
  have hwalk : ∀ js : List Nat, js.length ≤ d →
      walk child (store T a i e) root js = walk child T root js := by
    intro js hjs
    rw [walk_store ht ha (by omega) (by omega) (by omega), if_neg]
    intro h
    have := congrArg List.length h
    simp at this
    omega
  intro c js ks hjs hks hj hk
  rw [hwalk js hjs] at hj
  rw [hwalk ks hks] at hk
  exact ht c js ks hjs hks hj hk

theorem Tree.reached_iff (ht : Tree child d T root) (hw : walk child T root js = some c)
    (ha : walk child T root is = some a) (hjs : js.length ≤ d) (his : is.length ≤ d) :
    c = a ↔ js = is := by
  constructor
  · rintro rfl
    exact ht c js is hjs his hw ha
  · rintro rfl
    exact Option.some.inj (hw.symm.trans ha)

theorem map_store (ht : Tree child d T root) (ha : walk child T root is = some a)
    (hlen : is.length ≤ d) (hjs : js.length ≤ d) (T' : Nodes ε) :
    (walk child T root js).map (fun c => store T' a i e c j) =
      if js = is ∧ j = i then some e else (walk child T root js).map fun c => T' c j := by
  cases hw : walk child T root js with
  | none =>
    rw [if_neg]
    · rfl
    · rintro ⟨rfl, -⟩
      rw [ha] at hw
      cases hw
  | some c =>
    simp only [Option.map_some, store, ht.reached_iff hw ha hjs hlen]
    split <;> rfl

theorem entry_store_last (ht : Tree child d T root) (ha : walk child T root is = some a)
    (hlen : is.length = d) (hjs : js.length ≤ d) :
    entry child (store T a i e) root js j =
      if js = is ∧ j = i then some e else entry child T root js j := by
  have hne : js ≠ is ++ [i] := by
    rintro rfl
    rw [List.length_append, List.length_singleton] at hjs
    omega
  rw [entry, entry, walk_store ht ha (by omega) (by omega) (by omega), if_neg hne]
  exact map_store ht ha (by omega) hjs T

/-- Clearing an unreached node `b` and hanging it into the tree below `a` adds
one walk. -/
theorem walk_hang (ht : Tree child d T root) (ha : walk child T root is = some a)
    (hlen : is.length < d) (hold : child (T a i) = none) (hb : Unreached child d T root b)
    (hz : child z = none) (he : child e = some b) (hjs : js.length ≤ d + 1) :
    walk child (store (fill T b z) a i e) root js =
      if js = is ++ [i] then some b else walk child T root js := by
  have hba : b ≠ a := fun h => hb is (by omega) (h ▸ ha)
  have ha' : walk child (fill T b z) root is = some a := (walk_fill hb (by omega)).trans ha
  have hnew : child (fill T b z a i) = none ∧
      ∀ c, child e = some c → c ≠ a ∧ ∀ j, child (fill T b z c j) = none := by
    refine ⟨by simpa [fill, hba.symm] using hold, fun c hc => ?_⟩
    rw [he, Option.some.injEq] at hc
    subst hc
    exact ⟨hba, fun j => by simpa [fill] using hz⟩
  rw [walk_store (ht.fill hb) ha' (by omega) (fun _ => hnew) hjs, he, walk_fill hb hjs]

/-- The new node's entries are the ones it was cleared with, and the entry that
leads to it is the one that was written. -/
theorem entry_hang (ht : Tree child d T root) (ha : walk child T root is = some a)
    (hlen : is.length < d) (hold : child (T a i) = none) (hb : Unreached child d T root b)
    (hz : child z = none) (he : child e = some b) (hjs : js.length ≤ d) :
    entry child (store (fill T b z) a i e) root js j =
      if js = is ++ [i] then some z
      else if js = is ∧ j = i then some e else entry child T root js j := by
  have hba : b ≠ a := fun h => hb is (by omega) (h ▸ ha)
  rw [entry, entry, walk_hang ht ha hlen hold hb hz he (by omega)]
  split
  · simp [store, fill, hba]
  · -- The cleared node is none of those that the walks reach.
    have hkept : (walk child T root js).map (fun c => fill T b z c j) =
        (walk child T root js).map fun c => T c j := by
      cases hw : walk child T root js with
      | none => rfl
      | some c =>
        have hcb : c ≠ b := fun h => hb js hjs (h ▸ hw)
        simp only [Option.map_some, fill, hcb, ↓reduceIte]
    rw [map_store ht ha (by omega) hjs, hkept]

theorem Tree.hang (ht : Tree child d T root) (ha : walk child T root is = some a)
    (hlen : is.length < d) (hold : child (T a i) = none) (hb : Unreached child d T root b)
    (hz : child z = none) (he : child e = some b) :
    Tree child d (store (Radix.fill T b z) a i e) root := by
  intro c js ks hjs hks hj hk
  rw [walk_hang ht ha hlen hold hb hz he (by omega)] at hj hk
  split at hj
  · rename_i hj'
    cases hj
    split at hk
    · rename_i hk'
      rw [hj', hk']
    · exact absurd hk (hb ks hks)
  · split at hk
    · cases hk
      exact absurd hj (hb js hjs)
    · exact ht c js ks hjs hks hj hk

end

-- ---------------------------------------------------------------------------
-- Positions
-- ---------------------------------------------------------------------------

/-- The way to leaf `pos` of a full tree of depth `d` with `k` entries a node:
the digits of `pos` in base `k`, highest first. -/
def path (k : Nat) : Nat → Nat → List Nat
  | 0, _ => []
  | d + 1, pos => pos / k ^ d :: path k d (pos % k ^ d)

theorem path_lt (hk : 0 < k) (h : pos < k ^ d) : ∀ i ∈ path k d pos, i < k := by
  induction d generalizing pos with
  | zero => simp [path]
  | succ d ih =>
    intro i hi
    have hpos : 0 < k ^ d := Nat.pow_pos hk
    rcases List.mem_cons.mp hi with rfl | hi
    · rw [Nat.pow_succ'] at h
      exact Nat.div_lt_of_lt_mul (by rwa [Nat.mul_comm])
    · exact ih (Nat.mod_lt _ hpos) i hi

end TomatoOs.Lib.Radix
