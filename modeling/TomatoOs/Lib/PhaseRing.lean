import Mathlib.Tactic

/-!
# Rings with a phase tag

A producer writes its items one after the other into the `n` slots of a ring
and starts again at the first slot. Each item carries a tag that alternates from
one pass to the next. The consumer keeps the tag it expects beside its position
and takes the slot under it once the tags agree. `Holds.take` says that this
test finds exactly the items that were produced and not yet taken.
-/

namespace TomatoOs.Lib.PhaseRing

/-- The tag of item number `k`: one on the first pass, zero on the second. -/
def phase (n k : Nat) : Nat := if k / n % 2 = 0 then 1 else 0

def Recent (n : Nat) (slots : Nat → α) (items : List α) : Prop :=
  ∀ j x, items[j]? = some x → items.length ≤ j + n → slots (j % n) = x

structure Holds (n : Nat) (tag : α → Nat) (init slots : Nat → α) (items : List α) : Prop where
  recent : Recent n slots items
  tagged : ∀ j x, items[j]? = some x → tag x = phase n j
  unwritten : ∀ i < n, items.length ≤ i → slots i = init i

section

variable {tag : α → Nat} {init slots : Nat → α} {items : List α}

theorem phase_next (hn : 0 < n) : phase n (k + n) ≠ phase n k := by
  rw [phase, phase, Nat.add_div_right k hn]
  split_ifs <;> omega

theorem phase_first (h : k < n) : phase n k = 1 := by
  rw [phase, Nat.div_eq_of_lt h, if_pos rfl]

theorem phase_succ (k n : Nat) :
    phase n (k + 1) = if (k + 1) % n = 0 then phase n k ^^^ 1 else phase n k := by
  have hflip : phase n k ^^^ 1 = if k / n % 2 = 0 then 0 else 1 := by
    rw [phase]
    split_ifs <;> rfl
  rw [hflip, phase, phase, Nat.succ_div]
  simp only [Nat.dvd_iff_mod_eq_zero]
  split_ifs <;> omega

theorem slot_ne {j k : Nat} (hjk : j < k) (hk : k < j + n) : j % n ≠ k % n := by
  intro he
  have hdvd : n ∣ k - j := (Nat.modEq_iff_dvd' (Nat.le_of_lt hjk)).mp he
  have := Nat.le_of_dvd (by omega) hdvd
  omega

theorem getElem?_snoc {l : List α} :
    (l ++ [a])[j]? = some y ↔ l[j]? = some y ∨ j = l.length ∧ a = y := by
  rw [List.getElem?_append]
  split
  · rename_i hlt
    constructor
    · exact Or.inl
    · rintro (h | ⟨rfl, -⟩)
      · exact h
      · omega
  · rename_i hge
    rw [List.getElem?_singleton, List.getElem?_eq_none (by omega)]
    split_ifs with h0
    · simp only [Option.some.injEq, false_or]
      exact ⟨fun h => ⟨by omega, h⟩, fun h => h.2⟩
    · simp only [false_or, false_iff, not_and]
      intro h
      omega

theorem Recent.push (h : Recent n slots items) (x : α) :
    Recent n (Function.update slots (items.length % n) x) (items ++ [x]) := by
  intro j y hy hj
  rw [List.length_append, List.length_singleton] at hj
  rcases getElem?_snoc.mp hy with hy | ⟨rfl, rfl⟩
  · have hlt := (List.getElem?_eq_some_iff.mp hy).1
    rw [Function.update_of_ne (slot_ne hlt (by omega))]
    exact h j y hy (by omega)
  · exact Function.update_self ..

theorem Holds.nil : Holds n tag init init [] :=
  ⟨fun j x h => by simp at h, fun j x h => by simp at h, fun _ _ _ => rfl⟩

theorem Holds.push (h : Holds n tag init slots items) (hx : tag x = phase n items.length) :
    Holds n tag init (Function.update slots (items.length % n) x) (items ++ [x]) := by
  refine ⟨h.recent.push x, fun j y hy => ?_, fun i hi hle => ?_⟩
  · rcases getElem?_snoc.mp hy with hy | ⟨rfl, rfl⟩
    · exact h.tagged j y hy
    · exact hx
  · rw [List.length_append, List.length_singleton] at hle
    rw [Nat.mod_eq_of_lt (by omega), Function.update_of_ne (by omega)]
    exact h.unwritten i hi (by omega)

theorem Holds.under (h : Holds n tag init slots items) (hx : items[m]? = some x)
    (hm : items.length ≤ m + n) : slots (m % n) = x ∧ tag (slots (m % n)) = phase n m := by
  have hs := h.recent m x hx hm
  exact ⟨hs, hs ▸ h.tagged m x hx⟩

/-- Where no slot starts with the first tag, the consumer's test finds exactly
the items that are there. -/
theorem Holds.take (h : Holds n tag init slots items) (hn : 0 < n)
    (hinit : ∀ i < n, tag (init i) ≠ 1) (hle : m ≤ items.length) (hm : items.length ≤ m + n) :
    tag (slots (m % n)) = phase n m ↔ m < items.length := by
  constructor
  · intro ht
    by_contra hge
    obtain rfl : m = items.length := by omega
    rcases Nat.lt_or_ge items.length n with hlt | hge
    · rw [Nat.mod_eq_of_lt hlt, h.unwritten _ hlt (Nat.le_refl _), phase_first hlt] at ht
      exact hinit _ hlt ht
    · -- the slot still holds the item of the pass before
      obtain ⟨k, hk⟩ := Nat.exists_eq_add_of_le' hge
      have hx : items[k]? = some (items.get ⟨k, by omega⟩) := List.getElem?_eq_getElem _
      have htag := (h.under hx (by omega)).2
      rw [hk, Nat.add_mod_right, htag] at ht
      exact phase_next hn ht.symm
  · intro hlt
    have hx : items[m]? = some (items.get ⟨m, hlt⟩) := List.getElem?_eq_getElem hlt
    exact (h.under hx hm).2

end

end TomatoOs.Lib.PhaseRing
