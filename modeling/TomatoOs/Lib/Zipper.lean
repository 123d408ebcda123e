import Mathlib.Tactic

/-!
# Finding an element with its context

`findSplit q l` is the first element of `l` that satisfies `q`, with the
elements before and after it: what a C loop that walks a list and stops at a
node has in hand.
-/

namespace TomatoOs.Lib

variable {α β : Type} {q : α → Bool}

def findSplit (q : α → Bool) : List α → Option (List α × α × List α)
  | [] => none
  | b :: rest =>
    if q b then some ([], b, rest)
    else (findSplit q rest).map fun (pre, c, post) => (b :: pre, c, post)

theorem findSplit_some (h : findSplit q l = some (pre, b, post)) :
    l = pre ++ b :: post ∧ q b = true ∧ ∀ c ∈ pre, q c = false := by
  induction l generalizing pre with
  | nil => simp [findSplit] at h
  | cons a rest ih =>
    simp only [findSplit] at h
    split at h
    · rename_i hq
      simp only [Option.some.injEq, Prod.mk.injEq] at h
      obtain ⟨rfl, rfl, rfl⟩ := h
      simp [hq]
    · rename_i hq
      simp only [Option.map_eq_some_iff, Prod.exists, Prod.mk.injEq] at h
      obtain ⟨pre', c, post', hr, rfl, rfl, rfl⟩ := h
      obtain ⟨rfl, hc, hpre⟩ := ih hr
      exact ⟨rfl, hc, by simpa [hq] using hpre⟩

theorem findSplit_none : findSplit q l = none ↔ ∀ c ∈ l, q c = false := by
  induction l with
  | nil => simp [findSplit]
  | cons a rest ih =>
    simp only [findSplit]
    split
    · rename_i hq; simp [hq]
    · rename_i hq; simp [hq, ih]

theorem findSplit_append (hpre : ∀ c ∈ pre, q c = false) (hb : q b = true) :
    findSplit q (pre ++ b :: post) = some (pre, b, post) := by
  induction pre with
  | nil => simp [findSplit, hb]
  | cons a pre ih =>
    have ha : q a = false := hpre a (by simp)
    have hr := ih fun c hc => hpre c (List.mem_cons_of_mem a hc)
    simp [findSplit, ha, hr]

theorem cons_split (h : b :: post = m ++ c :: post') (hne : b ≠ c) :
    ∃ m', m = b :: m' ∧ post = m' ++ c :: post' := by
  cases m with
  | nil =>
    obtain ⟨rfl, -⟩ := List.cons.inj h
    exact absurd rfl hne
  | cons d m =>
    obtain ⟨rfl, hpost⟩ := List.cons.inj h
    exact ⟨m, rfl, hpost⟩

theorem two_splits (h : pre ++ b :: post = pre' ++ c :: post') (hne : b ≠ c) :
    (∃ m, pre = pre' ++ c :: m ∧ post' = m ++ b :: post) ∨
      ∃ m, pre' = pre ++ b :: m ∧ post = m ++ c :: post' := by
  rcases List.append_eq_append_iff.mp h with ⟨m, hpre, hm⟩ | ⟨m, hpre, hm⟩
  · obtain ⟨m, rfl, hpost⟩ := cons_split hm hne
    exact .inr ⟨m, hpre, hpost⟩
  · obtain ⟨m, rfl, hpost⟩ := cons_split hm hne.symm
    exact .inl ⟨m, hpre, hpost⟩

theorem filter_findSplit (h : findSplit q l = some (pre, b, post)) :
    l.filter q = b :: post.filter q := by
  obtain ⟨rfl, hb, hpre⟩ := findSplit_some h
  have hnil : pre.filter q = [] := List.filter_eq_nil_iff.mpr fun c hc => by simp [hpre c hc]
  rw [List.filter_append, hnil, List.nil_append, List.filter_cons_of_pos hb]

theorem findSplit_map (g : β → α) (l : List β) :
    findSplit q (l.map g) =
      (findSplit (fun b => q (g b)) l).map fun r => (r.1.map g, g r.2.1, r.2.2.map g) := by
  induction l with
  | nil => rfl
  | cons b l ih =>
    rw [List.map_cons, findSplit, findSplit, ih]
    split
    · rfl
    · cases findSplit (fun b => q (g b)) l <;> rfl

end TomatoOs.Lib
