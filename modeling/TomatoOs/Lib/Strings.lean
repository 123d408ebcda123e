import Mathlib.Data.List.TakeWhile
import TomatoOs.Lib.Bytes

/-!
# C strings and the words of a text

`CString m a s` says that the C string at address `a` is `s`, and `Spells m a s` that
the bytes from `a` on are those of `s`. `runsFrom p off l` are
the maximal runs of elements of `l` without `p`, each with the index where it
starts, counted from `off`; they are the pieces of Mathlib's `splitOnP` that are
not empty. `Covers l w` says that the members of `w` occur in `l` once and in order.
-/

namespace TomatoOs.Lib

-- ---------------------------------------------------------------------------
-- Strings in memory
-- ---------------------------------------------------------------------------

def CString (m : Mem) : Nat → List Byte → Prop
  | a, [] => m a = 0
  | a, c :: s => c ≠ 0 ∧ m a = c ∧ CString m (a + 1) s

instance CString.instDecidable (m : Mem) : (a : Nat) → (s : List Byte) → Decidable (CString m a s)
  | a, [] => inferInstanceAs (Decidable (m a = 0))
  | a, c :: s =>
    have := CString.instDecidable m (a + 1) s
    inferInstanceAs (Decidable (c ≠ 0 ∧ m a = c ∧ CString m (a + 1) s))

section
variable {m m' : Mem} {a : Nat} {s t : List Byte}

theorem CString.unique (hs : CString m a s) (ht : CString m a t) : s = t := by
  induction s generalizing a t with
  | nil =>
    cases t with
    | nil => rfl
    | cons d t => exact absurd (ht.2.1.symm.trans hs) ht.1
  | cons c s ih =>
    cases t with
    | nil => exact absurd (hs.2.1.symm.trans ht) hs.1
    | cons d t =>
      rw [ih hs.2.2 ht.2.2, hs.2.1.symm.trans ht.2.1]

theorem CString.congr (hs : CString m a s) (hm : ∀ x, Within a (s.length + 1) x → m' x = m x) :
    CString m' a s := by
  induction s generalizing a with
  | nil => exact (hm a ⟨Nat.le_refl a, by simp⟩).trans hs
  | cons c s ih =>
    refine ⟨hs.1, (hm a ⟨Nat.le_refl a, by simp⟩).trans hs.2.1, ih hs.2.2 fun x hx => hm x ?_⟩
    unfold Within at *
    rw [List.length_cons]
    omega

theorem CString.append (hs : CString m a (s ++ t)) : CString m (a + s.length) t := by
  induction s generalizing a with
  | nil => exact hs
  | cons c s ih =>
    have := ih hs.2.2
    rwa [Nat.add_assoc, Nat.add_comm 1] at this

theorem CString.head (hs : CString m a s) : m a = s.headD 0 := by
  cases s with
  | nil => exact hs
  | cons c s => exact hs.2.1

theorem CString.head_eq_iff (hs : CString m a s) {c : Byte} (hc : c ≠ 0) :
    m a = c ↔ s.head? = some c := by
  rw [hs.head]
  cases s with
  | nil => simpa using hc.symm
  | cons d s => simp

theorem CString.drop (hs : CString m a s) {n : Nat} (hn : n ≤ s.length) :
    CString m (a + n) (s.drop n) := by
  rw [← List.take_append_drop n s] at hs
  simpa [Nat.min_eq_left hn] using hs.append

theorem CString.cut (hs : CString m a (s ++ t)) (hm : ∀ x, Within a s.length x → m' x = m x)
    (hnul : m' (a + s.length) = 0) : CString m' a s := by
  induction s generalizing a with
  | nil => exact hnul
  | cons c s ih =>
    refine ⟨hs.1, (hm a ⟨Nat.le_refl a, by simp⟩).trans hs.2.1, ih hs.2.2 (fun x hx => hm x ?_) ?_⟩
    · unfold Within at *
      rw [List.length_cons]
      omega
    · rwa [Nat.add_assoc, Nat.add_comm 1]

theorem exists_cString {n : Nat} (h : m (a + n) = 0) : ∃ s, CString m a s ∧ s.length ≤ n := by
  induction n generalizing a with
  | zero => exact ⟨[], h, Nat.le_refl 0⟩
  | succ n ih =>
    by_cases hnul : m a = 0
    · exact ⟨[], hnul, Nat.zero_le _⟩
    · obtain ⟨s, hs, hlen⟩ := ih (a := a + 1) (by rwa [Nat.add_assoc, Nat.add_comm 1])
      exact ⟨m a :: s, ⟨hnul, rfl, hs⟩, Nat.succ_le_succ hlen⟩

def Spells (m : Mem) : Nat → List Byte → Prop
  | _, [] => True
  | a, c :: s => m a = c ∧ Spells m (a + 1) s

theorem spells_append : Spells m a (s ++ t) ↔ Spells m a s ∧ Spells m (a + s.length) t := by
  induction s generalizing a with
  | nil => simp [Spells]
  | cons c s ih =>
    rw [List.cons_append, Spells, Spells, ih, List.length_cons, Nat.add_assoc, Nat.add_comm 1,
      and_assoc]

theorem Spells.put_behind (h : Spells m a s) (c : Byte) :
    Spells (m.put (a + s.length) c) a (s ++ [c]) := by
  have hkeep : ∀ x, x < a + s.length → m.put (a + s.length) c x = m x := by
    intro x hx
    rw [Mem.put, if_neg (Nat.ne_of_lt hx)]
  rw [spells_append]
  refine ⟨?_, by simp [Spells, Mem.put]⟩
  generalize m.put (a + s.length) c = m' at hkeep
  induction s generalizing a with
  | nil => trivial
  | cons d s ih =>
    refine ⟨(hkeep a (by simp)).trans h.1, ih h.2 fun x hx => hkeep x ?_⟩
    rw [List.length_cons]
    omega

theorem Spells.dropLast (h : Spells m a s) : Spells m a s.dropLast := by
  rcases List.eq_nil_or_concat s with rfl | ⟨front, c, rfl⟩
  · exact h
  · rw [List.concat_eq_append] at h
    rw [List.concat_eq_append, List.dropLast_concat]
    exact (spells_append.mp h).1

theorem CString.spells (h : CString m a s) : Spells m a s := by
  induction s generalizing a with
  | nil => trivial
  | cons c s ih => exact ⟨h.2.1, ih h.2.2⟩

theorem Spells.map_range (h : Spells m a s) : (List.range' a s.length).map m = s := by
  induction s generalizing a with
  | nil => rfl
  | cons c s ih => rw [List.length_cons, List.range'_succ, List.map_cons, h.1, ih h.2]

theorem Spells.cString_iff (h : Spells m a (s ++ [0])) : CString m a s ↔ 0 ∉ s := by
  induction s generalizing a with
  | nil => exact iff_of_true h.1 List.not_mem_nil
  | cons c s ih =>
    rw [CString, ih h.2, List.mem_cons, not_or]
    exact ⟨fun hs => ⟨hs.1.symm, hs.2.2⟩, fun hs => ⟨Ne.symm hs.1, h.1, hs.2⟩⟩

end

-- ---------------------------------------------------------------------------
-- Runs
-- ---------------------------------------------------------------------------

section
variable {α : Type} {p : α → Bool} {off : Nat} {l w r : List α}

def placed (off : Nat) : List (List α) → List (Nat × List α)
  | [] => []
  | piece :: rest => (off, piece) :: placed (off + piece.length + 1) rest

def runsFrom (p : α → Bool) (off : Nat) (l : List α) : List (Nat × List α) :=
  (placed off (l.splitOnP p)).filter fun r => !r.2.isEmpty

theorem runsFrom_nil : runsFrom p off [] = [] := rfl

theorem runsFrom_sep {x : α} (hx : p x = true) :
    runsFrom p off (x :: l) = runsFrom p (off + 1) l := by
  simp [runsFrom, List.splitOnP_cons_eq_if_modifyHead, hx, placed]

theorem runsFrom_dropWhile (p : α → Bool) (off : Nat) (l : List α) :
    runsFrom p off l = runsFrom p (off + (l.takeWhile p).length) (l.dropWhile p) := by
  induction l generalizing off with
  | nil => rfl
  | cons x l ih =>
    cases hx : p x with
    | true =>
      rw [runsFrom_sep hx, ih, List.takeWhile_cons_of_pos hx, List.dropWhile_cons_of_pos hx,
        List.length_cons, Nat.add_assoc, Nat.add_comm 1]
    | false =>
      rw [List.takeWhile_cons_of_neg (by simp [hx]), List.dropWhile_cons_of_neg (by simp [hx])]
      rfl

theorem dropWhile_head (p : α → Bool) (l : List α) : ∀ x ∈ (l.dropWhile p).head?, p x = false := by
  intro x hx
  have hhead := List.head?_dropWhile_not p l
  rw [Option.mem_def.mp hx] at hhead
  exact hhead

theorem dropWhile_of_mem [DecidableEq α] {x : α} (h : x ∈ l) :
    ∃ r, l.dropWhile (· ≠ x) = x :: r := by
  have hne : l.dropWhile (· ≠ x) ≠ [] := fun hnil => by
    simpa using List.dropWhile_eq_nil_iff.mp hnil x h
  obtain ⟨y, r, hyr⟩ := List.exists_cons_of_ne_nil hne
  have hy := dropWhile_head (· ≠ x) l y (by rw [hyr]; rfl)
  simp only [ne_eq, decide_not, Bool.not_eq_false', decide_eq_true_eq] at hy
  exact ⟨r, by rw [hyr, hy]⟩

theorem runsFrom_run (hw : ∀ x ∈ w, p x = false) (hne : w ≠ []) (hr : ∀ x ∈ r.head?, p x = true) :
    runsFrom p off (w ++ r) = (off, w) :: runsFrom p (off + w.length) r := by
  have hempty : w.isEmpty = false := by simpa using hne
  cases r with
  | nil =>
    have hsplit : (w ++ []).splitOnP p = [w] := by
      rw [List.append_nil]
      exact List.splitOnP_eq_singleton hw
    rw [runsFrom, hsplit]
    simp [placed, hempty, runsFrom_nil]
  | cons x r =>
    have hx : p x = true := hr x rfl
    rw [runsFrom, List.splitOnP_append_cons_of_forall_mem hw x hx, runsFrom_sep hx]
    simp [placed, hempty, runsFrom]

theorem takeWhile_ne_nil (hne : l.dropWhile p ≠ []) :
    ((l.dropWhile p).takeWhile fun x => !p x) ≠ [] := by
  obtain ⟨x, t, hl⟩ := List.exists_cons_of_ne_nil hne
  have hx := dropWhile_head p l x (by simp [hl])
  rw [hl, List.takeWhile_cons_of_pos (by simp [hx])]
  exact List.cons_ne_nil _ _

theorem runsFrom_cons (off : Nat) (hne : l.dropWhile p ≠ []) :
    runsFrom p off l =
      (off + (l.takeWhile p).length, (l.dropWhile p).takeWhile fun x => !p x) ::
        runsFrom p
          (off + (l.takeWhile p).length + ((l.dropWhile p).takeWhile fun x => !p x).length)
          ((l.dropWhile p).dropWhile fun x => !p x) := by
  have hsplit := List.takeWhile_append_dropWhile (p := fun x => !p x) (l := l.dropWhile p)
  rw [runsFrom_dropWhile, ← runsFrom_run _ (takeWhile_ne_nil hne), hsplit]
  · intro x hx
    simpa using dropWhile_head (fun x => !p x) (l.dropWhile p) x hx
  · intro x hx
    simpa using List.mem_takeWhile_imp hx

theorem runsFrom_eq_nil : runsFrom p off l = [] ↔ ∀ x ∈ l, p x = true := by
  rw [← List.dropWhile_eq_nil_iff]
  constructor
  · intro h
    by_contra hne
    rw [runsFrom_cons off hne] at h
    exact List.cons_ne_nil _ _ h
  · intro h
    rw [runsFrom_dropWhile, h, runsFrom_nil]

end

-- ---------------------------------------------------------------------------
-- Selections
-- ---------------------------------------------------------------------------

section
variable {α : Type} [DecidableEq α] {l l₁ l₂ w w₁ w₂ : List α}

/-- The members of `w` occur in `l` once each and in this order. -/
def Covers (l w : List α) : Prop := l.filter (· ∈ w) = w

theorem Covers.mem {x : α} (h : Covers l w) (hx : x ∈ w) : x ∈ l := by
  rw [← h] at hx
  exact List.mem_of_mem_filter hx

theorem covers_of_sublist (hw : w.Sublist l) (hl : l.Nodup) : Covers l w := by
  induction hw with
  | slnil => rfl
  | @cons w l x hw ih =>
    obtain ⟨hx, hl⟩ := List.nodup_cons.mp hl
    rw [Covers, List.filter_cons_of_neg (by simpa using fun h => hx (hw.mem h))]
    exact ih hl
  | @cons_cons w l x hw ih =>
    obtain ⟨hx, hl⟩ := List.nodup_cons.mp hl
    rw [Covers, List.filter_cons_of_pos (by simp)]
    refine congrArg (x :: ·) (Eq.trans (List.filter_congr fun y hy => ?_) (ih hl))
    have hyx : y ≠ x := fun h => hx (h ▸ hy)
    simp [hyx]

/-- Where `p` tells the first lists from the second ones, each second is covered by
its first. -/
theorem covers_append_iff (p : α → Bool) (hl₁ : ∀ x ∈ l₁, p x = true) (hw₁ : ∀ x ∈ w₁, p x = true)
    (hl₂ : ∀ x ∈ l₂, p x = false) (hw₂ : ∀ x ∈ w₂, p x = false) :
    Covers (l₁ ++ l₂) (w₁ ++ w₂) ↔ Covers l₁ w₁ ∧ Covers l₂ w₂ := by
  have hfirst : l₁.filter (· ∈ w₁ ++ w₂) = l₁.filter (· ∈ w₁) := by
    refine List.filter_congr fun x hx => ?_
    have hnot : x ∉ w₂ := fun h => absurd (hw₂ x h) (by simp [hl₁ x hx])
    simp [hnot]
  have hsecond : l₂.filter (· ∈ w₁ ++ w₂) = l₂.filter (· ∈ w₂) := by
    refine List.filter_congr fun x hx => ?_
    have hnot : x ∉ w₁ := fun h => absurd (hw₁ x h) (by simp [hl₂ x hx])
    simp [hnot]
  have hkeep : ∀ {s t : List α}, (∀ x ∈ s, p x = true) → (∀ x ∈ t, p x = false) →
      (s ++ t).filter p = s := by
    intro s t hs ht
    rw [List.filter_append, List.filter_eq_self.mpr hs,
      List.filter_eq_nil_iff.mpr fun x hx => by simp [ht x hx], List.append_nil]
  rw [Covers, List.filter_append, hfirst, hsecond]
  constructor
  · intro h
    have h₁ := congrArg (List.filter p) h
    rw [hkeep (fun x hx => hl₁ x (List.mem_of_mem_filter hx))
      (fun x hx => hl₂ x (List.mem_of_mem_filter hx)), hkeep hw₁ hw₂] at h₁
    rw [h₁] at h
    exact ⟨h₁, List.append_cancel_left h⟩
  · rintro ⟨h₁, h₂⟩
    rw [h₁, h₂]

end

end TomatoOs.Lib
