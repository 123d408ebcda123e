import Mathlib.Tactic

/-!
# Byte memories

A flat memory of bytes with little-endian loads and stores of any width, and
the byte-by-byte forward copy. `load_store_eq` and `load_store_of_apart` are
the two laws a client needs: a store is read back, and it is invisible to a
load that does not meet it. Nothing here depends on what the bytes mean.
-/

namespace TomatoOs.Lib

abbrev Byte := BitVec 8

abbrev Mem := Nat → Byte

/-- The address lies in the `n` bytes from `a` on. -/
def Within (a n x : Nat) : Prop := a ≤ x ∧ x < a + n

instance : Decidable (Within a n x) := inferInstanceAs (Decidable (_ ∧ _))

def Apart (a n b k : Nat) : Prop := a + n ≤ b ∨ b + k ≤ a

instance : Decidable (Apart a n b k) := inferInstanceAs (Decidable (_ ∨ _))

theorem Apart.symm (h : Apart a n b k) : Apart b k a n := Or.symm h

theorem Apart.not_within (h : Apart a n b k) (hx : Within b k x) : ¬Within a n x := by
  unfold Apart at h
  unfold Within at *
  omega

-- ---------------------------------------------------------------------------
-- Loads
-- ---------------------------------------------------------------------------

/-- The little-endian value of the `n` bytes at `a`. -/
def Mem.load (m : Mem) (a : Nat) : Nat → Nat
  | 0 => 0
  | n + 1 => (m a).toNat + 256 * Mem.load m (a + 1) n

theorem Mem.load_lt (m : Mem) (a n : Nat) : m.load a n < 256 ^ n := by
  induction n generalizing a with
  | zero => simp [Mem.load]
  | succ n ih =>
    have hb : (m a).toNat < 256 := (m a).isLt
    have hr := ih (a + 1)
    rw [Mem.load, Nat.pow_succ]
    omega

theorem Mem.load_eq {m m' : Mem} {a a' : Nat} (h : ∀ i < n, m' (a' + i) = m (a + i)) :
    m'.load a' n = m.load a n := by
  induction n generalizing a a' with
  | zero => rfl
  | succ n ih =>
    have hfirst : m' a' = m a := h 0 (Nat.succ_pos n)
    have hrest : m'.load (a' + 1) n = m.load (a + 1) n := by
      apply ih
      intro i hi
      have := h (i + 1) (Nat.succ_lt_succ hi)
      rwa [Nat.add_assoc, Nat.add_comm 1 i, Nat.add_assoc a, Nat.add_comm 1 i]
    rw [Mem.load, Mem.load, hfirst, hrest]

theorem Mem.load_congr {m m' : Mem} (h : ∀ x, Within a n x → m' x = m x) :
    m'.load a n = m.load a n :=
  Mem.load_eq fun i hi => h (a + i) ⟨Nat.le_add_right a i, by omega⟩

/-- A load sees the base-256 digits of the value its bytes hold. -/
theorem Mem.load_digits {m : Mem} (h : ∀ i < n, m (a + i) = BitVec.ofNat 8 (v / 256 ^ i)) :
    m.load a n = v % 256 ^ n := by
  induction n generalizing a v with
  | zero => simp [Mem.load, Nat.mod_one]
  | succ n ih =>
    have h0 : (m a).toNat = v % 256 := by
      have h0 := h 0 (Nat.succ_pos n)
      simp only [Nat.add_zero, Nat.pow_zero, Nat.div_one] at h0
      simp [h0]
    have hr : m.load (a + 1) n = v / 256 % 256 ^ n := by
      apply ih
      intro i hi
      have := h (i + 1) (Nat.succ_lt_succ hi)
      rw [Nat.div_div_eq_div_mul, ← Nat.pow_succ', Nat.add_assoc, Nat.add_comm 1 i]
      exact this
    rw [Mem.load, h0, hr, Nat.pow_succ', Nat.mod_mul]

theorem Mem.load_add (m : Mem) (a n k : Nat) :
    m.load a (n + k) = m.load a n + 256 ^ n * m.load (a + n) k := by
  induction n generalizing a with
  | zero => simp [Mem.load]
  | succ n ih =>
    have hrest := ih (a + 1)
    rw [Nat.add_assoc, Nat.add_comm 1 n] at hrest
    rw [Nat.add_right_comm n 1 k, Mem.load, Mem.load, hrest]
    ring

-- ---------------------------------------------------------------------------
-- Stores
-- ---------------------------------------------------------------------------

/-- The `n` low bytes of `v` at `a`, little-endian. -/
def Mem.store (m : Mem) (a n v : Nat) : Mem := fun x =>
  if Within a n x then BitVec.ofNat 8 (v / 256 ^ (x - a)) else m x

theorem Mem.store_outside (h : ¬Within a n x) : Mem.store m a n v x = m x := by
  simp [Mem.store, h]

theorem Mem.load_store_eq (m : Mem) (hv : v < 256 ^ n) : (m.store a n v).load a n = v := by
  rw [Mem.load_digits (v := v), Nat.mod_eq_of_lt hv]
  intro i hi
  have hw : Within a n (a + i) := ⟨Nat.le_add_right a i, by omega⟩
  simp [Mem.store, hw]

theorem Mem.load_store_of_apart (m : Mem) (h : Apart a n b k) :
    (m.store a n v).load b k = m.load b k :=
  Mem.load_congr fun _ hx => Mem.store_outside (h.not_within hx)

-- ---------------------------------------------------------------------------
-- Forward copies
-- ---------------------------------------------------------------------------

def Mem.put (m : Mem) (a : Nat) (b : Byte) : Mem := fun x => if x = a then b else m x

def Mem.copy (m : Mem) (dst src : Nat) : Nat → Mem
  | 0 => m
  | n + 1 => (m.copy dst src n).put (dst + n) (m.copy dst src n (src + n))

theorem Mem.copy_outside {m : Mem} (h : ¬Within dst n x) : m.copy dst src n x = m x := by
  induction n with
  | zero => rfl
  | succ n ih =>
    unfold Within at h ih
    have hx : x ≠ dst + n := by omega
    rw [Mem.copy, Mem.put, if_neg hx]
    exact ih (by omega)

theorem Mem.copy_inside {m : Mem} (h : Apart src n dst n) (hj : j < n) :
    m.copy dst src n (dst + j) = m (src + j) := by
  induction n with
  | zero => omega
  | succ n ih =>
    unfold Apart at h ih
    have hsrc : ¬Within dst n (src + n) := by
      unfold Within
      omega
    rw [Mem.copy, Mem.put]
    split
    · rename_i hlast
      obtain rfl : j = n := by omega
      exact Mem.copy_outside hsrc
    · exact ih (by omega) (by omega)

-- ---------------------------------------------------------------------------
-- Copies from another memory
-- ---------------------------------------------------------------------------

/-- The `n` bytes of `src` at `off`, written to `dst`. -/
def Mem.paste (m : Mem) (dst : Nat) (src : Mem) (off n : Nat) : Mem := fun x =>
  if Within dst n x then src (off + (x - dst)) else m x

theorem Mem.paste_inside (m src : Mem) (dst off : Nat) (h : j < n) :
    m.paste dst src off n (dst + j) = src (off + j) := by
  have hw : Within dst n (dst + j) := ⟨Nat.le_add_right dst j, by omega⟩
  rw [Mem.paste, if_pos hw, Nat.add_sub_cancel_left]

theorem Mem.paste_outside {m : Mem} (h : ¬Within dst n x) : m.paste dst src off n x = m x :=
  if_neg h

-- ---------------------------------------------------------------------------
-- Views
-- ---------------------------------------------------------------------------

def Mem.behind (m : Mem) (p : Nat) : Mem := fun j => m (p + j)

def Mem.cleared (m : Mem) (n : Nat) : Mem := fun j => if j < n then 0 else m j

end TomatoOs.Lib
