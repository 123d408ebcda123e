import TomatoOs.Lib.Bytes

/-!
# Bitmaps packed into bytes

Bit `i` is bit `i % 8` of byte `i / 8`. `set` and `clear` change one bit and
no other, also of the same byte; runs of bits follow by induction.
-/

namespace TomatoOs.Lib.Bitmap

def mask (i : Nat) : Byte := 1#8 <<< (i % 8)

def test (m : Mem) (i : Nat) : Bool := m (i / 8) &&& mask i != 0#8

def set (m : Mem) (i : Nat) : Mem := m.put (i / 8) (m (i / 8) ||| mask i)

def clear (m : Mem) (i : Nat) : Mem := m.put (i / 8) (m (i / 8) &&& ~~~mask i)

def setRun (m : Mem) (i : Nat) : Nat → Mem
  | 0 => m
  | n + 1 => setRun (set m i) (i + 1) n

def clearRun (m : Mem) (i : Nat) : Nat → Mem
  | 0 => m
  | n + 1 => clearRun (clear m i) (i + 1) n

theorem mask_bit (i k : Nat) (hk : k < 8) : (mask i).getLsbD k = decide (k = i % 8) := by
  have hi : i % 8 < 8 := Nat.mod_lt i (by decide)
  unfold mask
  generalize i % 8 = r at hi ⊢
  interval_cases r <;> interval_cases k <;> rfl

theorem test_eq (m : Mem) (i : Nat) : test m i = (m (i / 8)).getLsbD (i % 8) := by
  have hi : i % 8 < 8 := Nat.mod_lt i (by decide)
  have hone : (m (i / 8) &&& mask i = 0#8) ↔ (m (i / 8)).getLsbD (i % 8) = false := by
    constructor
    · intro h
      have := congrArg (fun b => b.getLsbD (i % 8)) h
      simpa [mask_bit i (i % 8) hi] using this
    · intro h
      refine BitVec.eq_of_getLsbD_eq fun k hk => ?_
      rw [BitVec.getLsbD_and, mask_bit i k hk]
      by_cases hki : k = i % 8
      · simp [hki, h]
      · simp [hki]
  unfold test
  cases hb : (m (i / 8)).getLsbD (i % 8) with
  | false => simp [hone.mpr hb]
  | true =>
    have : m (i / 8) &&& mask i ≠ 0#8 := fun h => by simp [hone.mp h] at hb
    simpa using this

theorem same_byte (h : j / 8 = i / 8) : j % 8 = i % 8 ↔ i = j := by
  constructor <;> intro <;> omega

theorem test_set (m : Mem) (i j : Nat) : test (set m i) j = (decide (i = j) || test m j) := by
  have hj : j % 8 < 8 := Nat.mod_lt j (by decide)
  rw [test_eq, test_eq, set, Mem.put]
  split
  · rename_i hb
    rw [BitVec.getLsbD_or, mask_bit i (j % 8) hj, hb, Bool.or_comm]
    simp only [same_byte hb]
  · rename_i hb
    have hne : i ≠ j := fun h => hb (by rw [h])
    simp [hne]

theorem test_clear (m : Mem) (i j : Nat) : test (clear m i) j = (!decide (i = j) && test m j) := by
  have hj : j % 8 < 8 := Nat.mod_lt j (by decide)
  rw [test_eq, test_eq, clear, Mem.put]
  split
  · rename_i hb
    rw [BitVec.getLsbD_and, BitVec.getLsbD_not, mask_bit i (j % 8) hj, hb, Bool.and_comm]
    simp only [same_byte hb, hj, decide_true, Bool.true_and]
  · rename_i hb
    have hne : i ≠ j := fun h => hb (by rw [h])
    simp [hne]

theorem clear_set (h : test m i = false) : clear (set m i) i = m := by
  have hone : m (i / 8) &&& mask i = 0#8 := by simpa [test] using h
  have hbyte : (m (i / 8) ||| mask i) &&& ~~~mask i = m (i / 8) := by
    refine BitVec.eq_of_getLsbD_eq fun k hk => ?_
    have hbit := congrArg (fun b => b.getLsbD k) hone
    simp only [BitVec.getLsbD_and, BitVec.getLsbD_zero] at hbit
    simp only [BitVec.getLsbD_and, BitVec.getLsbD_or, BitVec.getLsbD_not, hk, decide_true,
      Bool.true_and]
    revert hbit
    cases (m (i / 8)).getLsbD k <;> cases (mask i).getLsbD k <;> simp
  funext x
  simp only [clear, set, Mem.put, if_true]
  split
  · rename_i hx
    rw [hbyte, hx]
  · rfl

theorem test_setRun (m : Mem) (i n j : Nat) :
    test (setRun m i n) j = true ↔ i ≤ j ∧ j < i + n ∨ test m j = true := by
  induction n generalizing m i with
  | zero => simp [setRun]
  | succ n ih =>
    have hrun : i ≤ j ∧ j < i + (n + 1) ↔ i + 1 ≤ j ∧ j < i + 1 + n ∨ i = j := by omega
    rw [setRun, ih, test_set, Bool.or_eq_true, decide_eq_true_eq, hrun, or_assoc]

theorem test_clearRun (m : Mem) (i n j : Nat) :
    test (clearRun m i n) j = true ↔ ¬(i ≤ j ∧ j < i + n) ∧ test m j = true := by
  induction n generalizing m i with
  | zero => simp [clearRun]
  | succ n ih =>
    have hrun : ¬(i ≤ j ∧ j < i + (n + 1)) ↔ ¬(i + 1 ≤ j ∧ j < i + 1 + n) ∧ ¬i = j := by omega
    rw [clearRun, ih, test_clear, Bool.and_eq_true, Bool.not_eq_true', decide_eq_false_iff_not,
      hrun, and_assoc]

theorem test_cleared (m : Mem) (n i : Nat) :
    test (m.cleared n) i = (decide (8 * n ≤ i) && test m i) := by
  rw [test_eq, test_eq, Mem.cleared]
  by_cases h : 8 * n ≤ i
  · rw [if_neg (by omega), decide_eq_true h, Bool.true_and]
  · rw [if_pos (by omega), decide_eq_false h, Bool.false_and]
    exact BitVec.getLsbD_zero

end TomatoOs.Lib.Bitmap
