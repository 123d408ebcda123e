import Mathlib.Tactic

/-!
# Fixed-width unsigned arithmetic on naturals

C's unsigned operators at width `w`, on naturals below `2 ^ w`. Each wrapped
operator comes with the lemma that says when it is the exact one. Code that is
written over an `Arith` can be read twice: with operators that wrap, and with
operators that stop where the others would wrap or divide by zero.
-/

namespace TomatoOs.Lib

def wadd (w a b : Nat) : Nat := (a + b) % 2 ^ w

def wsub (w a b : Nat) : Nat := (a + (2 ^ w - b % 2 ^ w)) % 2 ^ w

def wmul (w a b : Nat) : Nat := a * b % 2 ^ w

theorem wadd_lt (w a b : Nat) : wadd w a b < 2 ^ w := Nat.mod_lt _ (Nat.two_pow_pos w)

theorem wsub_lt (w a b : Nat) : wsub w a b < 2 ^ w := Nat.mod_lt _ (Nat.two_pow_pos w)

theorem wmul_lt (w a b : Nat) : wmul w a b < 2 ^ w := Nat.mod_lt _ (Nat.two_pow_pos w)

theorem wadd_eq (h : a + b < 2 ^ w) : wadd w a b = a + b := Nat.mod_eq_of_lt h

theorem wmul_eq (h : a * b < 2 ^ w) : wmul w a b = a * b := Nat.mod_eq_of_lt h

theorem wsub_eq (hb : b ≤ a) (ha : a < 2 ^ w) : wsub w a b = a - b := by
  have hlt : b % 2 ^ w = b := Nat.mod_eq_of_lt (by omega)
  have he : a + (2 ^ w - b) = a - b + 2 ^ w := by omega
  rw [wsub, hlt, he, Nat.add_mod_right, Nat.mod_eq_of_lt (by omega)]

/-- The distance from `b` to `a` tells whether `a` is one of the `n` numbers from
`b` on. -/
theorem wsub_lt_iff (ha : a < 2 ^ w) (hb : b + n ≤ 2 ^ w) : wsub w a b < n ↔ b ≤ a ∧ a < b + n := by
  rcases Nat.lt_or_ge a b with hlt | hle
  · rcases Nat.eq_zero_or_pos n with rfl | hn
    · omega
    · rw [wsub, Nat.mod_eq_of_lt (a := b) (by omega), Nat.mod_eq_of_lt (by omega)]
      omega
  · rw [wsub_eq hle ha]
    omega

-- ---------------------------------------------------------------------------
-- Two readings of one expression
-- ---------------------------------------------------------------------------

/-- Operators at a width, and the conversion to it. -/
structure Arith (m : Type → Type) where
  add : Nat → Nat → Nat → m Nat
  sub : Nat → Nat → Nat → m Nat
  shl : Nat → Nat → Nat → m Nat
  cast : Nat → Nat → m Nat
  div : Nat → Nat → m Nat

def wrapping : Arith Id where
  add w a b := wadd w a b
  sub w a b := wsub w a b
  shl w a b := wmul w a (2 ^ b)
  cast w a := a % 2 ^ w
  div a b := a / b

def checked : Arith Option where
  add w a b := if a + b < 2 ^ w then some (a + b) else none
  sub w a b := if b ≤ a ∧ a < 2 ^ w then some (a - b) else none
  shl w a b := if a * 2 ^ b < 2 ^ w then some (a * 2 ^ b) else none
  cast w a := if a < 2 ^ w then some a else none
  div a b := if b = 0 then none else some (a / b)

theorem bind_some {x : Option α} {f : α → Option β} (hx : x = some a) (hf : f a = some b) :
    x >>= f = some b := by
  rw [hx]
  exact hf

theorem checked_add (h : a + b < 2 ^ w) :
    checked.add w a b = some (a + b) ∧ wrapping.add w a b = a + b :=
  ⟨if_pos h, wadd_eq h⟩

theorem checked_sub (hb : b ≤ a) (ha : a < 2 ^ w) :
    checked.sub w a b = some (a - b) ∧ wrapping.sub w a b = a - b :=
  ⟨if_pos ⟨hb, ha⟩, wsub_eq hb ha⟩

theorem checked_shl (h : a * 2 ^ b < 2 ^ w) :
    checked.shl w a b = some (a * 2 ^ b) ∧ wrapping.shl w a b = a * 2 ^ b :=
  ⟨if_pos h, wmul_eq h⟩

theorem checked_cast (h : a < 2 ^ w) : checked.cast w a = some a ∧ wrapping.cast w a = a :=
  ⟨if_pos h, Nat.mod_eq_of_lt h⟩

theorem checked_div (h : b ≠ 0) :
    checked.div a b = some (a / b) ∧ wrapping.div a b = a / b :=
  ⟨if_neg h, rfl⟩

theorem checked_roundUp (h : a + b < 2 ^ w) (hb : 0 < b) :
    (checked.add w a b = some (a + b) ∧ wrapping.add w a b = a + b) ∧
      (checked.sub w (a + b) 1 = some (a + b - 1) ∧ wrapping.sub w (a + b) 1 = a + b - 1) ∧
      checked.div (a + b - 1) b = some ((a + b - 1) / b) ∧
      wrapping.div (a + b - 1) b = (a + b - 1) / b :=
  ⟨checked_add h, checked_sub (by omega) h, checked_div (by omega)⟩

end TomatoOs.Lib
