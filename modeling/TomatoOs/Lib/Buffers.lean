import Mathlib.Data.List.Induction
import Mathlib.Data.List.Infix
import TomatoOs.Lib.Bytes

/-!
# Buffers and numerals

A local array of a C function has a size, and an access beyond it is `none`. A loop
that fills one is a `Buffer.write` of some bytes. `numeral b n` is the numeral of `n`
to the base `b` in ASCII. Loops that take the last digit first leave it backwards in a
buffer; `Buffer.reverse` is the loop that turns a range around where it stands.
-/

namespace TomatoOs.Lib

-- ---------------------------------------------------------------------------
-- Buffers
-- ---------------------------------------------------------------------------

structure Buffer (size : Nat) where
  bytes : List Byte
  length_eq : bytes.length = size

def Buffer.put (b : Buffer size) (i : Nat) (c : Byte) : Option (Buffer size) :=
  if i < size then some ⟨b.bytes.set i c, by rw [List.length_set, b.length_eq]⟩ else none

/-- The bytes one after the other from `i` on, and the index behind them. -/
def Buffer.write (b : Buffer size) (i : Nat) : List Byte → Option (Buffer size × Nat)
  | [] => some (b, i)
  | c :: cs => (b.put i c).bind fun b => b.write (i + 1) cs

def Buffer.reverse (b : Buffer size) (start last : Nat) : Option (Buffer size) :=
  if start < last then do
    let c ← b.bytes[start]?
    let d ← b.bytes[last]?
    let b ← b.put start d
    let b ← b.put last c
    b.reverse (start + 1) (last - 1)
  else some b
termination_by last - start

section
variable {size : Nat} {b : Buffer size} {l pre post : List Byte}

theorem Buffer.put_eq (h : b.bytes = l ++ x :: post) (c : Byte) :
    ∃ b', b.put l.length c = some b' ∧ b'.bytes = l ++ c :: post := by
  have hlen := b.length_eq
  rw [h, List.length_append, List.length_cons] at hlen
  refine ⟨⟨b.bytes.set l.length c, by rw [List.length_set, b.length_eq]⟩, ?_, ?_⟩
  · rw [Buffer.put, if_pos (by omega)]
  · simp [h]

theorem Buffer.put_first (b : Buffer (size + 1)) (c : Byte) :
    ∃ b', b.put 0 c = some b' ∧ b'.bytes = [c] ++ b.bytes.tail := by
  obtain ⟨x, post, hb⟩ := List.exists_cons_of_length_eq_add_one b.length_eq
  have hb₀ : b.bytes = [] ++ x :: post := hb
  obtain ⟨b', hput, hb'⟩ := Buffer.put_eq hb₀ c
  exact ⟨b', hput, by simp [hb', hb]⟩

theorem Buffer.write_eq (cs : List Byte) (h : b.bytes = l ++ post)
    (hroom : cs.length ≤ post.length) :
    ∃ b', b.write l.length cs = some (b', l.length + cs.length) ∧
      b'.bytes = l ++ (cs ++ post.drop cs.length) := by
  induction cs generalizing b l post with
  | nil => exact ⟨b, rfl, h⟩
  | cons c cs ih =>
    cases post with
    | nil => simp at hroom
    | cons x post =>
      obtain ⟨b₁, hput, hb₁⟩ := Buffer.put_eq h c
      have hb₁' : b₁.bytes = (l ++ [c]) ++ post := by simp [hb₁]
      obtain ⟨b', hwrite, hb'⟩ := ih hb₁' (Nat.le_of_succ_le_succ hroom)
      refine ⟨b', ?_, by simp [hb']⟩
      rw [List.length_append, List.length_singleton] at hwrite
      rw [Buffer.write, hput, Option.bind_some, hwrite, List.length_cons, Nat.add_assoc,
        Nat.add_comm 1]

theorem Buffer.write_append (b : Buffer size) (i : Nat) (cs ds : List Byte) :
    b.write i (cs ++ ds) = (b.write i cs).bind fun r => r.1.write r.2 ds := by
  induction cs generalizing b i with
  | nil => rfl
  | cons c cs ih =>
    rw [List.cons_append, Buffer.write, Buffer.write, Option.bind_assoc]
    exact congrArg (Option.bind _) (funext fun b => ih b (i + 1))

theorem Buffer.reverse_eq (ds : List Byte) (h : b.bytes = pre ++ (ds ++ post)) :
    ∃ b', b.reverse pre.length (pre.length + ds.length - 1) = some b' ∧
      b'.bytes = pre ++ (ds.reverse ++ post) := by
  induction ds using List.bidirectionalRec generalizing b pre post with
  | nil =>
    rw [Buffer.reverse, if_neg (by simp)]
    exact ⟨b, rfl, h⟩
  | singleton a =>
    rw [Buffer.reverse, if_neg (by simp)]
    exact ⟨b, rfl, h⟩
  | cons_append a l c ih =>
    have hlast : pre.length + (a :: (l ++ [c])).length - 1 = (pre ++ a :: l).length := by simp
    have hfirst : b.bytes = pre ++ a :: (l ++ c :: post) := by simp [h]
    have hend : b.bytes = (pre ++ a :: l) ++ c :: post := by simp [h]
    -- the two outer bytes are exchanged
    obtain ⟨b₁, hput₁, hb₁⟩ := Buffer.put_eq hfirst c
    have hb₁' : b₁.bytes = (pre ++ c :: l) ++ c :: post := by simp [hb₁]
    obtain ⟨b₂, hput₂, hb₂⟩ := Buffer.put_eq hb₁' a
    have hinner : b₂.bytes = (pre ++ [c]) ++ (l ++ (a :: post)) := by simp [hb₂]
    obtain ⟨b', hrec, hb'⟩ := ih hinner
    refine ⟨b', ?_, by simp [hb']⟩
    have hget₁ : b.bytes[pre.length]? = some a := by simp [hfirst]
    have hget₂ : b.bytes[(pre ++ a :: l).length]? = some c := by
      rw [hend, List.getElem?_append_right (Nat.le_refl _), Nat.sub_self]
      rfl
    have hlen : (pre ++ c :: l).length = (pre ++ a :: l).length := by simp
    have hinner' : (pre ++ [c]).length + l.length - 1 = (pre ++ a :: l).length - 1 := by simp
    rw [hlen] at hput₂
    rw [hinner', List.length_append, List.length_singleton] at hrec
    rw [hlast, Buffer.reverse, if_pos (by simp)]
    simp only [hget₁, hget₂, hput₁, hput₂, Option.bind_eq_bind, Option.bind_some]
    exact hrec

end

-- ---------------------------------------------------------------------------
-- Numerals
-- ---------------------------------------------------------------------------

def ascii (c : Char) : Byte := BitVec.ofNat 8 c.toNat

def numeral (b n : Nat) : List Byte := (Nat.toDigits b n).map ascii

def lowFirst (b n : Nat) : List Byte := if n = 0 then [] else (numeral b n).reverse

section
variable {b n k : Nat}

theorem numeral_of_lt (h : n < b) : numeral b n = [ascii n.digitChar] := by
  rw [numeral, Nat.toDigits_of_lt_base h, List.map_singleton]

theorem numeral_step (hb : 1 < b) (h : b ≤ n) :
    numeral b n = numeral b (n / b) ++ [ascii (n % b).digitChar] := by
  have hmod : n % b < b := Nat.mod_lt n (by omega)
  rw [← numeral_of_lt hmod, numeral, numeral, numeral, ← List.map_append,
    Nat.toDigits_append_toDigits hb (Nat.div_pos h (by omega)) hmod, Nat.div_add_mod]

theorem numeral_length_le (hb : 1 < b) (hk : 0 < k) : (numeral b n).length ≤ k ↔ n < b ^ k := by
  rw [numeral, List.length_map, Nat.length_toDigits_le_iff hb hk]

theorem numeral_length_pos (b n : Nat) : 0 < (numeral b n).length := by
  rw [numeral, List.length_map]
  exact Nat.length_toDigits_pos

theorem lowFirst_step (hb : 1 < b) (hn : 0 < n) :
    lowFirst b n = ascii (n % b).digitChar :: lowFirst b (n / b) := by
  rw [lowFirst, if_neg (by omega)]
  by_cases h : n < b
  · rw [lowFirst, Nat.div_eq_of_lt h, if_pos rfl, numeral_of_lt h, Nat.mod_eq_of_lt h]
    rfl
  · have hdiv : n / b ≠ 0 := (Nat.div_pos (Nat.le_of_not_lt h) (by omega)).ne'
    rw [lowFirst, if_neg hdiv, numeral_step hb (Nat.le_of_not_lt h), List.reverse_append]
    rfl

theorem lowFirst_length_le (hb : 1 < b) (hk : 0 < k) (hn : n < b ^ k) :
    (lowFirst b n).length ≤ k := by
  unfold lowFirst
  split
  · exact Nat.zero_le k
  · rw [List.length_reverse]
    exact (numeral_length_le hb hk).mpr hn

end

end TomatoOs.Lib
