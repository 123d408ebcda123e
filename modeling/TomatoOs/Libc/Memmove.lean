import TomatoOs.Lib.Bytes
import TomatoOs.Lib.Moves

/-!
# memmove

The two loops of `memmove` are sequences of moves in opposite orders, and the
comparison of the pointers selects the order in which no byte is overwritten
before it is read.
-/

namespace TomatoOs.Libc

open Lib

abbrev FlatMemory := BitVec 64 → Byte

-- ---------------------------------------------------------------------------
-- memmove
-- ---------------------------------------------------------------------------

def byteMove (dst src i : BitVec 64) : Move (BitVec 64) := ⟨dst + i, src + i⟩

def copyUpwards (dst src size i : BitVec 64) (m : FlatMemory) : FlatMemory :=
  if i < size then copyUpwards dst src size (i + 1) ((byteMove dst src i).apply m)
  else m
termination_by size.toNat - i.toNat
decreasing_by bv_omega

def copyDownwards (dst src i : BitVec 64) (m : FlatMemory) : FlatMemory :=
  if i ≠ 0 then copyDownwards dst src (i - 1) ((byteMove dst src (i - 1)).apply m)
  else m
termination_by i.toNat
decreasing_by bv_omega

def memmove (dstptr srcptr size : BitVec 64) (m : FlatMemory) : BitVec 64 × FlatMemory :=
  (dstptr,
    if dstptr < srcptr then copyUpwards dstptr srcptr size 0 m
    else copyDownwards dstptr srcptr size m)

-- ---------------------------------------------------------------------------
-- The loops as moves
-- ---------------------------------------------------------------------------

def indexMove (dst src : BitVec 64) (i : Nat) : Move (BitVec 64) :=
  byteMove dst src (BitVec.ofNat 64 i)

theorem indexMove_toNat (dst src i : BitVec 64) :
    indexMove dst src i.toNat = byteMove dst src i := by
  rw [indexMove, BitVec.ofNat_toNat, BitVec.setWidth_eq]

theorem copyUpwards_eq (dst src size i : BitVec 64) (m : FlatMemory) :
    copyUpwards dst src size i m =
      Move.perform ((List.range' i.toNat (size.toNat - i.toNat)).map (indexMove dst src)) m := by
  fun_induction copyUpwards with
  | case1 i m hi ih =>
    have hnext : (i + 1).toNat = i.toNat + 1 := by bv_omega
    have hcount : size.toNat - i.toNat = size.toNat - (i.toNat + 1) + 1 := by bv_omega
    rw [ih, hnext, hcount, List.range'_succ, List.map_cons, Move.perform, indexMove_toNat]
  | case2 i m hi =>
    have hcount : size.toNat - i.toNat = 0 := by bv_omega
    rw [hcount]
    rfl

theorem copyDownwards_eq (dst src i : BitVec 64) (m : FlatMemory) :
    copyDownwards dst src i m =
      Move.perform ((List.range i.toNat).reverse.map (indexMove dst src)) m := by
  fun_induction copyDownwards with
  | case1 i m hi ih =>
    have hnext : i.toNat = (i - 1).toNat + 1 := by bv_omega
    rw [ih, hnext, List.range_succ, List.reverse_append, List.reverse_singleton,
      List.singleton_append, List.map_cons, Move.perform, indexMove_toNat]
  | case2 i m hi =>
    rw [Classical.not_not.mp hi]
    rfl

-- ---------------------------------------------------------------------------
-- A simultaneous copy
-- ---------------------------------------------------------------------------

/-- Every byte of the destination is what the source held before, and nothing
else is written. -/
structure SimultaneousCopy (dst src size : BitVec 64) (before after : FlatMemory) : Prop where
  inside : ∀ i < size, after (dst + i) = before (src + i)
  outside : ∀ x : BitVec 64, ¬Within dst.toNat size.toNat x.toNat → after x = before x

def NoWrap (p size : BitVec 64) : Prop := p.toNat + size.toNat ≤ 2 ^ 64

theorem NoWrap.toNat_add (h : NoWrap p size) (hi : i < size.toNat) :
    (p + BitVec.ofNat 64 i).toNat = p.toNat + i := by
  unfold NoWrap at h
  have hlt : i < 2 ^ 64 := hi.trans size.isLt
  rw [BitVec.toNat_add, BitVec.toNat_ofNat, Nat.mod_eq_of_lt hlt, Nat.mod_eq_of_lt (by omega)]

/-- A move made before another leaves it alone when its target is below the other's
source, or above. -/
theorem indexMove_allows (hdst : NoWrap dst size) (hsrc : NoWrap src size)
    (hi : i < size.toNat) (hj : j < size.toNat) (hne : i ≠ j)
    (happart : dst.toNat + i ≠ src.toNat + j) :
    (indexMove dst src i).Allows (indexMove dst src j) := by
  have hti := hdst.toNat_add hi
  constructor
  · intro h
    have := congrArg BitVec.toNat h
    rw [indexMove, indexMove, byteMove, byteMove, hti, hdst.toNat_add hj] at this
    omega
  · intro h
    have := congrArg BitVec.toNat h
    rw [indexMove, indexMove, byteMove, byteMove, hti, hsrc.toNat_add hj] at this
    omega

/-- The order of the indices does not matter as long as the moves allow each other. -/
theorem simultaneousCopy_of_pairwise {indices : List Nat} (hdst : NoWrap dst size)
    (hindices : ∀ i, i ∈ indices ↔ i < size.toNat)
    (h : (indices.map (indexMove dst src)).Pairwise Move.Allows) :
    SimultaneousCopy dst src size m (Move.perform (indices.map (indexMove dst src)) m) where
  inside i hi := by
    have hmem : byteMove dst src i ∈ indices.map (indexMove dst src) :=
      List.mem_map.mpr ⟨i.toNat, (hindices _).mpr hi, indexMove_toNat dst src i⟩
    exact Move.perform_target h hmem
  outside x hx := by
    apply Move.perform_of_not_target
    intro move hmove htarget
    obtain ⟨i, hi, rfl⟩ := List.mem_map.mp hmove
    have hlt := (hindices i).mp hi
    have hat : x.toNat = dst.toNat + i := by
      rw [← hdst.toNat_add hlt, ← htarget]
      rfl
    exact hx ⟨by omega, by omega⟩

theorem copyUpwards_simultaneous (hdst : NoWrap dst size) (hsrc : NoWrap src size)
    (h : dst < src) : SimultaneousCopy dst src size m (copyUpwards dst src size 0 m) := by
  rw [copyUpwards_eq]
  refine simultaneousCopy_of_pairwise hdst (by simp) ?_
  rw [List.pairwise_map]
  apply List.Pairwise.imp_of_mem _ List.pairwise_lt_range'
  intro i j hi hj hij
  -- What is written lies below everything still to be read.
  have hbelow : dst.toNat < src.toNat := h
  simp only [List.mem_range'_1] at hi hj
  exact indexMove_allows hdst hsrc (by simpa using hi.2) (by simpa using hj.2) (by omega) (by omega)

theorem copyDownwards_simultaneous (hdst : NoWrap dst size) (hsrc : NoWrap src size)
    (h : ¬dst < src) : SimultaneousCopy dst src size m (copyDownwards dst src size m) := by
  rw [copyDownwards_eq]
  refine simultaneousCopy_of_pairwise hdst (by simp) ?_
  rw [List.pairwise_map, List.pairwise_reverse]
  apply List.Pairwise.imp_of_mem _ List.pairwise_lt_range
  intro j i hj hi hji
  have habove : src.toNat ≤ dst.toNat := Nat.le_of_not_lt h
  simp only [List.mem_range] at hi hj
  exact indexMove_allows hdst hsrc hi hj (by omega) (by omega)

/-- However the two ranges overlap. -/
theorem memmove_simultaneous (hdst : NoWrap dst size) (hsrc : NoWrap src size) :
    SimultaneousCopy dst src size m (memmove dst src size m).2 := by
  unfold memmove
  split
  · case isTrue h => exact copyUpwards_simultaneous hdst hsrc h
  · case isFalse h => exact copyDownwards_simultaneous hdst hsrc h

/-- Four bytes moved up by two: the last two are read before they are overwritten. -/
theorem memmove_overlapping :
    NoWrap 2 4 ∧ NoWrap 0 4 ∧
      SimultaneousCopy 2 0 4 (fun x => x.setWidth 8) (memmove 2 0 4 fun x => x.setWidth 8).2 := by
  have hdst : NoWrap 2 4 := by unfold NoWrap; decide
  have hsrc : NoWrap 0 4 := by unfold NoWrap; decide
  exact ⟨hdst, hsrc, memmove_simultaneous hdst hsrc⟩

end TomatoOs.Libc
