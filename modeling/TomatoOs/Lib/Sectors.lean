import TomatoOs.Lib.Bytes
import TomatoOs.Lib.Words

/-!
# A disk of sectors

Sectors have `l` bytes and numbers of 64 bits, so that a range of sectors may go
on at sector 0 behind the last. From a first sector on, a disk is a sequence of
bytes; what a write does is said of that sequence.
-/

namespace TomatoOs.Lib

/-- The byte at `off` from sector `start` on. -/
def byteAt (l : Nat) (sectors : Nat → Mem) (start : Nat) : Mem := fun off =>
  sectors ((start + off / l) % 2 ^ 64) (off % l)

/-- Sectors `lba` to `lba + len - 1` replaced by what is in memory at `buffer`. -/
def overwrite (l : Nat) (sectors : Nat → Mem) (ram : Mem) (buffer lba len : Nat) : Nat → Mem :=
  fun k j =>
    if k < 2 ^ 64 ∧ wsub 64 k lba < len ∧ j < l then ram (buffer + wsub 64 k lba * l + j)
    else sectors k j

/-- The `n` bytes at `pos`, from sector `start` on, were replaced. -/
structure Patched (l : Nat) (old new : Nat → Mem) (start pos n : Nat) (bytes : Mem) : Prop where
  byte : ∀ off < 2 ^ 64 * l, byteAt l new start off =
    if Within pos n off then bytes (off - pos) else byteAt l old start off
  rest : ∀ k j, ¬(k < 2 ^ 64 ∧ j < l) → new k j = old k j

section
variable {l start : Nat} {sectors old new : Nat → Mem}

theorem byteAt_later (hl : 0 < l) (q off : Nat) :
    byteAt l sectors (wadd 64 start q) off = byteAt l sectors start (q * l + off) := by
  have hdiv : (q * l + off) / l = q + off / l := by
    rw [Nat.mul_comm, Nat.mul_add_div hl]
  have hmod : (q * l + off) % l = off % l := by
    rw [Nat.mul_comm, Nat.mul_add_mod]
  simp only [byteAt, wadd, hdiv, hmod, Nat.mod_add_mod, Nat.add_assoc]

theorem byteAt_sector (hk : k < 2 ^ 64) (hj : j < l) :
    byteAt l sectors start (wsub 64 k start * l + j) = sectors k j := by
  have hdiv : (wsub 64 k start * l + j) / l = wsub 64 k start := by
    rw [Nat.mul_comm, Nat.mul_add_div (by omega), Nat.div_eq_of_lt hj, Nat.add_zero]
  have hmod : (wsub 64 k start * l + j) % l = j := by
    rw [Nat.mul_comm, Nat.mul_add_mod, Nat.mod_eq_of_lt hj]
  have hback : (start + wsub 64 k start) % 2 ^ 64 = k := by
    rw [wsub, Nat.add_mod_mod]
    omega
  rw [byteAt, hdiv, hmod, hback]

theorem mul_mod_add_le (hd : d ∣ m) (hm : 0 < m) (i : Nat) : i * d % m + d ≤ m := by
  obtain ⟨c, rfl⟩ := hd
  have hc : 0 < c := Nat.pos_of_mul_pos_left hm
  have hmod : i * d % (d * c) = i % c * d := by
    rw [Nat.mul_comm d c, Nat.mul_mod_mul_right]
  have hlast : (i % c + 1) * d ≤ c * d := Nat.mul_le_mul_right d (Nat.mod_lt i hc)
  rwa [hmod, Nat.mul_comm d c, ← Nat.succ_mul]

theorem overwrite_patched (hl : 0 < l) (hq : q + len ≤ 2 ^ 64) (ram : Mem) (buffer : Nat) :
    Patched l sectors (overwrite l sectors ram buffer (wadd 64 start q) len) start (q * l) (len * l)
      fun j => ram (buffer + j) := by
  refine ⟨fun off hoff => ?_, fun k j hno => if_neg fun h => hno ⟨h.1, h.2.2⟩⟩
  have hm : off / l < 2 ^ 64 := (Nat.div_lt_iff_lt_mul hl).mpr hoff
  have hsplit := Nat.div_add_mod' off l
  have hmod := Nat.mod_lt off hl
  have hk : (start + off / l) % 2 ^ 64 < 2 ^ 64 := Nat.mod_lt _ (by decide)
  have hdist : wsub 64 ((start + off / l) % 2 ^ 64) (wadd 64 start q) = wsub 64 (off / l) q := by
    simp only [wsub, wadd]
    omega
  have hin : wsub 64 (off / l) q < len ↔ Within (q * l) (len * l) off := by
    rw [Within, ← Nat.add_mul, ← Nat.le_div_iff_mul_le hl, ← Nat.div_lt_iff_lt_mul hl]
    exact wsub_lt_iff hm hq
  simp only [byteAt, overwrite, hdist, hk, hmod, true_and, and_true, hin]
  split
  · rename_i hw
    have hle : q ≤ off / l := (Nat.le_div_iff_mul_le hl).mpr hw.1
    have hmul : (off / l - q) * l = off / l * l - q * l := Nat.sub_mul ..
    have hlow := Nat.mul_le_mul_right l hle
    rw [wsub_eq hle hm]
    congr 1
    omega
  · rfl

theorem overwrite_congr {ram ram' : Mem} (h : ∀ j < len * l, ram' (b' + j) = ram (b + j)) :
    overwrite l sectors ram' b' lba len = overwrite l sectors ram b lba len := by
  funext k j
  simp only [overwrite]
  split
  · rename_i hin
    have hlt : wsub 64 k lba * l + j < len * l := by
      have := Nat.mul_le_mul_right l hin.2.1
      rw [Nat.succ_mul] at this
      omega
    rw [Nat.add_assoc, h _ hlt, Nat.add_assoc]
  · rfl

theorem Patched.narrow (h : Patched l old new start pos n bytes) (hlo : pos ≤ pos')
    (hhi : pos' + n' ≤ pos + n)
    (hold : ∀ j < n, ¬Within pos' n' (pos + j) → bytes j = byteAt l old start (pos + j))
    (hnew : ∀ j < n', bytes (pos' - pos + j) = bytes' j) :
    Patched l old new start pos' n' bytes' := by
  refine ⟨fun off hoff => ?_, h.rest⟩
  rw [h.byte off hoff]
  by_cases hin : Within pos' n' off
  · have hout : Within pos n off := ⟨by have := hin.1; omega, by have := hin.2; omega⟩
    have hj := hnew (off - pos') (by have := hin.2; have := hin.1; omega)
    rw [if_pos hin, if_pos hout, ← hj]
    congr 1
    have := hin.1
    omega
  · rw [if_neg hin]
    split
    · rename_i hout
      obtain ⟨j, rfl⟩ := Nat.exists_eq_add_of_le hout.1
      rw [Nat.add_sub_cancel_left]
      exact hold j (by have := hout.2; omega) hin
    · rfl

theorem Patched.inside (h : Patched l old new start pos n bytes) (hend : pos + n ≤ 2 ^ 64 * l)
    (hj : j < n) : byteAt l new start (pos + j) = bytes j := by
  rw [h.byte _ (by omega), if_pos ⟨Nat.le_add_right .., by omega⟩, Nat.add_sub_cancel_left]

theorem Patched.outside (h : Patched l old new start pos n bytes) (hoff : off < 2 ^ 64 * l)
    (hno : ¬Within pos n off) : byteAt l new start off = byteAt l old start off := by
  rw [h.byte off hoff, if_neg hno]

theorem Patched.sector (h : Patched l old new start pos n bytes)
    (hno : ¬(k < 2 ^ 64 ∧ j < l ∧ Within pos n (wsub 64 k start * l + j))) : new k j = old k j := by
  by_cases hin : k < 2 ^ 64 ∧ j < l
  · obtain ⟨hk, hj⟩ := hin
    have hoff : wsub 64 k start * l + j < 2 ^ 64 * l := by
      have hle := Nat.mul_le_mul_right l (Nat.succ_le_of_lt (wsub_lt 64 k start))
      rw [Nat.succ_mul] at hle
      omega
    have hsame := h.outside hoff fun hw => hno ⟨hk, hj, hw⟩
    rwa [byteAt_sector hk hj, byteAt_sector hk hj] at hsame
  · exact h.rest k j hin

theorem Patched.elsewhere (h : Patched l old new start pos n bytes)
    (hend : start * l + pos + n ≤ 2 ^ 64 * l) (hoff : start' * l + off < 2 ^ 64 * l)
    (hno : ¬Within (start * l + pos) n (start' * l + off)) :
    byteAt l new start' off = byteAt l old start' off := by
  have hl : 0 < l := Nat.pos_of_ne_zero fun h0 => by simp [h0] at hoff
  have hplace : (start' + off / l) * l + off % l = start' * l + off := by
    rw [Nat.add_mul, Nat.add_assoc, Nat.div_add_mod']
  have hk : start' + off / l < 2 ^ 64 := by
    refine Nat.lt_of_mul_lt_mul_right (a := l) ?_
    omega
  rw [byteAt, byteAt, Nat.mod_eq_of_lt hk]
  generalize start' + off / l = k at hk hplace
  refine h.sector fun ⟨_, _, hlo, hhi⟩ => ?_
  rcases Nat.lt_or_ge k start with hlt | hge
  · -- from `start` on, sector `k` comes after the last one
    have hdist : wsub 64 k start = 2 ^ 64 + k - start := by
      unfold wsub
      have : start < 2 ^ 64 := by
        refine Nat.lt_of_mul_lt_mul_right (a := l) ?_
        omega
      omega
    have hmul : (2 ^ 64 + k - start) * l = 2 ^ 64 * l + k * l - start * l := by
      rw [Nat.sub_mul, Nat.add_mul]
    rw [hdist, hmul] at hhi
    omega
  · rw [wsub_eq hge hk, Nat.sub_mul] at hlo hhi
    have := Nat.mul_le_mul_right l hge
    exact hno ⟨by omega, by omega⟩

end

end TomatoOs.Lib
