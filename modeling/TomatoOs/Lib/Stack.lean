import TomatoOs.Lib.Bytes

/-!
# A stack of words in memory

A stack grows down in steps of eight bytes, through address 0 if it comes to
that. While its pointer is aligned no two words on it share a byte, so a push
adds one word in front of the others and a pop gives it back.
-/

namespace TomatoOs.Lib

abbrev Word := BitVec 64

def Mem.word (m : Mem) (a : Word) : Word := BitVec.ofNat 64 (m.load a.toNat 8)

def Mem.putWord (m : Mem) (a w : Word) : Mem := m.store a.toNat 8 w.toNat

structure Stacked (m : Mem) (sp : Word) (ws : List Word) : Prop where
  aligned : sp.toNat % 8 = 0
  word : ∀ i w, ws[i]? = some w → m.word (sp + BitVec.ofNat 64 (8 * i)) = w

section
variable {m : Mem} {sp w : Word} {ws : List Word}

theorem Mem.word_putWord (m : Mem) (a w : Word) : (m.putWord a w).word a = w := by
  have hw : w.toNat < 256 ^ 8 := w.isLt
  rw [Mem.word, Mem.putWord, Mem.load_store_eq m hw, BitVec.ofNat_toNat, BitVec.setWidth_eq]

theorem Mem.word_putWord_ne {a b : Word} (ha : a.toNat % 8 = 0) (hb : b.toNat % 8 = 0) (h : b ≠ a)
    (m : Mem) (w : Word) : (m.putWord a w).word b = m.word b := by
  have hne : b.toNat ≠ a.toNat := fun he => h (BitVec.eq_of_toNat_eq he)
  have hapart : Apart a.toNat 8 b.toNat 8 := by
    unfold Apart
    omega
  rw [Mem.word, Mem.putWord, Mem.load_store_of_apart m hapart, Mem.word]

theorem slot_toNat (sp : Word) (i : Nat) :
    (sp + BitVec.ofNat 64 (8 * i)).toNat = (sp.toNat + 8 * i) % 2 ^ 64 := by
  rw [BitVec.toNat_add, BitVec.toNat_ofNat, Nat.add_mod_mod]

theorem Stacked.push (h : Stacked m sp ws) (hlen : ws.length < 2 ^ 60) (w : Word) :
    Stacked (m.putWord (sp - 8#64) w) (sp - 8#64) (w :: ws) := by
  have hsp := h.aligned
  have hlow : (sp - 8#64).toNat % 8 = 0 := by
    rw [BitVec.toNat_sub]
    simp only [BitVec.toNat_ofNat]
    omega
  refine ⟨hlow, fun i x hx => ?_⟩
  cases i with
  | zero =>
    obtain rfl : w = x := by simpa using hx
    simpa using m.word_putWord (sp - 8#64) w
  | succ i =>
    rw [List.getElem?_cons_succ] at hx
    have hi : i < ws.length := (List.getElem?_eq_some_iff.mp hx).1
    -- the slot is the one it was before the push
    have hslot : sp - 8#64 + BitVec.ofNat 64 (8 * (i + 1)) = sp + BitVec.ofNat 64 (8 * i) := by
      apply BitVec.eq_of_toNat_eq
      rw [slot_toNat, slot_toNat, BitVec.toNat_sub]
      simp only [BitVec.toNat_ofNat]
      omega
    have hne : sp + BitVec.ofNat 64 (8 * i) ≠ sp - 8#64 := by
      intro he
      have := congrArg BitVec.toNat he
      rw [slot_toNat, BitVec.toNat_sub] at this
      simp only [BitVec.toNat_ofNat] at this
      have := sp.isLt
      omega
    have hal : (sp + BitVec.ofNat 64 (8 * i)).toNat % 8 = 0 := by
      rw [slot_toNat]
      omega
    rw [hslot, Mem.word_putWord_ne hlow hal hne]
    exact h.word i x hx

theorem Stacked.pop (h : Stacked m sp (w :: ws)) : m.word sp = w ∧ Stacked m (sp + 8#64) ws := by
  have hsp := h.aligned
  refine ⟨by simpa using h.word 0 w rfl, ?_, fun i x hx => ?_⟩
  · rw [BitVec.toNat_add]
    simp only [BitVec.toNat_ofNat]
    omega
  · have hslot : sp + 8#64 + BitVec.ofNat 64 (8 * i) = sp + BitVec.ofNat 64 (8 * (i + 1)) := by
      apply BitVec.eq_of_toNat_eq
      rw [slot_toNat, slot_toNat, BitVec.toNat_add]
      simp only [BitVec.toNat_ofNat]
      omega
    rw [hslot]
    exact h.word (i + 1) x hx

end

end TomatoOs.Lib
