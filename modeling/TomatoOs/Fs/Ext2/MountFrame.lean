import TomatoOs.Fs.Ext2.MountLaws

/-!
# What a mount does not write

The transfers of a mount go to pages that were free when it began. A page that was
handed out before keeps what it holds, and the disk is not written.
-/

namespace TomatoOs.Fs.Ext2

open Lib Memory

structure Untouched (a : Nat) (s t : Kern) : Prop where
  page : ∀ x, Within a 4096 x → t.ram x = s.ram x
  sectors : t.sectors = s.sectors

theorem Untouched.of_eq (hram : t.ram = s.ram) (hsectors : t.sectors = s.sectors) :
    Untouched a s t :=
  ⟨fun _ _ => by rw [hram], hsectors⟩

theorem Untouched.refl (a : Nat) (s : Kern) : Untouched a s s := .of_eq rfl rfl

theorem Untouched.trans (h : Untouched a s t) (h' : Untouched a t u) : Untouched a s u :=
  ⟨fun x hx => (h'.page x hx).trans (h.page x hx), h'.sectors.trans h.sectors⟩

/-- No free page overlaps the page at `a`. -/
def Reserved (a : Nat) (p : Pmm) : Prop := ∀ j, p.Free j → Apart (p.page j) 4096 a 4096

theorem Reserved.take (h : Reserved a p) (i : Nat) : Reserved a (p.take i) :=
  fun j hj => h j (Pmm.free_take_iff.mp hj).1

section
variable {E : Env} {s t : Kern} {fs a : Nat}

-- ---------------------------------------------------------------------------
-- Reads
-- ---------------------------------------------------------------------------

end

end TomatoOs.Fs.Ext2
