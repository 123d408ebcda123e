import TomatoOs.Kmem.Sessions

/-!
# What is stored in an allocation

Header stores keep off the data of every block that is in use before and after a
call, as far as both blocks reach. So `krealloc` keeps what was stored, in place
and through a move: the copy is the only store to data, and it goes to a block
that nobody used.
-/

namespace TomatoOs.Kmem

open Lib

/-- The data of the blocks in use is as it was, that at `p` apart. -/
def Intact (p : Nat) (l : List Blk) (h h' : Heap) : Prop :=
  ∀ b ∈ l, b.free = false → b.data ≠ p → ∀ j < b.size, h'.mem (b.data + j) = h.mem (b.data + j)

section
variable {heap : Nat} {h h' : Heap} {A A' : Arena}

theorem Returns.data (hr : Returns heap h A h' A') (hR : Refines heap h A) (hb : b ∈ A.blocks)
    (hb' : b' ∈ A'.blocks) (ha : b'.addr = b.addr) (hj : j < b.size) (hj' : j < b'.size) :
    h'.mem (b.data + j) = h.mem (b.data + j) := by
  have hd : b'.data = b.data := by simp [Blk.data, ha]
  refine hr.stores.mem _ fun a has => ?_
  obtain ⟨c, hc, rfl⟩ := List.mem_map.mp has
  rcases List.mem_append.mp hc with hc | hc
  · exact (hR.ok.ordered.apart_data hb hc).not_within ⟨Nat.le_add_right .., by omega⟩
  · refine (hr.refines.ok.ordered.apart_data hb' hc).not_within ?_
    rw [hd]
    exact ⟨Nat.le_add_right .., by omega⟩

theorem Returns.intact (hr : Returns heap h A h' A') (hR : Refines heap h A)
    (hk : Keeps p A.blocks A'.blocks) : Intact p A.blocks h h' := by
  intro b hb hf hp j hj
  obtain ⟨b', hb', ha, hsz, -⟩ := hk b hb hf hp
  exact hr.data hR hb hb' ha hj (by rwa [hsz])

theorem Intact.trans (hi : Intact p l h h') (hi' : Intact p l h' h'') : Intact p l h h'' :=
  fun b hb hf hp j hj => (hi' b hb hf hp j hj).trans (hi b hb hf hp j hj)

theorem Intact.keeps (hi : Intact p l' h h') (hk : Keeps p l l') : Intact p l h h' := by
  intro b hb hf hp j hj
  obtain ⟨b', hb', ha, hsz, hf'⟩ := hk b hb hf hp
  have hd : b'.data = b.data := by simp [Blk.data, ha]
  have := hi b' hb' hf' (by rwa [hd]) j (by rwa [hsz])
  rwa [hd] at this

section
variable {b c : Blk} {h₁ h₂ : Heap} {A₁ : Arena}

theorem Moved.intact_copy (hm : Moved heap h A b c h₁ A₁ h₂) :
    Intact 0 A.blocks h₁ (h₁.copied b c) := by
  intro d hd hf h0 j hj
  obtain ⟨d', hd', ha, hsz, -⟩ := hm.keeps 0 d hd hf h0
  have hdd : d'.data = d.data := by simp [Blk.data, ha]
  have hapart := hm.grown.refines.ok.ordered.data_apart hm.block hd'
    (by rw [hdd]; exact (hm.fresh d hd hf).symm)
  refine Mem.copy_outside fun hin => hapart.not_within (x := d.data + j) ?_ ⟨hin.1, ?_⟩
  · rw [hdd, hsz]
    exact ⟨Nat.le_add_right .., by omega⟩
  · have := hin.2
    omega

theorem Moved.intact (hm : Moved heap h A b c h₁ A₁ h₂) (hR : Refines heap h A) :
    Intact b.data A.blocks h h₂ := by
  have hcopy : Intact b.data A.blocks h₁ (h₁.copied b c) :=
    fun d hd hf _ j hj => hm.intact_copy d hd hf d.data_ne j hj
  refine ((hm.grown.intact hR (hm.keeps _)).trans hcopy).trans ?_
  exact (hm.freed.intact hm.copied (A₁.kfree_keeps b.data)).keeps (hm.keeps _)

theorem Moved.data (hm : Moved heap h A b c h₁ A₁ h₂) (hR : Refines heap h A) (hb : b ∈ A.blocks)
    (hf : b.free = false) (hjb : j < b.size) (hjc : j < c.size) :
    h₂.mem (c.data + j) = h.mem (b.data + j) := by
  obtain ⟨b', hb', ha, hsz, -⟩ := hm.keeps 0 b hb hf b.data_ne
  have hd : b'.data = b.data := by simp [Blk.data, ha]
  have hne := hm.fresh b hb hf
  have hapart := hm.grown.refines.ok.ordered.data_apart hb' hm.block (by rwa [hd])
  rw [hd, hsz] at hapart
  calc h₂.mem (c.data + j)
    _ = (h₁.copied b c).mem (c.data + j) :=
      hm.freed.intact hm.copied (A₁.kfree_keeps b.data) c hm.block hm.used hne.symm j hjc
    _ = h₁.mem (b.data + j) :=
      Mem.copy_inside (by unfold Apart at *; omega) (by omega)
    _ = h.mem (b.data + j) := hm.grown.data hR hb hb' ha hjb (by rwa [hsz])

end

/-- `krealloc` of a block in use keeps what is stored in all blocks in use; the
block's own data as far as the request goes, at the pointer that is returned. -/
theorem krealloc_contents (hp : Placed heap) (hR : Refines heap h A) (hb : b ∈ A.blocks)
    (hf : b.free = false) (h0 : n ≠ 0) (hn : n ≤ heapSize) :
    ∃ h' q, h.krealloc b.data n = some (h', q) ∧ q = (A.krealloc (heap + heapSize) b.data n).2 ∧
      Intact b.data A.blocks h h' ∧
      (q ≠ 0 → ∀ j < b.size, j < n → h'.mem (q + j) = h.mem (b.data + j)) ∧
      (q = 0 → ∀ j < b.size, h'.mem (b.data + j) = h.mem (b.data + j)) := by
  have hle := (align4_bounds hn).1
  have hne := b.data_ne
  rcases krealloc_paths hR hb h0 with ⟨h', heq, hq, hret⟩ | ⟨-, heq, hA⟩
  · refine ⟨h', b.data, heq, hq.symm, hret.intact hR (A.krealloc_keeps hR.ok hb h0),
      fun _ j hj hjn => ?_, fun h => absurd h hne⟩
    rcases A.krealloc_serves hR.ok hb hf h0 with hnull | ⟨-, -, b', hb', hd, -, hs⟩
    · rw [hnull] at hq
      exact absurd hq.symm hne
    · rw [hq] at hd
      exact hret.data hR hb hb' (by simpa [Blk.data] using hd) hj (by omega)
  · rw [heq, hA]
    rcases move_paths hR hb hf (hp.answered hR hn) with
      ⟨h₁, hmove, hAmove, hret⟩ | ⟨c, h₁, A₁, h₂, hmove, hAmove, hs, hm⟩
    · rw [hAmove]
      refine ⟨h₁, 0, hmove, rfl, hret.intact hR (.refl _ _), fun h => absurd rfl h, fun _ j hj => ?_⟩
      exact hret.data hR hb hb rfl hj hj
    · rw [hAmove]
      refine ⟨h₂, c.data, hmove, rfl, hm.intact hR, fun _ j hj hjn => ?_, fun h => absurd h c.data_ne⟩
      exact hm.data hR hb hf hj (by omega)

def SameContents (a : Alloc) (h h' : Heap) : Prop :=
  ∀ j < a.size, h'.mem (a.ptr + j) = h.mem (a.ptr + j)

/-- In every state of every session, `krealloc` of a live allocation gives a
pointer where the first bytes are those stored before, or `NULL` with the
allocation as it was; and it leaves the contents of all others. -/
theorem krealloc_preserves (hp : Placed heap) (hr : run Session.step (.start mem heap) ops = some s)
    (ha : a ∈ s.live) (h0 : 1 ≤ n) (hn : n ≤ heapSize) :
    ∃ h' q, Heap.call { s.heap with log := [] } (.krealloc a.ptr n) = some (h', q) ∧
      s.step (.krealloc a.ptr n) = some ⟨h', (Op.krealloc a.ptr n).liveAfter q s.live⟩ ∧
      (q ≠ 0 → ∀ j < min a.size n, h'.mem (q + j) = s.heap.mem (a.ptr + j)) ∧
      (q = 0 → (Op.krealloc a.ptr n).liveAfter q s.live = s.live ∧ SameContents a s.heap h') ∧
      ∀ c ∈ s.live, c.ptr ≠ a.ptr → SameContents c s.heap h' := by
  obtain ⟨A, hB⟩ := run_backed hp hr
  obtain ⟨b, hb, hd, hf, hsz⟩ := hB.backs.serves a ha
  obtain ⟨h', q, heq, -, hintact, hmoved, hnull⟩ :=
    krealloc_contents hp hB.refines.quiet hb hf (by omega) hn
  rw [hd] at heq hintact hmoved hnull
  have hlive : isLive s.live a.ptr = true := isLive_iff.mpr ⟨a, ha, rfl⟩
  have hallows : s.allows (.krealloc a.ptr n) = true := by simp [Session.allows, hn, hlive]
  have hcall : Heap.call { s.heap with log := [] } (.krealloc a.ptr n) = some (h', q) := heq
  refine ⟨h', q, hcall, ?_, fun hq j hj => ?_, fun hq => ⟨?_, fun j hj => ?_⟩, fun c hc hne j hj => ?_⟩
  · rw [Session.step, if_pos hallows, hcall]
    rfl
  · exact hmoved hq j (by omega) (by omega)
  · have hne : a.ptr ≠ 0 := hd ▸ b.data_ne
    simp only [Op.liveAfter, hne, hq, if_false, if_true]
    rw [if_neg (by omega)]
  · exact hnull hq j (by omega)
  · obtain ⟨d, hd', hdd, hdf, hds⟩ := hB.backs.serves c hc
    have := hintact d hd' hdf (by rwa [hdd]) j (by omega)
    rwa [hdd] at this

/-- A byte stored in an allocation that has to move. -/
theorem krealloc_preserves_moved :
    ∃ s, run Session.step (.start (fun _ => 0) 4096)
        [.kmalloc 8, .store 4136 7, .kmalloc 8] = some s ∧
      ∃ h' q, Heap.call { s.heap with log := [] } (.krealloc 4136 24) = some (h', q) ∧
        (q ≠ 0 → ∀ j < 8, h'.mem (q + j) = s.heap.mem (4136 + j)) := by
  have hrun : (run Session.step (.start (fun _ => 0) 4096)
      [.kmalloc 8, .store 4136 7, .kmalloc 8]).map Session.live =
        some [{ ptr := 4184, size := 8 }, { ptr := 4136, size := 8 }] := by decide +kernel
  obtain ⟨s, hr, hl⟩ := Option.map_eq_some_iff.mp hrun
  have ha : { ptr := 4136, size := 8 } ∈ s.live := by simp [hl]
  obtain ⟨h', q, hcall, -, hmoved, -⟩ :=
    krealloc_preserves (n := 24) ⟨by decide, by decide⟩ hr ha (by decide) (by decide)
  exact ⟨s, hr, h', q, hcall, hmoved⟩

-- ---------------------------------------------------------------------------
-- What a step leaves alone
-- ---------------------------------------------------------------------------

def Op.spares (a : Alloc) : Op → Prop
  | .kmalloc _ => True
  | .krealloc p _ | .kfree p => p ≠ a.ptr
  | .store x _ => ¬Within a.ptr a.size x

section
variable {a : Alloc} {live : List Alloc} {op : Op}

theorem Op.spares.stays (hsp : op.spares a) (ha : a ∈ live) (q : Nat) :
    a ∈ op.liveAfter q live := by
  have hgranted : ∀ {l n}, a ∈ l → a ∈ granted q n l := fun {l n} hl => by
    unfold granted
    split
    · exact hl
    · exact List.mem_cons_of_mem _ hl
  have hdropped : ∀ {p}, p ≠ a.ptr → a ∈ dropped p live := fun {p} hp =>
    List.mem_filter.mpr ⟨ha, by simpa using hp.symm⟩
  cases op with
  | kmalloc n => exact hgranted ha
  | kfree p => exact hdropped hsp
  | store x v => exact ha
  | krealloc p n =>
    simp only [Op.liveAfter]
    split_ifs
    · exact hgranted ha
    · exact hdropped hsp
    · exact ha
    · exact hgranted (hdropped hsp)

def Op.size : Op → Nat
  | .kmalloc n | .krealloc _ n => n
  | .kfree _ | .store _ _ => 0

theorem allows_size {s : Session} (ha : s.allows op = true) : op.size ≤ heapSize := by
  cases op <;> simp_all [Session.allows, Op.size]

theorem Intact.sameContents (hi : Intact p A.blocks h h') (hs : A.Serves a.ptr a.size)
    (hp : p ≠ a.ptr) : SameContents a h h' := by
  intro j hj
  obtain ⟨b, hb, hd, hf, hsz⟩ := hs
  have := hi b hb hf (by rw [hd]; exact hp.symm) j (by omega)
  rwa [hd] at this

theorem kmalloc_intact (hR : Refines heap h A) (hx : Answered heap h A n)
    (hcall : h.kmalloc n = some (h', q)) : Intact 0 A.blocks h h' := by
  obtain ⟨h₁, heq, hret⟩ := kmalloc_refines hR hx
  rw [hcall] at heq
  cases heq
  exact hret.intact hR (A.kmalloc_keeps 0 _ n)

theorem kfree_intact (hR : Refines heap h A) (hp : p = 0 ∨ A.Uses p)
    (hcall : h.kfree p = some h') : Intact p A.blocks h h' := by
  rcases hp with rfl | ⟨b, hb, hd, -⟩
  · rw [kfree_null] at hcall
    cases hcall
    exact fun _ _ _ _ _ _ => rfl
  · obtain ⟨h₁, heq, hret, -⟩ := kfree_refines hR hb hd
    rw [hcall] at heq
    cases heq
    exact hret.intact hR (A.kfree_keeps p)

/-- What is stored in an allocation that a step spares is there after it. -/
theorem call_spares (hp : Placed heap) (hR : Refines heap h A) (hf : op.fair A)
    (hx : op.size ≤ heapSize) (hcall : h.call op = some (h', q))
    (hs : A.Serves a.ptr a.size) (hsp : op.spares a) : SameContents a h h' := by
  have h0 : (0 : Nat) ≠ a.ptr := hs.ne_zero.symm
  cases op with
  | kmalloc n => exact (kmalloc_intact hR (hp.answered hR hx) hcall).sameContents hs h0
  | kfree p =>
    obtain ⟨h₁, heq, hh⟩ := Option.map_eq_some_iff.mp hcall
    cases hh
    exact (kfree_intact hR hf heq).sameContents hs hsp
  | store x v =>
    cases hcall
    intro j hj
    have hne : a.ptr + j ≠ x := fun he => hsp ⟨by omega, by omega⟩
    simp [Mem.put, hne]
  | krealloc p n =>
    change h.krealloc p n = some (h', q) at hcall
    by_cases hp0 : p = 0
    · rw [Heap.krealloc, if_pos hp0] at hcall
      exact (kmalloc_intact hR (hp.answered hR hx) hcall).sameContents hs h0
    · by_cases hn0 : n = 0
      · rw [Heap.krealloc, if_neg hp0, if_pos hn0] at hcall
        obtain ⟨h₁, heq, hh⟩ := Option.map_eq_some_iff.mp hcall
        cases hh
        exact (kfree_intact hR hf heq).sameContents hs hsp
      · obtain ⟨b, hb, rfl, hbf⟩ := hf.resolve_left hp0
        obtain ⟨h₁, q₁, heq, -, hintact, -⟩ := krealloc_contents hp hR hb hbf hn0 hx
        rw [hcall] at heq
        cases heq
        exact hintact.sameContents hs hsp

theorem Session.Backed.store {s : Session} (hB : s.Backed heap A) (ha : a ∈ s.live) {m : Mem}
    (hm : ∀ x, ¬Within a.ptr a.size x → m x = s.heap.mem x) :
    Session.Backed heap { s with heap := { s.heap with mem := m } } A := by
  obtain ⟨b, hb, hd, -, hsz⟩ := hB.backs.serves a ha
  refine ⟨hB.placed, hB.refines.scribble hb fun x hx => hm x fun hin => hx ?_, hB.backs⟩
  exact ⟨by rw [hd]; exact hin.1, by have := hin.2; omega⟩

theorem step_spares {s s' : Session} (hB : s.Backed heap A) (hs : s.step op = some s')
    (ha : a ∈ s.live) (hsp : op.spares a) : a ∈ s'.live ∧ SameContents a s.heap s'.heap := by
  have hallows := step_allows hs
  rw [Session.step, if_pos hallows] at hs
  obtain ⟨⟨h', q⟩, hcall, rfl⟩ := Option.map_eq_some_iff.mp hs
  have hsame : SameContents a { s.heap with log := [] } h' :=
    call_spares hB.placed hB.refines.quiet (hB.backs.fair hallows) (allows_size hallows) hcall
      (hB.backs.serves a ha) hsp
  exact ⟨hsp.stays ha q, hsame⟩

end

end

end TomatoOs.Kmem
