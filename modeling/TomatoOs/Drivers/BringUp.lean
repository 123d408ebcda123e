import TomatoOs.Drivers.Transfers
import TomatoOs.Fs.Ext2.MountFrame

/-!
# A disk that comes up

What `init_disk` leaves behind on any disk, whichever reads fail: a page and two
heap blocks for each partition that it mounted, and nothing else. On a disk with a
boot record it looks at the partitions of type Linux, each once and in the order of
the table.
-/

namespace TomatoOs.Drivers

open Lib Memory Fs.Ext2
open Kmem (heapSize)

-- ---------------------------------------------------------------------------
-- Pages
-- ---------------------------------------------------------------------------

/-- Since `p` the pages `is` were handed out and not given back. -/
structure Taken (p : Pmm) (is : List Nat) (q : Pmm) : Prop where
  base : q.base = p.base
  total : q.totalPages = p.totalPages
  pages : ∀ i ∈ is, p.Free i
  nodup : is.Nodup
  free : ∀ j, q.Free j ↔ p.Free j ∧ j ∉ is

theorem Taken.refl (p : Pmm) : Taken p [] p :=
  ⟨rfl, rfl, fun _ hi => absurd hi List.not_mem_nil, List.nodup_nil, fun j => by simp⟩

theorem Taken.page (h : Taken p is q) (i : Nat) : q.page i = p.page i := by
  rw [Pmm.page, h.base]
  rfl

theorem Taken.take (h : Taken p is q) (hi : q.Free i) : Taken p (is ++ [i]) (q.take i) := by
  obtain ⟨hp, hnew⟩ := (h.free i).mp hi
  refine ⟨h.base, h.total, fun j hj => ?_, ?_, fun j => ?_⟩
  · rcases List.mem_append.mp hj with hj | hj
    · exact h.pages j hj
    · exact (List.mem_singleton.mp hj) ▸ hp
  · exact List.nodup_append.mpr ⟨h.nodup, List.nodup_singleton i, fun a ha b hb hab =>
      hnew (List.mem_singleton.mp hb ▸ hab ▸ ha)⟩
  · rw [Pmm.free_take_iff, h.free, List.mem_append, List.mem_singleton, not_or, and_assoc,
      ne_comm]

theorem Taken.give (h : Taken (p.take i) is q) (hp : p.Sound) (hi : p.Free i) :
    Taken p is (pmmFree q (p.page i) 1) := by
  have hidx : wsub 64 (p.page i) q.base / blockSize = i := by
    have hfits := hp.fits
    have hlt := hi.1
    rw [h.base]
    simp only [Pmm.page, Pmm.take, blockSize] at *
    rw [wsub_eq (by omega) (by omega)]
    omega
  have hcount : wadd 64 i 1 - i = 1 := by
    have hfits := hp.fits
    have hlt := hi.1
    simp only [blockSize] at *
    rw [wadd_eq (by omega)]
    omega
  have hfree : pmmFree q (p.page i) 1 = { q with bitmap := Bitmap.clear q.bitmap i } := by
    unfold pmmFree
    simp only [if_neg (hp.address hi).2, hidx, hcount, Bitmap.clearRun]
  have hnew : i ∉ is := fun hmem => (Pmm.free_take_iff.mp (h.pages i hmem)).2 rfl
  rw [hfree]
  refine ⟨h.base, h.total, fun j hj => (Pmm.free_take_iff.mp (h.pages j hj)).1, h.nodup, fun j => ?_⟩
  have hj := h.free j
  have htotal : q.totalPages = p.totalPages := h.total
  rw [Pmm.free_take_iff] at hj
  simp only [Pmm.Free, Bitmap.test_clear, htotal] at hj hi ⊢
  by_cases hij : i = j
  · subst hij
    simp [hi, hnew]
  · simpa [hij] using hj

-- ---------------------------------------------------------------------------
-- What a search leaves behind
-- ---------------------------------------------------------------------------

/-- Since `s` the partitions in `mounted` were mounted, in this order. Each keeps the
page of its buffer, its own block and that of its descriptors; `owed` are the blocks
that are still to be given back. -/
structure Accounts (s t : Kern) (mounted owed : List Nat) : Prop where
  count : t.partitionCount = s.partitionCount + mounted.length
  limit : t.partitionCount ≤ max s.partitionCount maxPartitions
  slots : ∀ k fs, mounted[k]? = some fs → t.partitions (s.partitionCount + k) = fs
  older : ∀ m < s.partitionCount, t.partitions m = s.partitions m
  pages : ∃ is, Taken s.pmm is t.pmm ∧
    mounted.map (fun fs => (t.fsAt fs).ioBuf) = is.map s.pmm.page
  heap : ∃ freed, t.frees = s.frees ++ freed ∧ (t.mallocs.map HeapBlock.addr).Perm
    (s.mallocs.map HeapBlock.addr ++ mounted.flatMap (fun fs => [fs, (t.fsAt fs).groups]) ++
      freed ++ owed)

section
variable {s s₁ t u : Kern} {mounted owed : List Nat} {fs l : Nat}

theorem Accounts.refl (s : Kern) : Accounts s s [] [] :=
  ⟨rfl, le_max_left .., fun _ _ h => by simp at h, fun _ _ => rfl, ⟨[], .refl s.pmm, rfl⟩, [],
    by simp, by simp⟩

theorem Accounts.congr (h : Accounts s t mounted owed) (hpmm : u.pmm = t.pmm) (hfs : u.fsAt = t.fsAt)
    (hslots : u.partitions = t.partitions) (hcount : u.partitionCount = t.partitionCount)
    (hm : u.mallocs = t.mallocs) (hf : u.frees = t.frees) : Accounts s u mounted owed := by
  obtain ⟨hc, hmax, hs, ho, hp, hh⟩ := h
  rw [← hcount] at hc hmax
  rw [← hslots] at hs ho
  rw [← hpmm, ← hfs] at hp
  rw [← hm, ← hf, ← hfs] at hh
  exact ⟨hc, hmax, hs, ho, hp, hh⟩

theorem Accounts.reads (h : Accounts s t mounted owed) (hr : Reads l t u) :
    Accounts s u mounted owed := by
  obtain ⟨ram, tables, new, rfl, -⟩ := hr
  exact h.congr rfl rfl rfl rfl rfl rfl

theorem Accounts.refused (h : Accounts s t mounted [fs]) (hcall : InitCall l fs t false u)
    (hnew : fs ∉ mounted) : Accounts s { u with frees := u.frees ++ [fs] } mounted [] := by
  obtain ⟨hpmm, -, ⟨blocks, hm, hf, -⟩, hslots, hcount, -⟩ := hcall.failed rfl
  have hsame : ∀ q ∈ mounted, u.fsAt q = t.fsAt q := fun q hq =>
    hcall.others q fun he => hnew (he ▸ hq)
  obtain ⟨is, htaken, hbufs⟩ := h.pages
  obtain ⟨freed, hfrees, hperm⟩ := h.heap
  refine ⟨hcount.trans h.count, hcount.le.trans h.limit, ?_, ?_, ⟨is, ?_, ?_⟩,
    freed ++ blocks.map HeapBlock.addr ++ [fs], ?_, ?_⟩
  · exact fun k q hk => (congrFun hslots _).trans (h.slots k q hk)
  · exact fun m hlt => (congrFun hslots m).trans (h.older m hlt)
  · rw [hpmm]
    exact htaken
  · rw [← hbufs]
    exact List.map_congr_left fun q hq => by rw [hsame q hq]
  · rw [hf, hfrees]
    simp only [List.append_assoc]
  · have hflat : (mounted.flatMap fun q => [q, (u.fsAt q).groups]) =
        mounted.flatMap fun q => [q, (t.fsAt q).groups] :=
      List.flatMap_congr fun q hq => by rw [hsame q hq]
    rw [hm, List.map_append, hflat]
    refine List.perm_iff_count.mpr fun x => ?_
    have hx := hperm.count_eq x
    simp only [List.count_append, List.count_nil] at hx ⊢
    omega

theorem Accounts.mounts (h : Accounts s t mounted [fs]) (hcall : InitCall l fs t true u)
    (hnew : fs ∉ mounted) : Accounts s u (mounted ++ [fs]) [] := by
  obtain ⟨-, ⟨-, size, hm, hf⟩, hslots, hcount, hmax, i, hi, hpmm, hbuf, -, -⟩ := hcall.mounted rfl
  have hsame : ∀ q ∈ mounted, u.fsAt q = t.fsAt q := fun q hq =>
    hcall.others q fun he => hnew (he ▸ hq)
  obtain ⟨is, htaken, hbufs⟩ := h.pages
  obtain ⟨freed, hfrees, hperm⟩ := h.heap
  refine ⟨?_, hmax.trans (le_max_right ..), ?_, ?_, ⟨is ++ [i], ?_, ?_⟩, freed, ?_, ?_⟩
  · rw [hcount, h.count, List.length_append, List.length_singleton, Nat.add_assoc]
  · intro k q hk
    rw [hslots, h.count]
    rcases Nat.lt_or_ge k mounted.length with hlt | hge
    · rw [List.getElem?_append_left hlt] at hk
      rw [Function.update_of_ne (by omega)]
      exact h.slots k q hk
    · rw [List.getElem?_append_right hge, List.getElem?_singleton] at hk
      split at hk
      · rw [show k = mounted.length by omega, Function.update_self]
        exact Option.some.inj hk
      · cases hk
  · intro m hlt
    rw [hslots, h.count, Function.update_of_ne (by omega)]
    exact h.older m hlt
  · rw [hpmm]
    exact htaken.take hi
  · rw [List.map_append, List.map_append, ← hbufs, List.map_singleton, List.map_singleton, hbuf,
      htaken.page]
    congr 1
    exact List.map_congr_left fun q hq => by rw [hsame q hq]
  · rw [hf, hfrees]
  · have hflat : ((mounted ++ [fs]).flatMap fun q => [q, (u.fsAt q).groups]) =
        (mounted.flatMap fun q => [q, (t.fsAt q).groups]) ++ [fs, (u.fsAt fs).groups] := by
      rw [List.flatMap_append, List.flatMap_singleton]
      congr 1
      exact List.flatMap_congr fun q hq => by rw [hsame q hq]
    rw [hm, List.map_append, hflat]
    refine List.perm_iff_count.mpr fun x => ?_
    have hx := hperm.count_eq x
    simp only [List.count_append, List.count_nil, List.map_singleton, List.count_cons] at hx ⊢
    omega

theorem Accounts.reserved (h : Accounts s t mounted owed) (hres : Reserved a s.pmm) :
    Reserved a t.pmm := by
  obtain ⟨is, htaken, -⟩ := h.pages
  intro j hj
  rw [htaken.page]
  exact hres j ((htaken.free j).mp hj).1

end

-- ---------------------------------------------------------------------------
-- The search, step by step
-- ---------------------------------------------------------------------------

/-- While partitions are looked for: `starts` are those that were looked at, and the
page at `a` holds the table. -/
structure Searching (a : Nat) (s t : Kern) (starts owed : List Nat) : Prop where
  accounts : ∃ mounted, Accounts s t mounted owed
  untouched : Untouched a s t
  calls : t.linuxCalls = s.linuxCalls ++ starts

def OutOfHeap (E : Env) (t : Kern) : Prop :=
  ∃ n, t.kmallocCalls = n + 1 ∧ E.kmallocOk n = false

section
variable {E : Env} {s₀ s₁ s t : Kern} {starts busy : List Nat} {a : Nat} {site : PageSite}

theorem Searching.refl (a : Nat) (s : Kern) : Searching a s s [] [] :=
  ⟨⟨[], .refl s⟩, .refl a s, (List.append_nil _).symm⟩

theorem Searching.reserved (h : Searching a s₁ s starts owed) (hres : Reserved a s₁.pmm) :
    Reserved a s.pmm := by
  obtain ⟨mounted, hacc⟩ := h.accounts
  exact hacc.reserved hres

theorem Searching.call (h : Searching a s₁ s starts []) (start : Nat) :
    Searching a s₁ { s with linuxCalls := s.linuxCalls ++ [start] } (starts ++ [start]) [] := by
  obtain ⟨mounted, hacc⟩ := h.accounts
  refine ⟨⟨mounted, hacc.congr rfl rfl rfl rfl rfl rfl⟩, ⟨h.untouched.page, h.untouched.sectors⟩, ?_⟩
  rw [h.calls, List.append_assoc]

theorem Searching.kmalloc (h : Searching a s₁ s starts [])
    (hscan : Scanning l s₁.partitionCount busy s₀ s) :
    ∃ g t, Fs.Ext2.kmalloc E sizeofPartition s = (some g, t) ∧
      (g = 0 ∧ OutOfHeap E t ∧ Searching a s₁ t starts [] ∨
        g ≠ 0 ∧ Searching a s₁ t starts [g] ∧ t.pmm.Sound ∧
          ∀ m, s₁.partitionCount ≤ m → m < t.partitionCount → t.partitions m < g) := by
  obtain ⟨mounted, hacc⟩ := h.accounts
  have hu := h.untouched
  unfold Fs.Ext2.kmalloc
  rw [E.grants_small s.kmallocCalls (show Kmem.metaBlockSize + Kmem.align4 sizeofPartition ≤ heapSize
    by decide)]
  cases hok : E.kmallocOk s.kmallocCalls with
  | false =>
    refine ⟨0, _, rfl, .inl ⟨rfl, ⟨_, rfl, hok⟩, ⟨mounted, ?_⟩, ⟨hu.page, hu.sectors⟩, h.calls⟩⟩
    exact hacc.congr rfl rfl rfl rfl rfl rfl
  | true =>
    refine ⟨_, _, rfl, .inr ⟨Nat.succ_ne_zero _, ⟨⟨mounted, ?_⟩, ⟨hu.page, hu.sectors⟩, h.calls⟩,
      hscan.storage.sound, fun m hm hlt => Nat.lt_succ_of_le (hscan.storage.older m hm hlt)⟩⟩
    obtain ⟨freed, hfrees, hperm⟩ := hacc.heap
    refine ⟨hacc.count, hacc.limit, hacc.slots, hacc.older, hacc.pages, freed, hfrees, ?_⟩
    rw [List.append_nil] at hperm
    rw [List.map_append]
    exact hperm.append_right _

structure Searched (s t : Kern) (starts : List Nat) : Prop where
  accounts : ∃ mounted, Accounts s t mounted []
  sectors : t.sectors = s.sectors
  calls : t.linuxCalls = s.linuxCalls ++ starts

theorem Searching.done (h : Searching a s t starts []) : Searched s t starts :=
  ⟨h.accounts, h.untouched.sectors, h.calls⟩

theorem Searching.give (h : Searching a s₁ t starts []) (hs : s.pmm.Sound) (hi : s.pmm.Free i)
    (hr : Reads l (s.granted site i) s₁) :
    Searched s (freePage (s.pmm.page i) t).2 starts := by
  obtain ⟨ram, tables, new, rfl, -⟩ := hr
  obtain ⟨mounted, hacc⟩ := h.accounts
  obtain ⟨is, htaken, hbufs⟩ := hacc.pages
  refine ⟨⟨mounted, ?_⟩, h.untouched.sectors, h.calls⟩
  exact ⟨hacc.count, hacc.limit, hacc.slots, hacc.older, ⟨is, htaken.give hs hi, hbufs⟩, hacc.heap⟩

theorem Scanning.granted (h : Scanning l base [] s₀ s) (hcount : s.partitionCount = base)
    (htwo : ∃ i j, i ≠ j ∧ s.pmm.Free i ∧ s.pmm.Free j) (site : PageSite) (i : Nat) :
    Scanning l base [] s₀ (s.granted site i) := by
  have hnone : ∀ m, base ≤ m → m < s.partitionCount → False := by omega
  refine ⟨⟨h.storage.sound.take i, h.storage.count, fun m hm hlt => (hnone m hm hlt).elim,
    h.storage.older, fun a ha => absurd ha List.not_mem_nil, fun a ha => absurd ha List.not_mem_nil⟩,
    ?_, h.fitting⟩
  obtain ⟨j, k, hjk, hj, hk⟩ := htwo
  by_cases hij : i = j
  · exact ⟨k, Pmm.free_take_iff.mpr ⟨hk, hij ▸ hjk⟩⟩
  · exact ⟨j, Pmm.free_take_iff.mpr ⟨hj, hij⟩⟩

theorem Searched.of_reads (hr : Reads l (s.asked site) t) : Searched s t [] := by
  have hasked : Accounts s (s.asked site) [] [] := (Accounts.refl s).congr rfl rfl rfl rfl rfl rfl
  refine ⟨⟨[], hasked.reads hr⟩, ?_, ?_⟩
  · obtain ⟨ram, tables, new, rfl, -⟩ := hr
    rfl
  · obtain ⟨ram, tables, new, rfl, -⟩ := hr
    exact (List.append_nil _).symm

theorem Scanning.start (hs : s.pmm.Sound) (hspare : ∃ i, s.pmm.Free i) (l : Nat) :
    Scanning l s.partitionCount [] s s :=
  ⟨⟨hs, Nat.le_refl _, fun _ hm hlt => absurd hlt (Nat.not_lt.mpr hm),
    fun _ hm hlt => absurd hlt (Nat.not_lt.mpr hm), fun _ ha => absurd ha List.not_mem_nil,
    fun _ ha => absurd ha List.not_mem_nil⟩, hspare, .refl _ _⟩

end

end TomatoOs.Drivers
