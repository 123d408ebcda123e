import TomatoOs.Mem.PagingLaws

/-!
# The kernel's own mappings

`map_all_mem` maps the entries of the bootloader's memory map behind the `hhdm`
offset, and `map_kernel` the two halves of the kernel image. The number of pages
of a range is its length rounded up, counted from the page its first byte is
in, so that a range that does not start on a page boundary may lose its last
page. `boot_mapped_iff` says when nothing is lost.
-/

namespace TomatoOs.Memory

open Lib

inductive MemmapType
  | usable
  | reserved
  | acpiReclaimable
  | acpiNvs
  | badMemory
  | bootloaderReclaimable
  | executableAndModules
  | framebuffer
  | reservedMapped
  deriving DecidableEq, Repr

structure MemmapEntry where
  base : Nat
  length : Nat
  type : MemmapType
  deriving DecidableEq, Repr

structure Boot where
  entries : List MemmapEntry
  hhdm : Nat
  physicalBase : Nat
  virtualBase : Nat
  kernelStart : Nat
  writeallowedStart : Nat
  kernelEnd : Nat

def pageCount (length : Nat) : Nat := wsub 64 (wadd 64 length 4096) 1 / 4096

section
variable (supply : Nat → Nat)

/-- The flags are `KERNEL_PFLAG_PRESENT`, and `KERNEL_PFLAG_WRITE` with it. -/
def mapKernel (B : Boot) (s : Vmm) : Vmm :=
  let offset := wsub 64 B.virtualBase B.physicalBase
  let physRoStart := wsub 64 B.kernelStart offset
  let physRwStart := wsub 64 B.writeallowedStart offset
  let readonlyPages := pageCount (wsub 64 B.writeallowedStart B.kernelStart)
  let writablePages := pageCount (wsub 64 B.kernelEnd B.writeallowedStart)
  let s := mapPage supply s B.kernelStart physRoStart 1 readonlyPages
  mapPage supply s B.writeallowedStart physRwStart 3 writablePages

def mapEntry (hhdm : Nat) (s : Vmm) (e : MemmapEntry) : Vmm :=
  if e.type = .reserved ∨ e.type = .badMemory then s
  else mapPage supply s (wadd 64 e.base hhdm) e.base 3 (pageCount e.length)

def mapAllMem (B : Boot) (s : Vmm) : Vmm :=
  mapKernel supply B (B.entries.foldl (mapEntry supply B.hhdm) s)

end

-- ---------------------------------------------------------------------------
-- What is asked, and when it holds
-- ---------------------------------------------------------------------------

def MemmapEntry.Mapped (e : MemmapEntry) : Prop := e.type ≠ .reserved ∧ e.type ≠ .badMemory

def MemmapEntry.Has (e : MemmapEntry) (a : Nat) : Prop := e.base ≤ a ∧ a < e.base + e.length

def MemmapEntry.Spans (e : MemmapEntry) (k : Nat) : Prop :=
  e.base / 4096 ≤ k ∧ k < e.base / 4096 + (e.length + 4095) / 4096

instance (e : MemmapEntry) : Decidable e.Mapped :=
  inferInstanceAs (Decidable (e.type ≠ .reserved ∧ e.type ≠ .badMemory))

instance (e : MemmapEntry) (k : Nat) : Decidable (e.Spans k) :=
  inferInstanceAs (Decidable (e.base / 4096 ≤ k ∧ k < e.base / 4096 + (e.length + 4095) / 4096))

def Boot.kernelPhys (B : Boot) (v : Nat) : Nat :=
  wadd 64 (wsub 64 v B.virtualBase) B.physicalBase

def Boot.InKernel (B : Boot) (v : Nat) : Prop := B.kernelStart ≤ v ∧ v < B.kernelEnd

/-- The kernel image is apart from the memory behind `hhdm`, as far as the
tables can tell addresses apart. The entries need not be aligned. -/
structure Boot.Valid (B : Boot) : Prop where
  below : ∀ e ∈ B.entries, e.base < 2 ^ 40 ∧ e.length < 2 ^ 40
  hhdm : B.hhdm % 4096 = 0
  start : B.kernelStart % 4096 = 0
  order : B.kernelStart ≤ B.writeallowedStart ∧ B.writeallowedStart ≤ B.kernelEnd
  fits : B.kernelEnd < 2 ^ 64
  apart : ∀ e ∈ B.entries, e.Mapped → ∀ a, e.Has a → ∀ v, B.InKernel v →
    pageNumber v ≠ pageNumber (B.hhdm + a)

/-- What `pmm_alloc_page` promises: pages of usable memory, no page twice, and
not the page of the root table. -/
def Boot.Supplied (B : Boot) (supply : Nat → Nat) (pml4 m : Nat) : Prop :=
  ∀ k < m, supply k ≠ 0 ∧ supply k % 4096 = 0 ∧
    (∃ e ∈ B.entries, e.type = .usable ∧ e.Has (supply k)) ∧ supply k ≠ pml4 ∧
    ∀ l < k, supply l ≠ supply k

structure Boot.Covered (B : Boot) (s : Vmm) : Prop where
  memory : ∀ e ∈ B.entries, e.Mapped → ∀ a, e.Has a → getPhysicalAddress s (B.hhdm + a) = a
  kernel : ∀ v, B.InKernel v → getPhysicalAddress s v = B.kernelPhys v

/-- The memory lies where an entry can point, and the page of the last byte of
each range is among the pages that are mapped. -/
structure Boot.Rounded (B : Boot) : Prop where
  memory : ∀ e ∈ B.entries, e.Mapped → 0 < e.length → e.base + e.length ≤ 2 ^ 40 ∧
    ∃ e' ∈ B.entries, e'.Mapped ∧ e'.Spans ((e.base + e.length - 1) / 4096)
  kernel : B.kernelStart < B.kernelEnd → B.virtualBase % 4096 = B.physicalBase % 4096 ∧
    B.kernelPhys B.kernelStart + (B.kernelEnd - B.kernelStart) ≤ 2 ^ 40 ∧
    (B.writeallowedStart < B.kernelEnd →
      B.writeallowedStart % 4096 + (B.kernelEnd - B.writeallowedStart - 1) % 4096 < 4096)

def Boot.Low (B : Boot) : Prop :=
  ∀ e ∈ B.entries, e.Mapped → 0 < e.length → e.base + e.length ≤ 2 ^ 40

structure Boot.Small (B : Boot) : Prop where
  memory : ∀ e ∈ B.entries, e.Mapped → 0 < e.length → e.base + e.length ≤ 2 ^ 40
  kernel : B.kernelStart < B.kernelEnd → B.virtualBase % 4096 = B.physicalBase % 4096 ∧
    B.kernelPhys B.kernelStart + (B.kernelEnd - B.kernelStart) ≤ 2 ^ 40

section
variable {supply : Nat → Nat} {B : Boot} {s : Vmm} {e : MemmapEntry}

theorem pageCount_eq (h : length < 2 ^ 63) : pageCount length = (length + 4095) / 4096 := by
  simp only [pageCount, wadd, wsub]
  omega

theorem Boot.kernelPhys_offset (B : Boot) (v : Nat) :
    wsub 64 v (wsub 64 B.virtualBase B.physicalBase) = B.kernelPhys v := by
  simp only [Boot.kernelPhys, wadd, wsub]
  omega

theorem Boot.kernelPhys_add (B : Boot) (v d : Nat) :
    B.kernelPhys (v + d) = (B.kernelPhys v + d) % 2 ^ 64 := by
  simp only [Boot.kernelPhys, wadd, wsub]
  omega

theorem Boot.kernelPhys_mod (B : Boot) (v : Nat) :
    B.kernelPhys v % 4096 = (v + 4096 - B.virtualBase % 4096 + B.physicalBase) % 4096 := by
  simp only [Boot.kernelPhys, wadd, wsub]
  omega

theorem Boot.Rounded.small (h : B.Rounded) : B.Small :=
  ⟨fun e he hm hlen => (h.memory e he hm hlen).1,
    fun hlt => ⟨(h.kernel hlt).1, (h.kernel hlt).2.1⟩⟩

theorem Boot.Covered.small (hv : B.Valid) (h : B.Covered s) : B.Small where
  memory := by
    intro e he hm hlen
    have hlast := h.memory e he hm (e.base + e.length - 1) ⟨by omega, by omega⟩
    have hlt := (getPhysicalAddress_range s (B.hhdm + (e.base + e.length - 1))).1
    omega
  kernel := by
    intro hlt
    have hstart := h.kernel B.kernelStart ⟨Nat.le_refl _, hlt⟩
    obtain ⟨hbound, hoff⟩ := getPhysicalAddress_range s B.kernelStart
    have haligned := hv.start
    rw [hstart] at hbound hoff
    refine ⟨?_, ?_⟩
    · have hmod := B.kernelPhys_mod B.kernelStart
      omega
    · by_contra hover
      -- the byte whose address would be `2 ^ 40`
      have hbyte := h.kernel (B.kernelStart + (2 ^ 40 - B.kernelPhys B.kernelStart))
        ⟨by omega, by omega⟩
      have hlt' := (getPhysicalAddress_range s
        (B.kernelStart + (2 ^ 40 - B.kernelPhys B.kernelStart))).1
      rw [hbyte, B.kernelPhys_add] at hlt'
      omega

theorem Boot.Supplied.fresh (hB : B.Low) (h : B.Supplied supply pml4 m) :
    FreshSupply supply pml4 m := by
  intro k hk
  obtain ⟨hne, hal, ⟨e, he, htype, hhas⟩, hroot, hearlier⟩ := h k hk
  have hmapped : e.Mapped := by
    rw [MemmapEntry.Mapped, htype]
    exact ⟨by decide, by decide⟩
  have hle := hB e he hmapped (by have := hhas.1; have := hhas.2; omega)
  exact ⟨hne, hal, by have := hhas.2; omega, hroot, hearlier⟩

-- ---------------------------------------------------------------------------
-- Memory behind the offset
-- ---------------------------------------------------------------------------

theorem mapEntry_calls : s.calls ≤ (mapEntry supply hhdm s e).calls := by
  rw [mapEntry]
  split
  · exact Nat.le_refl _
  · exact mapPage_calls

theorem mapEntry_sound (hs : s.Sound supply)
    (hf : FreshSupply supply s.pml4 (mapEntry supply hhdm s e).calls) :
    (mapEntry supply hhdm s e).Sound supply ∧ (mapEntry supply hhdm s e).pml4 = s.pml4 := by
  rw [mapEntry] at hf ⊢
  split
  · exact ⟨hs, rfl⟩
  · rename_i hm
    rw [if_neg hm] at hf
    exact mapPage_sound hs hf

theorem mapEntry_skips (h : ¬(e.Mapped ∧ 0 < e.length)) : mapEntry supply hhdm s e = s := by
  rw [mapEntry]
  split
  · rfl
  · rename_i hm
    have hempty : e.length = 0 :=
      Nat.eq_zero_of_not_pos fun hpos => h ⟨not_or.mp hm, hpos⟩
    have hnone : pageCount e.length = 0 := by
      rw [hempty]
      decide
    rw [hnone]
    rfl

theorem page_has_byte {lo n w : Nat} (hlo : lo / 4096 ≤ w / 4096)
    (hhi : w / 4096 < lo / 4096 + (n + 4095) / 4096) :
    ∃ v, lo ≤ v ∧ v < lo + n ∧ v / 4096 = w / 4096 :=
  ⟨max lo (w / 4096 * 4096), by omega, by omega, by omega⟩

theorem page_of_pageNumber {lo hi v w : Nat} (hsize : hi ≤ lo + 2 ^ 40)
    (hw : lo / 4096 ≤ w / 4096 ∧ w / 4096 ≤ hi / 4096 + 1)
    (hv : lo / 4096 ≤ v / 4096 ∧ v / 4096 ≤ hi / 4096 + 1) (h : pageNumber w = pageNumber v) :
    w / 4096 = v / 4096 := by
  rw [pageNumber, pageNumber] at h
  omega

theorem mapPage_span (hs : s.Sound supply)
    (hf : FreshSupply supply s.pml4 (mapPage supply s virt phys flags n).calls)
    (hflags : flags.testBit 0 = true) (hle : phys / 4096 * 4096 + 4096 * n ≤ 2 ^ 40) :
    (∀ v, virt / 4096 ≤ v / 4096 → v / 4096 < virt / 4096 + n →
        (mapPage supply s virt phys flags n).walk (tablePath v) =
          some ((phys / 4096 + (v / 4096 - virt / 4096)) * 4096)) ∧
      ∀ b, (∀ w, virt / 4096 ≤ w / 4096 → w / 4096 < virt / 4096 + n →
          pageNumber w ≠ pageNumber b) →
        (mapPage supply s virt phys flags n).walk (tablePath b) = s.walk (tablePath b) := by
  obtain ⟨hin, hout⟩ := mapPage_range hs hf hflags hle
  refine ⟨fun v hlo hhi => hin _ (by omega) v ?_, fun b hb => hout b fun i hi heq => ?_⟩
  · rw [pageNumber, Nat.add_sub_cancel' hlo]
  · refine hb ((virt / 4096 + i) * 4096) (by omega) (by omega) ?_
    rw [heq, pageNumber, Nat.mul_div_cancel _ (by decide)]

theorem mapEntry_eq (hm : e.Mapped) (hlen : e.length < 2 ^ 63) :
    mapEntry supply hhdm s e =
      mapPage supply s (wadd 64 e.base hhdm) e.base 3 ((e.length + 4095) / 4096) := by
  rw [mapEntry, if_neg (not_or.mpr hm), pageCount_eq hlen]

theorem page_behind (hhdm0 : hhdm % 4096 = 0) (base i : Nat) :
    (wadd 64 base hhdm / 4096 + i) % 2 ^ 36 = pageNumber (hhdm + (base / 4096 + i) * 4096) := by
  simp only [pageNumber, wadd]
  omega

/-- An entry's pages translate to themselves, and no other page changes. -/
theorem mapEntry_walk (hs : s.Sound supply)
    (hf : FreshSupply supply s.pml4 (mapEntry supply hhdm s e).calls) (hhdm0 : hhdm % 4096 = 0)
    (hsmall : e.Mapped → 0 < e.length → e.base + e.length ≤ 2 ^ 40) :
    (∀ a < 2 ^ 40, (mapEntry supply hhdm s e).walk (tablePath (hhdm + a)) =
        if e.Mapped ∧ e.Spans (a / 4096) then some (a / 4096 * 4096)
        else s.walk (tablePath (hhdm + a))) ∧
      ∀ v, (e.Mapped → ∀ a, e.Has a → pageNumber v ≠ pageNumber (hhdm + a)) →
        (mapEntry supply hhdm s e).walk (tablePath v) = s.walk (tablePath v) := by
  by_cases hmap : e.Mapped ∧ 0 < e.length
  · obtain ⟨hm, hpos⟩ := hmap
    have hle := hsmall hm hpos
    have hvirt := page_behind hhdm0 e.base
    rw [mapEntry_eq hm (by omega)] at hf ⊢
    obtain ⟨hin, hout⟩ := mapPage_range hs hf rfl (by omega)
    refine ⟨fun a ha => ?_, fun v hv => hout v fun i hi => ?_⟩
    · split
      · rename_i hspan
        obtain ⟨-, hlo, hhi⟩ := hspan
        have hpage : e.base / 4096 + (a / 4096 - e.base / 4096) = a / 4096 := by omega
        rw [hin (a / 4096 - e.base / 4096) (by omega), hpage]
        rw [hvirt, hpage, pageNumber, pageNumber]
        omega
      · rename_i hspan
        refine hout _ fun i hi heq => hspan ⟨hm, ?_⟩
        rw [hvirt, pageNumber, pageNumber] at heq
        have hsame : a / 4096 = e.base / 4096 + i := by omega
        exact ⟨by omega, by omega⟩
    · -- every page that is mapped holds a byte of the entry
      have hbyte := hv hm (max e.base ((e.base / 4096 + i) * 4096)) ⟨by omega, by omega⟩
      rw [hvirt]
      have hsame : pageNumber (hhdm + max e.base ((e.base / 4096 + i) * 4096)) =
          pageNumber (hhdm + (e.base / 4096 + i) * 4096) := by
        simp only [pageNumber]
        omega
      rwa [hsame] at hbyte
  · rw [mapEntry_skips hmap]
    refine ⟨fun a _ => (if_neg ?_).symm, fun v _ => rfl⟩
    rintro ⟨hm, hlo, hhi⟩
    exact hmap ⟨hm, by omega⟩

theorem mapEntries_calls (es : List MemmapEntry) :
    s.calls ≤ (es.foldl (mapEntry supply hhdm) s).calls := by
  induction es generalizing s with
  | nil => exact Nat.le_refl _
  | cons e es ih => exact Nat.le_trans mapEntry_calls ih

theorem mapEntries_sound (es : List MemmapEntry) (hs : s.Sound supply)
    (hf : FreshSupply supply s.pml4 (es.foldl (mapEntry supply hhdm) s).calls) :
    (es.foldl (mapEntry supply hhdm) s).Sound supply ∧
      (es.foldl (mapEntry supply hhdm) s).pml4 = s.pml4 := by
  induction es generalizing s with
  | nil => exact ⟨hs, rfl⟩
  | cons e es ih =>
    obtain ⟨hs', hroot⟩ := mapEntry_sound hs (hf.mono (mapEntries_calls es))
    obtain ⟨hs'', hroot'⟩ := ih hs' (hroot ▸ hf)
    exact ⟨hs'', hroot'.trans hroot⟩

theorem mapEntries_walk (es : List MemmapEntry) (hs : s.Sound supply)
    (hf : FreshSupply supply s.pml4 (es.foldl (mapEntry supply hhdm) s).calls)
    (hhdm0 : hhdm % 4096 = 0)
    (hsmall : ∀ e ∈ es, e.Mapped → 0 < e.length → e.base + e.length ≤ 2 ^ 40) :
    (∀ a < 2 ^ 40, (es.foldl (mapEntry supply hhdm) s).walk (tablePath (hhdm + a)) =
        if ∃ e ∈ es, e.Mapped ∧ e.Spans (a / 4096) then some (a / 4096 * 4096)
        else s.walk (tablePath (hhdm + a))) ∧
      ∀ v, (∀ e ∈ es, e.Mapped → ∀ a, e.Has a → pageNumber v ≠ pageNumber (hhdm + a)) →
        (es.foldl (mapEntry supply hhdm) s).walk (tablePath v) = s.walk (tablePath v) := by
  induction es generalizing s with
  | nil => exact ⟨fun a _ => by simp, fun v _ => rfl⟩
  | cons e es ih =>
    have hfe := hf.mono (mapEntries_calls es)
    obtain ⟨hs', hroot⟩ := mapEntry_sound hs hfe
    obtain ⟨hfirst, hother⟩ := mapEntry_walk hs hfe hhdm0 (hsmall e (List.mem_cons_self))
    obtain ⟨hrest, hother'⟩ := ih hs' (hroot ▸ hf) fun e' he' => hsmall e' (List.mem_cons_of_mem e he')
    refine ⟨fun a ha => ?_, fun v hv => ?_⟩
    · rw [List.foldl_cons, hrest a ha, hfirst a ha]
      by_cases h : ∃ e' ∈ es, e'.Mapped ∧ e'.Spans (a / 4096)
      · obtain ⟨e', he', hspan⟩ := h
        rw [if_pos ⟨e', he', hspan⟩, if_pos ⟨e', List.mem_cons_of_mem e he', hspan⟩]
      · rw [if_neg h]
        refine if_congr ?_ rfl rfl
        simp only [List.mem_cons, exists_eq_or_imp, h, or_false]
    · rw [List.foldl_cons, hother' v fun e' he' => hv e' (List.mem_cons_of_mem e he')]
      exact hother v (hv e List.mem_cons_self)

-- ---------------------------------------------------------------------------
-- The kernel image
-- ---------------------------------------------------------------------------

theorem Boot.kernelPhys_eq (hv : B.Valid) (hB : B.Small) (hlt : B.kernelStart < B.kernelEnd)
    (hlo : B.kernelStart ≤ v) (hhi : v ≤ B.kernelEnd) :
    B.kernelPhys v = B.kernelPhys B.kernelStart + (v - B.kernelStart) ∧
      B.kernelPhys B.kernelStart % 4096 = 0 := by
  obtain ⟨hoff, hle⟩ := hB.kernel hlt
  have hadd := B.kernelPhys_add B.kernelStart (v - B.kernelStart)
  have hmod := B.kernelPhys_mod B.kernelStart
  have hstart := hv.start
  rw [Nat.add_sub_cancel' hlo, Nat.mod_eq_of_lt (by omega)] at hadd
  exact ⟨hadd, by omega⟩

theorem Boot.kernelPhys_page (hv : B.Valid) (hB : B.Small) (hlt : B.kernelStart < B.kernelEnd)
    (hlo : B.kernelStart ≤ v) (hhi : v ≤ B.kernelEnd) :
    B.kernelPhys v / 4096 + B.kernelStart / 4096 =
      B.kernelPhys B.kernelStart / 4096 + v / 4096 := by
  obtain ⟨hphys, hal⟩ := B.kernelPhys_eq hv hB hlt hlo hhi
  have hstart := hv.start
  omega

theorem mapKernel_calls : s.calls ≤ (mapKernel supply B s).calls :=
  Nat.le_trans mapPage_calls mapPage_calls

/-- The page counts and addresses of the two ranges, without the wrapping. -/
theorem mapKernel_eq (hlo : B.kernelStart ≤ B.writeallowedStart)
    (hhi : B.writeallowedStart ≤ B.kernelEnd) (hfits : B.kernelEnd < 2 ^ 64)
    (hsize : B.kernelEnd < B.kernelStart + 2 ^ 63) :
    mapKernel supply B s =
      mapPage supply
        (mapPage supply s B.kernelStart (B.kernelPhys B.kernelStart) 1
          ((B.writeallowedStart - B.kernelStart + 4095) / 4096))
        B.writeallowedStart (B.kernelPhys B.writeallowedStart) 3
        ((B.kernelEnd - B.writeallowedStart + 4095) / 4096) := by
  have hro : pageCount (wsub 64 B.writeallowedStart B.kernelStart) =
      (B.writeallowedStart - B.kernelStart + 4095) / 4096 := by
    rw [wsub_eq hlo (by omega), pageCount_eq (by omega)]
  have hrw : pageCount (wsub 64 B.kernelEnd B.writeallowedStart) =
      (B.kernelEnd - B.writeallowedStart + 4095) / 4096 := by
    rw [wsub_eq hhi (by omega), pageCount_eq (by omega)]
  rw [mapKernel, hro, hrw, B.kernelPhys_offset, B.kernelPhys_offset]

theorem mapKernel_walk (hv : B.Valid) (hB : B.Small) (hlt : B.kernelStart < B.kernelEnd)
    (hs : s.Sound supply) (hf : FreshSupply supply s.pml4 (mapKernel supply B s).calls) :
    (∀ v, B.InKernel v → (mapKernel supply B s).walk (tablePath v) =
        if v < B.writeallowedStart ∨ v / 4096 <
            B.writeallowedStart / 4096 + (B.kernelEnd - B.writeallowedStart + 4095) / 4096
        then some (B.kernelPhys v / 4096 * 4096) else s.walk (tablePath v)) ∧
      ∀ b, (∀ v, B.InKernel v → pageNumber v ≠ pageNumber b) →
        (mapKernel supply B s).walk (tablePath b) = s.walk (tablePath b) := by
  obtain ⟨hlo, hhi⟩ := hv.order
  have hle := (hB.kernel hlt).2
  have hsize : B.kernelEnd ≤ B.kernelStart + 2 ^ 40 := by omega
  obtain ⟨hrw, hal⟩ := B.kernelPhys_eq hv hB hlt hlo hhi
  rw [mapKernel_eq hlo hhi hv.fits (by omega)] at hf ⊢
  have hf1 := hf.mono mapPage_calls
  obtain ⟨hs1, hroot⟩ := mapPage_sound hs hf1
  obtain ⟨hin, hout⟩ := mapPage_span hs hf1 rfl (by omega)
  obtain ⟨hin', hout'⟩ := mapPage_span hs1 (hroot ▸ hf) rfl (by omega)
  have hstart := hv.start
  refine ⟨fun v hvk => ?_, fun b hb => ?_⟩
  · have hpage := B.kernelPhys_page hv hB hlt hvk.1 (Nat.le_of_lt hvk.2)
    obtain ⟨hvlo, hvhi⟩ := hvk
    have hnear : B.kernelStart / 4096 ≤ v / 4096 ∧ v / 4096 ≤ B.kernelEnd / 4096 + 1 :=
      ⟨Nat.div_le_div_right hvlo, (Nat.div_le_div_right hvhi.le).trans (Nat.le_succ _)⟩
    -- the later of the two calls decides on the page they may share
    by_cases hwr : B.writeallowedStart / 4096 ≤ v / 4096 ∧ v / 4096 <
        B.writeallowedStart / 4096 + (B.kernelEnd - B.writeallowedStart + 4095) / 4096
    · have hpage' := B.kernelPhys_page hv hB hlt hlo hhi
      rw [if_pos (.inr hwr.2), hin' v hwr.1 hwr.2, Option.some.injEq]
      omega
    · have hother : ∀ w, B.writeallowedStart / 4096 ≤ w / 4096 → w / 4096 <
          B.writeallowedStart / 4096 + (B.kernelEnd - B.writeallowedStart + 4095) / 4096 →
          pageNumber w ≠ pageNumber v := fun w hwlo hwhi heq => by
        have hsame := page_of_pageNumber hsize ⟨by omega, by omega⟩ hnear heq
        exact hwr (hsame ▸ ⟨hwlo, hwhi⟩)
      rw [hout' v hother]
      by_cases hro : v < B.writeallowedStart
      · rw [if_pos (.inl hro), hin v (by omega) (by omega), Option.some.injEq]
        omega
      · rw [if_neg (by omega)]
        refine hout v fun w hwlo hwhi heq => ?_
        have hsame := page_of_pageNumber hsize ⟨hwlo, by omega⟩ hnear heq
        omega
  · rw [hout' b fun w hwlo hwhi => ?_, hout b fun w hwlo hwhi => ?_]
    · obtain ⟨v, hvlo, hvhi, hpage⟩ := page_has_byte hwlo hwhi
      rw [pageNumber, ← hpage]
      exact hb v ⟨hvlo, by omega⟩
    · obtain ⟨v, hvlo, hvhi, hpage⟩ := page_has_byte hwlo hwhi
      rw [pageNumber, ← hpage]
      exact hb v ⟨by omega, by omega⟩

-- ---------------------------------------------------------------------------
-- All of it
-- ---------------------------------------------------------------------------

theorem mapKernel_empty (hv : B.Valid) (h : ¬B.kernelStart < B.kernelEnd) :
    mapKernel supply B s = s := by
  obtain ⟨hlo, hhi⟩ := hv.order
  have hfits := hv.fits
  have hro : wsub 64 B.writeallowedStart B.kernelStart = 0 := by
    rw [wsub_eq hlo (by omega)]
    omega
  have hrw : wsub 64 B.kernelEnd B.writeallowedStart = 0 := by
    rw [wsub_eq hhi (by omega)]
    omega
  rw [mapKernel, hro, hrw]
  rfl

theorem mapAllMem_entries
    (hf : FreshSupply supply pml4 (mapAllMem supply B (.zeroed pml4 memory)).calls)
    (hs : B.entries.foldl (mapEntry supply B.hhdm) (.zeroed pml4 memory) = s) :
    FreshSupply supply pml4 s.calls ∧ s.Sound supply ∧
      FreshSupply supply s.pml4 (mapKernel supply B s).calls := by
  subst hs
  have hfm := hf.mono mapKernel_calls
  obtain ⟨hsound, hroot⟩ := mapEntries_sound B.entries zeroed_sound hfm
  exact ⟨hfm, hsound, hroot ▸ hf⟩

/-- The page of a byte of memory, and of a byte of the kernel, once everything
is mapped. -/
theorem mapAllMem_walk (hv : B.Valid) (hB : B.Small)
    (hf : FreshSupply supply pml4 (mapAllMem supply B (.zeroed pml4 memory)).calls) :
    (∀ e ∈ B.entries, e.Mapped → ∀ a, e.Has a →
      (mapAllMem supply B (.zeroed pml4 memory)).walk (tablePath (B.hhdm + a)) =
        if ∃ e ∈ B.entries, e.Mapped ∧ e.Spans (a / 4096) then some (a / 4096 * 4096) else none) ∧
      ∀ v, B.InKernel v → (mapAllMem supply B (.zeroed pml4 memory)).walk (tablePath v) =
        if v < B.writeallowedStart ∨ v / 4096 <
            B.writeallowedStart / 4096 + (B.kernelEnd - B.writeallowedStart + 4095) / 4096
        then some (B.kernelPhys v / 4096 * 4096) else none := by
  obtain ⟨hfm, hs', hfk⟩ := mapAllMem_entries hf rfl
  obtain ⟨hmem, hother⟩ := mapEntries_walk B.entries zeroed_sound hfm hv.hhdm hB.memory
  have hnil : ∀ b, (Vmm.zeroed pml4 memory).walk (tablePath b) = none :=
    fun b => zeroed_walk (List.cons_ne_nil _ _)
  refine ⟨fun e he hm a ha => ?_, fun v hvk => ?_⟩
  · have hlt : a < 2 ^ 40 := by
      have := hB.memory e he hm (by have := ha.1; have := ha.2; omega)
      have := ha.2
      omega
    have hsame : (mapAllMem supply B (.zeroed pml4 memory)).walk (tablePath (B.hhdm + a)) =
        (B.entries.foldl (mapEntry supply B.hhdm) (.zeroed pml4 memory)).walk
          (tablePath (B.hhdm + a)) := by
      by_cases hk : B.kernelStart < B.kernelEnd
      · exact (mapKernel_walk hv hB hk hs' hfk).2 _ fun v hvk =>
          hv.apart e he hm a ha v hvk
      · rw [mapAllMem, mapKernel_empty hv hk]
    rw [hsame, hmem a hlt, hnil]
  · have hk : B.kernelStart < B.kernelEnd := Nat.lt_of_le_of_lt hvk.1 hvk.2
    rw [mapAllMem, (mapKernel_walk hv hB hk hs' hfk).1 v hvk,
      hother v fun e he hm a ha => hv.apart e he hm a ha v hvk, hnil]

theorem getPhysicalAddress_of_walk (h : s.walk (tablePath b) = some frame) (hlt : frame < 2 ^ 40) :
    getPhysicalAddress s b = frame + b % 4096 := by
  rw [getPhysicalAddress_eq, h]
  exact wadd_eq (by omega)

theorem getPhysicalAddress_unmapped (h : s.walk (tablePath b) = none) :
    getPhysicalAddress s b = 0 := by
  rw [getPhysicalAddress_eq, h]

theorem covered_of_rounded (hv : B.Valid) (hR : B.Rounded)
    (hf : FreshSupply supply pml4 (mapAllMem supply B (.zeroed pml4 memory)).calls) :
    B.Covered (mapAllMem supply B (.zeroed pml4 memory)) := by
  have hB := hR.small
  obtain ⟨hmem, hker⟩ := mapAllMem_walk hv hB hf
  have hhdm := hv.hhdm
  refine ⟨fun e he hm a ha => ?_, fun v hvk => ?_⟩
  · have hwalk := hmem e he hm a ha
    obtain ⟨hlo, hhi⟩ := ha
    obtain ⟨hle, e', he', hm', hspan⟩ := hR.memory e he hm (by omega)
    have hcov : ∃ e ∈ B.entries, e.Mapped ∧ e.Spans (a / 4096) := by
      -- the entry itself reaches all its pages but perhaps the last
      by_cases hself : a / 4096 < e.base / 4096 + (e.length + 4095) / 4096
      · exact ⟨e, he, hm, by omega, hself⟩
      · have hlast : a / 4096 = (e.base + e.length - 1) / 4096 := by omega
        exact ⟨e', he', hm', hlast ▸ hspan⟩
    rw [if_pos hcov] at hwalk
    rw [getPhysicalAddress_of_walk hwalk (by omega)]
    omega
  · have hwalk := hker v hvk
    obtain ⟨hlo, hhi⟩ := hvk
    have hk : B.kernelStart < B.kernelEnd := Nat.lt_of_le_of_lt hlo hhi
    obtain ⟨-, hle, hround⟩ := hR.kernel hk
    obtain ⟨hphys, hal⟩ := B.kernelPhys_eq hv hB hk hlo (Nat.le_of_lt hhi)
    have hstart := hv.start
    have hcov : v < B.writeallowedStart ∨ v / 4096 <
        B.writeallowedStart / 4096 + (B.kernelEnd - B.writeallowedStart + 4095) / 4096 := by
      by_cases hro : v < B.writeallowedStart
      · exact .inl hro
      · have := hround (by omega)
        exact .inr (by omega)
    rw [if_pos hcov] at hwalk
    rw [getPhysicalAddress_of_walk hwalk (by omega)]
    omega

theorem rounded_of_covered (hv : B.Valid) (hB : B.Small)
    (hf : FreshSupply supply pml4 (mapAllMem supply B (.zeroed pml4 memory)).calls)
    (hC : B.Covered (mapAllMem supply B (.zeroed pml4 memory))) : B.Rounded := by
  obtain ⟨hmem, hker⟩ := mapAllMem_walk hv hB hf
  refine ⟨fun e he hm hlen => ⟨hB.memory e he hm hlen, ?_⟩, fun hk => ?_⟩
  · by_contra hno
    -- the first byte of the lost page
    have hpage : max e.base ((e.base + e.length - 1) / 4096 * 4096) / 4096 =
        (e.base + e.length - 1) / 4096 := by omega
    have hhas : e.Has (max e.base ((e.base + e.length - 1) / 4096 * 4096)) :=
      ⟨by omega, by omega⟩
    have hwalk := hmem e he hm _ hhas
    have hget := hC.memory e he hm _ hhas
    rw [hpage, if_neg hno] at hwalk
    rw [getPhysicalAddress_unmapped hwalk] at hget
    refine hno ⟨e, he, hm, ?_⟩
    exact ⟨by omega, by omega⟩
  · obtain ⟨hoff, hle⟩ := hB.kernel hk
    refine ⟨hoff, hle, fun hrw => ?_⟩
    by_contra hlost
    have hlast : B.InKernel (B.kernelEnd - 1) := ⟨by omega, by omega⟩
    have hwalk := hker _ hlast
    have hget := hC.kernel _ hlast
    obtain ⟨hlo, hhi⟩ := hv.order
    obtain ⟨hphys, -⟩ := B.kernelPhys_eq (v := B.kernelEnd - 1) hv hB hk (by omega) (by omega)
    rw [if_neg (by omega)] at hwalk
    rw [getPhysicalAddress_unmapped hwalk] at hget
    omega

/-- Everything is mapped where it should be exactly if the memory lies below
`2 ^ 40` and no range loses its last page. -/
theorem boot_mapped_iff (hv : B.Valid)
    (hf : B.Supplied supply pml4 (mapAllMem supply B (.zeroed pml4 memory)).calls) :
    B.Covered (mapAllMem supply B (.zeroed pml4 memory)) ↔ B.Rounded :=
  ⟨fun hC => rounded_of_covered hv (hC.small hv) (hf.fresh (hC.small hv).memory) hC,
    fun hR => covered_of_rounded hv hR (hf.fresh hR.small.memory)⟩

def smallBoot (e : MemmapEntry) : Boot :=
  { entries := [⟨0x10000, 0x8000, .usable⟩, e]
    hhdm := 0xFFFF800000000000
    physicalBase := 0x100000
    virtualBase := 0xFFFFFFFF80000000
    kernelStart := 0xFFFFFFFF80000000
    writeallowedStart := 0xFFFFFFFF80002000
    kernelEnd := 0xFFFFFFFF80003800 }

def smallSupply (k : Nat) : Nat := 0x10000 + 0x1000 * k

def smallMapped (e : MemmapEntry) : Vmm :=
  mapAllMem smallSupply (smallBoot e) (.zeroed 0x17000 fun _ _ => .zero)

theorem smallBoot_valid (he : e.base + e.length ≤ 2 ^ 32) : (smallBoot e).Valid := by
  have hin : ∀ e' ∈ (smallBoot e).entries, e'.base + e'.length ≤ 2 ^ 32 := by
    intro e' h
    simp only [smallBoot, List.mem_cons, List.not_mem_nil, or_false] at h
    rcases h with rfl | rfl
    · decide
    · exact he
  refine ⟨fun e' h => ?_, by simp only [smallBoot], by simp only [smallBoot],
    ⟨by norm_num only [smallBoot], by norm_num only [smallBoot]⟩, by norm_num only [smallBoot],
    fun e' h _ a ha v hk => ?_⟩
  · have := hin e' h
    omega
  · have hlow : pageNumber (0xFFFF800000000000 + a) < 0xFFFF80000 := by
      have ha : a < 2 ^ 32 := Nat.lt_of_lt_of_le ha.2 (hin e' h)
      rw [pageNumber]
      omega
    have hhigh : 0xFFFF80000 ≤ pageNumber v := by
      have hlo : 0xFFFFFFFF80000000 ≤ v := hk.1
      have hhi : v < 0xFFFFFFFF80003800 := hk.2
      rw [pageNumber]
      omega
    exact Nat.ne_of_gt (Nat.lt_of_lt_of_le hlow hhigh)

theorem smallBoot_supplied (h : (smallMapped e).calls = 6) :
    (smallBoot e).Supplied smallSupply 0x17000 (smallMapped e).calls := by
  rw [h]
  intro k hk
  simp only [smallSupply]
  refine ⟨by omega, by omega, ⟨⟨0x10000, 0x8000, .usable⟩, List.mem_cons_self, rfl, ?_⟩,
    by omega, fun l hl => by omega⟩
  simp only [MemmapEntry.Has]
  omega

theorem boot_mapped_iff_small :
    let e : MemmapEntry := ⟨0x1000, 0x800, .acpiReclaimable⟩
    (smallBoot e).Valid ∧ (smallBoot e).Supplied smallSupply 0x17000 (smallMapped e).calls ∧
      (smallBoot e).Covered (smallMapped e) := by
  intro e
  have hv : (smallBoot e).Valid := smallBoot_valid (by decide)
  have hf := smallBoot_supplied (e := e) (by decide +kernel)
  exact ⟨hv, hf, (boot_mapped_iff hv hf).mpr ⟨by decide, by decide⟩⟩

/-- A region of one page that starts in the middle of a page loses its second
half. -/
theorem unaligned_entry_lost :
    let e : MemmapEntry := ⟨0x1800, 0x1000, .acpiReclaimable⟩
    (smallBoot e).Valid ∧ (smallBoot e).Supplied smallSupply 0x17000 (smallMapped e).calls ∧
      getPhysicalAddress (smallMapped e) ((smallBoot e).hhdm + 0x2000) = 0 ∧
      ¬(smallBoot e).Covered (smallMapped e) := by
  intro e
  have hlost : getPhysicalAddress (smallMapped e) ((smallBoot e).hhdm + 0x2000) = 0 := by
    decide +kernel
  refine ⟨smallBoot_valid (by decide), smallBoot_supplied (by decide +kernel), hlost,
    fun hC => ?_⟩
  have hget := hC.memory e (List.mem_cons_of_mem _ List.mem_cons_self) (by decide) 0x2000
    ⟨by decide, by decide⟩
  rw [hlost] at hget
  cases hget

end

end TomatoOs.Memory
