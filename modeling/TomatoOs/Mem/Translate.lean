import TomatoOs.Mem.Boot

/-!
# Translating without the tables

`virt_to_phys` knows two windows by their offsets, the one at `hhdm` and the one
of the kernel image, and asks the tables about other addresses. The image lies
above `hhdm`, so that the first test takes its addresses too.

`uacpi_kernel_map` maps the pages under a stretch of physical memory behind
`hhdm`.
-/

namespace TomatoOs.Memory

open Lib

def virtToPhys (B : Boot) (s : Vmm) (virt : Nat) : Nat :=
  if virt ≥ B.hhdm then wsub 64 virt B.hhdm
  else if virt ≥ B.virtualBase then wsub 64 virt (wsub 64 B.virtualBase B.physicalBase)
  else getPhysicalAddress s virt

/-- The placement that the bootloader provides: `hhdm` in the upper half, whole
pages of memory, and the kernel above all of it. -/
structure Boot.Placed (B : Boot) : Prop where
  hhdm : B.hhdm % 4096 = 0
  half : 2 ^ 64 - 2 ^ 47 ≤ B.hhdm
  aligned : ∀ e ∈ B.entries, e.base % 4096 = 0 ∧ e.length % 4096 = 0
  above : ∀ e ∈ B.entries, e.Mapped → ∀ a, e.Has a → B.hhdm + a < B.virtualBase
  upper : B.hhdm ≤ B.virtualBase
  bases : B.virtualBase % 4096 = 0 ∧ B.physicalBase % 4096 = 0
  image : B.virtualBase ≤ B.kernelStart
  start : B.kernelStart % 4096 = 0
  order : B.kernelStart ≤ B.writeallowedStart ∧ B.writeallowedStart ≤ B.kernelEnd
  fits : B.kernelEnd < 2 ^ 64

def Boot.InWindow (B : Boot) (v : Nat) : Prop :=
  ∃ e ∈ B.entries, e.Mapped ∧ ∃ a, e.Has a ∧ v = B.hhdm + a

/-- The address of a byte of the kernel image, unless the page that its writable
half may lose is lost. -/
def Boot.InImage (B : Boot) (v : Nat) : Prop :=
  B.InKernel v ∧ (v < B.writeallowedStart ∨
    v / 4096 < B.writeallowedStart / 4096 + (B.kernelEnd - B.writeallowedStart + 4095) / 4096)

def Boot.Coincides (B : Boot) (v : Nat) : Prop := v = B.hhdm + B.kernelPhys v % 2 ^ 40

section
variable {supply : Nat → Nat} {B : Boot} {s s' : Vmm}

-- ---------------------------------------------------------------------------
-- The kernel image
-- ---------------------------------------------------------------------------

theorem mapKernel_asked (hp : B.Placed) (hs : s.Sound supply)
    (hf : FreshSupply supply s.pml4 (mapKernel supply B s).calls) (b : Nat) :
    (mapKernel supply B s).walk (tablePath b) =
      (asked B.writeallowedStart (B.kernelPhys B.writeallowedStart) 3
        ((B.kernelEnd - B.writeallowedStart + 4095) / 4096) b).getD
      ((asked B.kernelStart (B.kernelPhys B.kernelStart) 1
        ((B.writeallowedStart - B.kernelStart + 4095) / 4096) b).getD (s.walk (tablePath b))) := by
  obtain ⟨hlo, hhi⟩ := hp.order
  have hfits := hp.fits
  have himage := hp.image
  have hover := hp.upper
  have hhalf := hp.half
  rw [mapKernel_eq hlo hhi hfits (by omega)] at hf ⊢
  have hf1 := hf.mono mapPage_calls
  obtain ⟨hs1, hroot⟩ := mapPage_sound hs hf1
  rw [mapPage_asked hs1 (hroot ▸ hf), mapPage_asked hs hf1]

theorem Boot.Placed.kernelPhys_page (hp : B.Placed) (v : Nat) :
    B.kernelPhys v % 4096 = v % 4096 := by
  obtain ⟨hv, hphys⟩ := hp.bases
  rw [B.kernelPhys_mod]
  omega

theorem Boot.Placed.kernelPhys_floor (hp : B.Placed) (v : Nat) :
    B.kernelPhys v / 4096 = B.kernelPhys (v / 4096 * 4096) / 4096 := by
  have hadd := B.kernelPhys_add (v / 4096 * 4096) (v % 4096)
  have hpage := hp.kernelPhys_page (v / 4096 * 4096)
  have hlt : B.kernelPhys (v / 4096 * 4096) < 2 ^ 64 := wadd_lt ..
  rw [Nat.div_add_mod' v 4096, Nat.mod_eq_of_lt (by omega)] at hadd
  omega

theorem Boot.Placed.kernelPhys_frame (hp : B.Placed) (hle : u / 4096 ≤ v / 4096) :
    wadd 64 (B.kernelPhys u) (wmul 64 (v / 4096 - u / 4096) 4096) / 4096 * 4096 % 2 ^ 40 =
      B.kernelPhys v / 4096 * 4096 % 2 ^ 40 := by
  have hadd := B.kernelPhys_add u ((v / 4096 - u / 4096) * 4096)
  have hsum : wadd 64 (B.kernelPhys u) (wmul 64 (v / 4096 - u / 4096) 4096) =
      B.kernelPhys (u + (v / 4096 - u / 4096) * 4096) := by
    rw [hadd, wadd, wmul, Nat.add_mod_mod]
  have hpage : (u + (v / 4096 - u / 4096) * 4096) / 4096 = v / 4096 := by omega
  rw [hsum, hp.kernelPhys_floor (u + _), hp.kernelPhys_floor v, hpage]

theorem pageNumber_ahead (h : u / 4096 ≤ v / 4096) :
    pageNumber v = pageNumber (u + 4096 * (v / 4096 - u / 4096)) := by
  rw [pageNumber, pageNumber, Nat.add_mul_div_left _ _ (by decide), Nat.add_sub_cancel' h]

theorem image_walk (hp : B.Placed) (hs : s.Sound supply)
    (hf : FreshSupply supply s.pml4 (mapKernel supply B s).calls) (hv : B.InImage v) :
    (mapKernel supply B s).walk (tablePath v) =
      some (B.kernelPhys v / 4096 * 4096 % 2 ^ 40) := by
  obtain ⟨⟨hlo, hhi⟩, hkept⟩ := hv
  obtain ⟨hro, hrw⟩ := hp.order
  have hfits := hp.fits
  have himage := hp.image
  have hover := hp.upper
  have hhalf := hp.half
  have hstart := hp.start
  rw [mapKernel_asked hp hs hf]
  by_cases hw : B.writeallowedStart / 4096 ≤ v / 4096 ∧ v / 4096 <
      B.writeallowedStart / 4096 + (B.kernelEnd - B.writeallowedStart + 4095) / 4096
  · -- the writable half, which may start in the middle of a page
    have hin : v / 4096 - B.writeallowedStart / 4096 <
        (B.kernelEnd - B.writeallowedStart + 4095) / 4096 := by omega
    rw [asked_some hin (pageNumber_ahead hw.1) (by omega), frameOf, hp.kernelPhys_frame hw.1]
    rfl
  · have hin : v / 4096 - B.kernelStart / 4096 <
        (B.writeallowedStart - B.kernelStart + 4095) / 4096 := by omega
    have hpage : B.kernelStart / 4096 ≤ v / 4096 := Nat.div_le_div_right hlo
    rw [asked_none fun i hi heq => hw ?_, asked_some hin (pageNumber_ahead hpage) (by omega),
      frameOf, hp.kernelPhys_frame hpage]
    · rfl
    · rw [pageNumber, pageNumber] at heq
      omega

theorem below_image_walk (hp : B.Placed) (hs : s.Sound supply)
    (hf : FreshSupply supply s.pml4 (mapKernel supply B s).calls) (hlo : B.hhdm ≤ v)
    (hhi : v < B.virtualBase) :
    (mapKernel supply B s).walk (tablePath v) = s.walk (tablePath v) := by
  obtain ⟨hro, hrw⟩ := hp.order
  have hfits := hp.fits
  have himage := hp.image
  have hhalf := hp.half
  have hstart := hp.start
  have hbase := hp.bases.1
  rw [mapKernel_asked hp hs hf, asked_none fun i hi heq => ?_, asked_none fun i hi heq => ?_]
  · rfl
  · rw [pageNumber_eq_iff (.inr ⟨by omega, by omega⟩) (.inr ⟨by omega, by omega⟩)] at heq
    omega
  · rw [pageNumber, pageNumber] at heq
    omega

-- ---------------------------------------------------------------------------
-- The two translations
-- ---------------------------------------------------------------------------

theorem virtToPhys_above (hlo : B.hhdm ≤ v) (hhi : v < 2 ^ 64) :
    virtToPhys B s v = v - B.hhdm := by
  rw [virtToPhys, if_pos hlo, wsub_eq hlo hhi]

theorem window_agrees (hp : B.Placed) (hlow : B.Low)
    (hf : FreshSupply supply pml4 (mapAllMem supply B (.zeroed pml4 memory)).calls)
    (hv : B.InWindow v) :
    virtToPhys B (mapAllMem supply B (.zeroed pml4 memory)) v =
      getPhysicalAddress (mapAllMem supply B (.zeroed pml4 memory)) v := by
  obtain ⟨e, he, hm, a, ha, rfl⟩ := hv
  have habove := hp.above e he hm a ha
  have himage := hp.image
  have hfits := hp.fits
  have hhdm := hp.hhdm
  obtain ⟨hbase, hlength⟩ := hp.aligned e he
  obtain ⟨hro, hrw⟩ := hp.order
  have hlt : a < 2 ^ 40 := by
    have := hlow e he hm (by have := ha.1; have := ha.2; omega)
    have := ha.2
    omega
  obtain ⟨hfm, hs', hfk⟩ := mapAllMem_entries hf rfl
  have hwalk := (mapEntries_walk B.entries zeroed_sound hfm hp.hhdm hlow).1 a hlt
  rw [if_pos ⟨e, he, hm, by have := ha.1; have := ha.2; exact ⟨by omega, by omega⟩⟩] at hwalk
  rw [← below_image_walk hp hs' hfk (by omega) habove] at hwalk
  rw [virtToPhys_above (by omega) (by omega), mapAllMem,
    getPhysicalAddress_of_walk hwalk (by omega)]
  omega

theorem image_agrees_iff (hp : B.Placed)
    (hf : FreshSupply supply pml4 (mapAllMem supply B (.zeroed pml4 memory)).calls)
    (hv : B.InImage v) :
    virtToPhys B (mapAllMem supply B (.zeroed pml4 memory)) v =
        getPhysicalAddress (mapAllMem supply B (.zeroed pml4 memory)) v ↔ B.Coincides v := by
  obtain ⟨-, hs', hfk⟩ := mapAllMem_entries hf rfl
  have hwalk := image_walk hp hs' hfk hv
  obtain ⟨⟨hlo, hhi⟩, -⟩ := hv
  have himage := hp.image
  have hover := hp.upper
  have hfits := hp.fits
  have hpage := hp.kernelPhys_page v
  rw [virtToPhys_above (by omega) (by omega), mapAllMem,
    getPhysicalAddress_of_walk hwalk (by omega), Boot.Coincides]
  omega

/-- The two agree on all that is mapped exactly if the memory lies below `2 ^ 40`
and every byte of the kernel image is where `hhdm` has it. On a machine whose
memory lies there, that is told address by address. -/
theorem translations_agree_iff (hp : B.Placed)
    (hf : B.Supplied supply pml4 (mapAllMem supply B (.zeroed pml4 memory)).calls) :
    ((∀ v, B.InWindow v ∨ B.InImage v →
        virtToPhys B (mapAllMem supply B (.zeroed pml4 memory)) v =
          getPhysicalAddress (mapAllMem supply B (.zeroed pml4 memory)) v) ↔
      B.Low ∧ ∀ v, B.InImage v → B.Coincides v) ∧
    (B.Low → ∀ v, B.InWindow v ∨ B.InImage v →
      (virtToPhys B (mapAllMem supply B (.zeroed pml4 memory)) v =
          getPhysicalAddress (mapAllMem supply B (.zeroed pml4 memory)) v ↔
        (B.InImage v → B.Coincides v))) := by
  have hlocal : B.Low → ∀ v, B.InWindow v ∨ B.InImage v →
      (virtToPhys B (mapAllMem supply B (.zeroed pml4 memory)) v =
          getPhysicalAddress (mapAllMem supply B (.zeroed pml4 memory)) v ↔
        (B.InImage v → B.Coincides v)) := by
    intro hlow v hv
    rcases hv with hv | hv
    · refine ⟨fun _ himage => ?_, fun _ => window_agrees hp hlow (hf.fresh hlow) hv⟩
      -- the image lies above the window
      obtain ⟨e, he, hm, a, ha, rfl⟩ := hv
      have habove := hp.above e he hm a ha
      have hlo := himage.1.1
      have := hp.image
      omega
    · rw [image_agrees_iff hp (hf.fresh hlow) hv]
      exact ⟨fun h _ => h, fun h => h hv⟩
  refine ⟨⟨fun h => ?_, fun ⟨hlow, himage⟩ v hv => (hlocal hlow v hv).mpr (himage v)⟩, hlocal⟩
  have hlow : B.Low := by
    intro e he hm hlen
    have ha : e.Has (e.base + e.length - 1) := ⟨by omega, by omega⟩
    have habove := hp.above e he hm _ ha
    have himage := hp.image
    have hfits := hp.fits
    obtain ⟨hro, hrw⟩ := hp.order
    have hlast := h _ (.inl ⟨e, he, hm, _, ha, rfl⟩)
    have hrange := (getPhysicalAddress_range (mapAllMem supply B (.zeroed pml4 memory))
      (B.hhdm + (e.base + e.length - 1))).1
    rw [← hlast, virtToPhys_above (by omega) (by omega)] at hrange
    omega
  exact ⟨hlow, fun v hv => (hlocal hlow v (.inr hv)).mp (h v (.inr hv)) hv⟩

theorem smallBoot_placed (hbase : e.base % 4096 = 0) (hlength : e.length % 4096 = 0)
    (he : e.base + e.length ≤ 2 ^ 32) : (smallBoot e).Placed := by
  have hv := smallBoot_valid he
  refine ⟨hv.hhdm, by norm_num only [smallBoot], fun e' h => ?_, fun e' h _ a ha => ?_,
    by norm_num only [smallBoot], ⟨by norm_num only [smallBoot], by norm_num only [smallBoot]⟩,
    Nat.le_refl _, hv.start, hv.order, hv.fits⟩
  · simp only [smallBoot, List.mem_cons, List.not_mem_nil, or_false] at h
    rcases h with rfl | rfl
    · decide
    · exact ⟨hbase, hlength⟩
  · have hlt : a < 2 ^ 32 := by
      have hhi := ha.2
      simp only [smallBoot, List.mem_cons, List.not_mem_nil, or_false] at h
      rcases h with rfl | rfl
      · exact Nat.lt_trans hhi (by decide)
      · omega
    simp only [smallBoot]
    omega

theorem translations_agree_iff_small :
    let e : MemmapEntry := ⟨0x1000, 0x1000, .acpiReclaimable⟩
    (smallBoot e).Placed ∧ (smallBoot e).Supplied smallSupply 0x17000 (smallMapped e).calls ∧
      virtToPhys (smallBoot e) (smallMapped e) 0xFFFF800000001008 =
        getPhysicalAddress (smallMapped e) 0xFFFF800000001008 := by
  intro e
  have hp : (smallBoot e).Placed := smallBoot_placed (by decide) (by decide) (by decide)
  have hf := smallBoot_supplied (e := e) (by decide +kernel)
  have hlow : (smallBoot e).Low := by
    rw [Boot.Low]
    decide
  refine ⟨hp, hf, ((translations_agree_iff hp hf).2 hlow 0xFFFF800000001008 (.inl ?_)).mpr ?_⟩
  · exact ⟨e, List.mem_cons_of_mem _ List.mem_cons_self, by decide, 0x1008,
      ⟨by decide, by decide⟩, rfl⟩
  · rintro ⟨⟨hlo, -⟩, -⟩
    exact absurd hlo (by decide)

/-- The first byte of the kernel image. -/
theorem image_mistranslated :
    let e : MemmapEntry := ⟨0x1000, 0x1000, .acpiReclaimable⟩
    (smallBoot e).Placed ∧ (smallBoot e).Supplied smallSupply 0x17000 (smallMapped e).calls ∧
      (smallBoot e).InImage 0xFFFFFFFF80000000 ∧
      getPhysicalAddress (smallMapped e) 0xFFFFFFFF80000000 = 0x100000 ∧
      virtToPhys (smallBoot e) (smallMapped e) 0xFFFFFFFF80000000 = 0x7FFF80000000 := by
  intro e
  exact ⟨smallBoot_placed (by decide) (by decide) (by decide),
    smallBoot_supplied (by decide +kernel),
    ⟨⟨by decide, by decide⟩, by decide⟩, by decide +kernel, by decide +kernel⟩

-- ---------------------------------------------------------------------------
-- Memory for uACPI
-- ---------------------------------------------------------------------------

def uacpiKernelMap (supply : Nat → Nat) (hhdm : Nat) (s : Vmm) (addr len : Nat) : Vmm × Nat :=
  let offset := addr &&& 0xFFF
  let alignedPhys := addr &&& 0xFFFFFFFFFFFFF000
  let mappedLen := wmul 64 (wsub 64 (wadd 64 (wadd 64 offset len) 4096) 1 / 4096) 4096
  let numPages := mappedLen / 4096
  let virt := wadd 64 hhdm alignedPhys
  (mapPage supply s virt alignedPhys 3 numPages, wadd 64 virt offset)

def Overlaps (addr len q : Nat) : Prop := addr / 4096 ≤ q ∧ q ≤ (addr + len - 1) / 4096

theorem and_page_mask (h : addr < 2 ^ 64) : addr &&& 0xFFFFFFFFFFFFF000 = addr / 4096 * 4096 := by
  have hmask : (0xFFFFFFFFFFFFF000 : Nat) = (2 ^ 52 - 1) <<< 12 := by decide
  apply Nat.eq_of_testBit_eq
  intro k
  have hmul : addr / 4096 * 4096 = addr >>> 12 <<< 12 := by
    rw [Nat.shiftLeft_eq, Nat.shiftRight_eq_div_pow]
  rw [hmask, hmul, Nat.testBit_and, Nat.testBit_shiftLeft, Nat.testBit_shiftLeft,
    Nat.testBit_shiftRight, Nat.testBit_two_pow_sub_one]
  by_cases hk : 12 ≤ k
  · have hsum : 12 + (k - 12) = k := by omega
    rw [hsum]
    by_cases hlt : k - 12 < 52
    · simp [hk, hlt]
    · have hzero : addr.testBit k = false :=
        Nat.testBit_lt_two_pow (Nat.lt_of_lt_of_le h (Nat.pow_le_pow_right (by decide) (by omega)))
      simp [hzero]
  · simp [hk]

theorem uacpiKernelMap_eq (hlen : 1 ≤ len) (hle : addr + len ≤ 2 ^ 40 - 4096) :
    uacpiKernelMap supply hhdm s addr len =
      (mapPage supply s (wadd 64 hhdm (addr / 4096 * 4096)) (addr / 4096 * 4096) 3
        ((addr + len - 1) / 4096 + 1 - addr / 4096), wadd 64 hhdm addr) := by
  have hoff : addr &&& 0xFFF = addr % 4096 := Nat.and_two_pow_sub_one_eq_mod _ 12
  have hcount : wmul 64 (wsub 64 (wadd 64 (wadd 64 (addr % 4096) len) 4096) 1 / 4096) 4096 / 4096 =
      (addr + len - 1) / 4096 + 1 - addr / 4096 := by
    rw [wadd_eq (a := addr % 4096) (by omega), wadd_eq (by omega), wsub_eq (by omega) (by omega),
      wmul_eq (by omega)]
    omega
  have hptr : wadd 64 (wadd 64 hhdm (addr / 4096 * 4096)) (addr % 4096) = wadd 64 hhdm addr := by
    rw [wadd, wadd, wadd, Nat.mod_add_mod]
    congr 1
    omega
  simp only [uacpiKernelMap, hoff, and_page_mask (show addr < 2 ^ 64 by omega), hcount, hptr]

/-- Every byte is mapped where it was asked for, and no page changes but the
images of the pages under the bytes, as far as the tables can tell pages apart.
They can do so completely if the images have canonical addresses. -/
theorem uacpiKernelMap_maps (cs : List MapCall)
    (hs : cs.foldl (Vmm.map supply) (.zeroed pml4 memory) = s)
    (hr : uacpiKernelMap supply hhdm s addr len = (s', r)) (hf : FreshSupply supply pml4 s'.calls)
    (hhdm0 : hhdm % 4096 = 0) (hlen : 1 ≤ len) (hle : addr + len ≤ 2 ^ 40 - 4096) :
    (∀ k < len, getPhysicalAddress s' (wadd 64 r k) = addr + k) ∧
      (∀ b, (∀ q, Overlaps addr len q → pageNumber b ≠ pageNumber (wadd 64 hhdm (4096 * q))) →
        s'.walk (tablePath b) = s.walk (tablePath b)) ∧
      ((∀ q, Overlaps addr len q → Canonical (wadd 64 hhdm (4096 * q))) →
        ∀ b, Canonical b →
          (∀ q, Overlaps addr len q → b / 4096 ≠ wadd 64 hhdm (4096 * q) / 4096) →
            s'.walk (tablePath b) = s.walk (tablePath b)) := by
  rw [uacpiKernelMap_eq hlen hle, Prod.mk.injEq] at hr
  obtain ⟨rfl, rfl⟩ := hr
  obtain ⟨hsound, hroot⟩ : s.Sound supply ∧ s.pml4 = pml4 := by
    subst hs
    exact maps_sound cs zeroed_sound (hf.mono mapPage_calls)
  rw [← hroot] at hf
  obtain ⟨hin, hout⟩ := mapPage_range hsound hf rfl (by omega)
  have hother : ∀ b,
      (∀ q, Overlaps addr len q → pageNumber b ≠ pageNumber (wadd 64 hhdm (4096 * q))) →
      (mapPage supply s (wadd 64 hhdm (addr / 4096 * 4096)) (addr / 4096 * 4096) 3
        ((addr + len - 1) / 4096 + 1 - addr / 4096)).walk (tablePath b) =
          s.walk (tablePath b) := by
    refine fun b hb => hout b fun i hi heq => hb (addr / 4096 + i) ⟨by omega, by omega⟩ ?_
    rw [heq, pageNumber]
    simp only [wadd]
    omega
  refine ⟨fun k hk => ?_, hother, fun hcanon b hb hne => hother b fun q hq heq => hne q hq ?_⟩
  · have hwalk := hin ((addr + k) / 4096 - addr / 4096) (by omega)
      (wadd 64 (wadd 64 hhdm addr) k) (by rw [pageNumber]; simp only [wadd]; omega)
    have hoff : wadd 64 (wadd 64 hhdm addr) k % 4096 = (addr + k) % 4096 := by
      simp only [wadd]
      omega
    rw [getPhysicalAddress_of_walk hwalk (by omega), hoff]
    omega
  · exact (pageNumber_eq_iff hb (hcanon q hq)).mp heq

/-- Ten bytes across the boundary between two pages. -/
theorem uacpiKernelMap_maps_two :
    let supply : Nat → Nat := fun k => 8192 + 4096 * k
    let s := Vmm.zeroed 4096 fun _ _ => .zero
    let m := uacpiKernelMap supply 0xFFFF800000000000 s 0x5FFB 10
    m.2 = 0xFFFF800000005FFB ∧ getPhysicalAddress m.1 (wadd 64 m.2 9) = 0x6004 := by
  intro supply s m
  have hcalls : m.1.calls = 3 := by decide +kernel
  have hf : FreshSupply supply 4096 m.1.calls := freshSupply_stepped (by omega)
  have hmaps := uacpiKernelMap_maps [] (s := s) rfl (Prod.mk.eta (p := m)).symm hf (by decide)
    (by decide) (by decide)
  exact ⟨by decide +kernel, hmaps.1 9 (by decide)⟩

/-- The image of the page is behind the last address of the lower half, and the page that
changes is the first of the upper half. -/
theorem image_not_canonical :
    let supply : Nat → Nat := fun k => 8192 + 4096 * k
    let s := Vmm.zeroed 4096 fun _ _ => .zero
    let hhdm := 0x7FC000000000
    let m := uacpiKernelMap supply hhdm s 0x4000000000 1
    FreshSupply supply 4096 m.1.calls ∧ Canonical hhdm ∧ Canonical 0xFFFF800000000000 ∧
      (∀ q, Overlaps 0x4000000000 1 q →
        0xFFFF800000000000 / 4096 ≠ wadd 64 hhdm (4096 * q) / 4096) ∧
      getPhysicalAddress s 0xFFFF800000000000 = 0 ∧
      getPhysicalAddress m.1 0xFFFF800000000000 = 0x4000000000 := by
  intro supply s hhdm m
  have hcalls : m.1.calls = 3 := by decide +kernel
  refine ⟨?_, .inl (by decide), .inr (by decide), fun q hq => ?_, by decide +kernel,
    by decide +kernel⟩
  · rw [hcalls]
    exact freshSupply_stepped (by decide)
  · obtain ⟨hlo, hhi⟩ := hq
    rw [wadd, show hhdm = 0x7FC000000000 from rfl]
    omega

end

end TomatoOs.Memory
