import TomatoOs.Drivers.Nvme

/-!
# The namespaces of a controller

The controller lists its active namespaces, is asked about each of them, and each
that it describes becomes a disk. The driver takes the place of a namespace in
its table from the list, and the size of its blocks from one of the formats in
the description. The table has 256 places; the formats are counted from zero.
-/

namespace TomatoOs.Drivers

open Lib Memory

structure NvmeIdNs where
  nsze : Nat
  nlbaf : Nat
  flbas : Nat
  /-- `lbaf[i].ds` -/
  ds : Nat → Nat

def nvmeIdNs (page : Mem) : NvmeIdNs :=
  { nsze := page.load 0 8
    nlbaf := page.load 25 1
    flbas := page.load 26 1
    ds := fun i => page.load (128 + 4 * i + 2) 1 }

/-- `flbas & 0xF` -/
def NvmeIdNs.format (d : NvmeIdNs) : Nat := d.flbas % 16

/-- A shift by more than 31 bits uses the low five bits, as the processor has it. -/
def NvmeIdNs.lbaSize (d : NvmeIdNs) : Nat :=
  if d.format < d.nlbaf then 1 <<< (d.ds d.format % 32) else 512

structure NvmeNamespace where
  nsid : Nat
  size : Nat
  lbaSize : Nat
  valid : Bool
  /-- the page behind the pointer -/
  nsData : Nat
deriving DecidableEq

/-- A disk as `init_disk` gets it, with the description that its namespace had
then. -/
structure NvmeDisk where
  nsid : Nat
  lbaSize : Nat
  identity : NvmeIdNs

/-- Pages are named by their physical address. `touched` has the places of the
table that were used, inside of it or not. -/
structure Enumeration where
  pmm : Pmm
  pages : Nat → Mem
  sent : List NvmeCommand
  namespaces : Nat → NvmeNamespace
  numNamespaces : Nat
  disks : List NvmeDisk
  touched : List Nat

def Enumeration.touch (s : Enumeration) (i : Nat) (f : NvmeNamespace → NvmeNamespace) :
    Enumeration :=
  { s with
    namespaces := Function.update s.namespaces i (f (s.namespaces i))
    touched := s.touched ++ [i] }

-- ---------------------------------------------------------------------------
-- The code
-- ---------------------------------------------------------------------------

section
variable (answer : Nat → Option Mem)

/-- A command, and the wait for it. `answer` tells by the number of the command
what its page holds when the wait is over, or that the wait failed. -/
def Enumeration.admin (s : Enumeration) (cmd : NvmeCommand) : Bool × Enumeration :=
  let sent := s.sent ++ [cmd]
  match answer s.sent.length with
  | none => (false, { s with sent })
  | some page => (true, { s with sent, pages := Function.update s.pages cmd.prp1 page })

/-- The field `page_size` of the controller is `PAGE_SIZE`. -/
def nvmeIdentifyNamespace (s : Enumeration) (nsid : Nat) : Bool × Enumeration :=
  let i := wsub 32 nsid 1
  let (pmm, phys) := pmmAllocPage s.pmm pageSize
  let s := { s with pmm }.touch i fun ns => { ns with nsData := phys }
  match s.admin answer { NvmeCommand.zero with cdw0 := 0x06, nsid, cdw10 := 0, prp1 := phys } with
  | (false, s) => (false, s)
  | (true, s) =>
    let data := nvmeIdNs (s.pages (s.namespaces i).nsData)
    (true, s.touch i fun ns =>
      { ns with nsid, size := data.nsze, lbaSize := data.lbaSize, valid := true })

/-- What `init_disk` does with the disk is not followed here. -/
def nvmeInitNamespace (s : Enumeration) (nsid : Nat) : Enumeration :=
  let i := wsub 32 nsid 1
  let ns := s.namespaces i
  { s.touch i id with disks := s.disks ++ [⟨nsid, ns.lbaSize, nvmeIdNs (s.pages ns.nsData)⟩] }

def initOne (s : Enumeration) (nsid : Nat) : Enumeration :=
  match nvmeIdentifyNamespace answer s nsid with
  | (true, s) => { nvmeInitNamespace s nsid with numNamespaces := wadd 32 s.numNamespaces 1 }
  | (false, s) => s

def initLoop (nsList : Nat) : Nat → Nat → Enumeration → Enumeration
  | 0, _, s => s
  | k + 1, i, s =>
    let nsid := (s.pages nsList).load (4 * i) 4
    if nsid = 0 then s else initLoop nsList k (i + 1) (initOne answer s nsid)

def nvmeInitNamespaces (s : Enumeration) : Bool × Enumeration :=
  let (pmm, phys) := pmmAllocPage s.pmm pageSize
  let cmd := { NvmeCommand.zero with cdw0 := 0x06, cdw10 := 0x2, prp1 := phys }
  match { s with pmm }.admin answer cmd with
  | (false, s) => (false, s)
  | (true, s) => (true, initLoop answer phys 1024 0 s)

end

-- ---------------------------------------------------------------------------
-- What is asked
-- ---------------------------------------------------------------------------

def activeIds (list : Mem) : Nat → Nat → List Nat
  | 0, _ => []
  | k + 1, i =>
    if list.load (4 * i) 4 = 0 then [] else list.load (4 * i) 4 :: activeIds list k (i + 1)

/-- Only places of the table are used, and a disk whose format exists has blocks
of the size of that format. -/
structure Enumeration.Proper (s : Enumeration) : Prop where
  places : ∀ i ∈ s.touched, i < 256
  sizes : ∀ d ∈ s.disks, d.identity.format ≤ d.identity.nlbaf →
    d.lbaSize = 2 ^ d.identity.ds d.identity.format

/-- The format is not the last one, unless the last one has blocks of 512
bytes. -/
def NvmeIdNs.Plain (d : NvmeIdNs) : Prop :=
  (d.format < d.nlbaf → d.ds d.format < 32) ∧ (d.format = d.nlbaf → d.ds d.format = 9)

theorem lbaSize_iff (d : NvmeIdNs) :
    (d.format ≤ d.nlbaf → d.lbaSize = 2 ^ d.ds d.format) ↔ d.Plain := by
  rw [NvmeIdNs.lbaSize, NvmeIdNs.Plain]
  split
  · rename_i hlt
    have hpow : 1 <<< (d.ds d.format % 32) = 2 ^ d.ds d.format ↔ d.ds d.format < 32 := by
      rw [Nat.one_shiftLeft, Nat.pow_right_inj (Nat.le_refl 2)]
      omega
    rw [hpow]
    exact ⟨fun h => ⟨fun _ => h hlt.le, fun heq => absurd heq hlt.ne⟩, fun h _ => h.1 hlt⟩
  · rename_i hge
    have hpow : 512 = 2 ^ d.ds d.format ↔ d.ds d.format = 9 := by
      rw [show 512 = 2 ^ 9 from rfl, Nat.pow_right_inj (Nat.le_refl 2)]
      exact eq_comm
    rw [hpow]
    exact ⟨fun h => ⟨fun hlt => absurd hlt hge, fun heq => h heq.le⟩,
      fun h hle => h.2 (Nat.le_antisymm hle (Nat.le_of_not_lt hge))⟩

-- ---------------------------------------------------------------------------
-- One namespace
-- ---------------------------------------------------------------------------

section
variable {answer : Nat → Option Mem} {s : Enumeration}

/-- The page with the list is in use, so it is not handed out again. -/
structure Enumeration.Lists (s : Enumeration) (nsList : Nat) (list : Mem) : Prop where
  sound : s.pmm.Sound
  page : s.pages nsList = list
  used : ∃ i, nsList = s.pmm.page i ∧ ¬s.pmm.Free i
  ne : nsList ≠ 0

theorem Enumeration.Lists.alloc (h : s.Lists nsList list)
    (ha : pmmAllocPage s.pmm pageSize = (p, phys)) :
    phys ≠ nsList ∧ p.Sound ∧ ∃ i, nsList = p.page i ∧ ¬p.Free i := by
  obtain ⟨i, hi, hused⟩ := h.used
  rcases pmmAllocPage_page h.sound with ⟨j, hfree, halloc⟩ | ⟨-, halloc⟩
  · cases ha.symm.trans halloc
    refine ⟨fun heq => hused ?_, h.sound.take j, i, hi, fun hf => hused (Pmm.free_take_iff.mp hf).1⟩
    rwa [← Pmm.page_injective (heq.trans hi)]
  · cases ha.symm.trans halloc
    exact ⟨h.ne.symm, h.sound, i, hi, hused⟩

def described (nsid : Nat) (page : Mem) : NvmeDisk :=
  ⟨nsid, (nvmeIdNs page).lbaSize, nvmeIdNs page⟩

structure Enumeration.Adds (s s' : Enumeration) (nsid : Nat) (page : Option Mem) : Prop where
  sent : s'.sent.length = s.sent.length + 1
  touched : ∀ i, i ∈ s'.touched ↔ i ∈ s.touched ∨ i = wsub 32 nsid 1
  disks : s'.disks = s.disks ++ (page.map (described nsid)).toList

theorem initOne_spec (answer : Nat → Option Mem) (h : s.Lists nsList list) (nsid : Nat) :
    (initOne answer s nsid).Lists nsList list ∧
      s.Adds (initOne answer s nsid) nsid (answer s.sent.length) := by
  rcases ha : pmmAllocPage s.pmm pageSize with ⟨p, phys⟩
  obtain ⟨hne, hsound, hused⟩ := h.alloc ha
  cases hanswer : answer s.sent.length with
  | none =>
    simp only [initOne, nvmeIdentifyNamespace, ha, Enumeration.admin, Enumeration.touch, hanswer]
    exact ⟨⟨hsound, h.page, hused, h.ne⟩, by simp, by simp, by simp⟩
  | some page =>
    simp only [initOne, nvmeIdentifyNamespace, ha, Enumeration.admin, Enumeration.touch, hanswer,
      nvmeInitNamespace, Function.update_self, Function.update_idem]
    refine ⟨⟨hsound, ?_, hused, h.ne⟩, by simp, by simp, by simp [described]⟩
    simp [hne.symm, h.page]

-- ---------------------------------------------------------------------------
-- The whole list
-- ---------------------------------------------------------------------------

theorem initLoop_spec (answer : Nat → Option Mem) (h : s.Lists nsList list) (k i : Nat) :
    (∀ j, j ∈ (initLoop answer nsList k i s).touched ↔
        j ∈ s.touched ∨ ∃ id ∈ activeIds list k i, j = wsub 32 id 1) ∧
      ∀ d, d ∈ (initLoop answer nsList k i s).disks ↔ d ∈ s.disks ∨
        ∃ n id page, (activeIds list k i)[n]? = some id ∧ answer (s.sent.length + n) = some page ∧
          d = described id page := by
  induction k generalizing i s with
  | zero => simp [initLoop, activeIds]
  | succ k ih =>
    rw [initLoop, activeIds, h.page]
    split
    · simp
    · generalize list.load (4 * i) 4 = nsid
      obtain ⟨hlists, hadds⟩ := initOne_spec answer h nsid
      obtain ⟨htouched, hdisks⟩ := ih hlists (i + 1)
      refine ⟨fun j => ?_, fun d => ?_⟩
      · rw [htouched, hadds.touched]
        simp [or_assoc]
      · rw [hdisks, hadds.disks, hadds.sent]
        constructor
        · rintro (hd | ⟨n, id, page, hid, hpage, rfl⟩)
          · rcases List.mem_append.mp hd with hd | hd
            · exact .inl hd
            · simp only [Option.mem_toList, Option.map_eq_some_iff] at hd
              obtain ⟨page, hpage, rfl⟩ := hd
              exact .inr ⟨0, nsid, page, rfl, hpage, rfl⟩
          · exact .inr ⟨n + 1, id, page, hid, by rwa [Nat.add_right_comm] at hpage, rfl⟩
        · rintro (hd | ⟨n, id, page, hid, hpage, rfl⟩)
          · exact .inl (List.mem_append_left _ hd)
          · cases n with
            | zero =>
              cases hid
              refine .inl (List.mem_append_right _ ?_)
              simp [show answer s.sent.length = some page from hpage]
            | succ n => exact .inr ⟨n, id, page, hid, by rwa [Nat.add_right_comm], rfl⟩

theorem mem_activeIds (hid : nsid ∈ activeIds list k i) : 1 ≤ nsid ∧ nsid < 2 ^ 32 := by
  induction k generalizing i with
  | zero => cases hid
  | succ k ih =>
    rw [activeIds] at hid
    split at hid
    · cases hid
    · rename_i hne
      rcases List.mem_cons.mp hid with rfl | hid
      · exact ⟨Nat.one_le_iff_ne_zero.mpr hne, list.load_lt (4 * i) 4⟩
      · exact ih hid

theorem place_iff (hid : nsid ∈ activeIds list k i) : wsub 32 nsid 1 < 256 ↔ nsid ≤ 256 := by
  obtain ⟨hlo, hhi⟩ := mem_activeIds hid
  rw [wsub_eq hlo hhi]
  omega

def Enumeration.start (p : Pmm) (pages : Nat → Mem) (namespaces : Nat → NvmeNamespace) :
    Enumeration :=
  { pmm := p, pages, sent := [], namespaces, numNamespaces := 0, disks := [], touched := [] }

theorem nvmeInitNamespaces_none (p : Pmm) (pages : Nat → Mem) (namespaces : Nat → NvmeNamespace)
    (h : answer 0 = none) :
    (nvmeInitNamespaces answer (.start p pages namespaces)).2.touched = [] ∧
      (nvmeInitNamespaces answer (.start p pages namespaces)).2.disks = [] := by
  simp [nvmeInitNamespaces, Enumeration.start, Enumeration.admin, h]

theorem nvmeInitNamespaces_some (pages : Nat → Mem) (namespaces : Nat → NvmeNamespace)
    (hsound : p.Sound) (hfree : ∃ i, p.Free i) (h : answer 0 = some list) :
    (∀ i, i ∈ (nvmeInitNamespaces answer (.start p pages namespaces)).2.touched ↔
        ∃ id ∈ activeIds list 1024 0, i = wsub 32 id 1) ∧
      ∀ d, d ∈ (nvmeInitNamespaces answer (.start p pages namespaces)).2.disks ↔
        ∃ n id page, (activeIds list 1024 0)[n]? = some id ∧ answer (n + 1) = some page ∧
          d = described id page := by
  rcases pmmAllocPage_page hsound with ⟨i, hi, halloc⟩ | ⟨hnone, -⟩
  · rw [← pageSize] at halloc
    simp only [nvmeInitNamespaces, Enumeration.start, halloc, Enumeration.admin, List.length_nil, h,
      List.nil_append]
    generalize hs : Enumeration.mk .. = s
    have hlists : s.Lists (p.page i) list := by
      subst hs
      exact ⟨hsound.take i, Function.update_self ..,
        ⟨i, rfl, fun hf => (Pmm.free_take_iff.mp hf).2 rfl⟩, (hsound.address hi).2⟩
    obtain ⟨htouched, hdisks⟩ := initLoop_spec answer hlists 1024 0
    subst hs
    refine ⟨fun j => (htouched j).trans ?_, fun d => (hdisks d).trans ?_⟩
    · simp
    · simp [Nat.add_comm]
  · obtain ⟨i, hi⟩ := hfree
    exact absurd hi (hnone i)

/-- With a page for the list, the enumeration is proper exactly if the listed
namespaces have a place and the formats of the described ones are plain. -/
theorem enumerates_iff (hsound : p.Sound) (hfree : ∃ i, p.Free i) :
    (nvmeInitNamespaces answer (.start p pages namespaces)).2.Proper ↔
      ∀ list, answer 0 = some list → (∀ id ∈ activeIds list 1024 0, id ≤ 256) ∧
        ∀ n id page, (activeIds list 1024 0)[n]? = some id → answer (n + 1) = some page →
          (nvmeIdNs page).Plain := by
  cases h : answer 0 with
  | none =>
    obtain ⟨htouched, hdisks⟩ := nvmeInitNamespaces_none p pages namespaces h
    refine iff_of_true ⟨?_, ?_⟩ nofun
    · simp [htouched]
    · simp [hdisks]
  | some list =>
    obtain ⟨htouched, hdisks⟩ := nvmeInitNamespaces_some pages namespaces hsound hfree h
    constructor
    · rintro ⟨hplaces, hsizes⟩ _ ⟨⟩
      refine ⟨fun id hid => (place_iff hid).mp (hplaces _ ((htouched _).mpr ⟨id, hid, rfl⟩)),
        fun n id page hid hpage => (lbaSize_iff _).mp ?_⟩
      exact hsizes (described id page) ((hdisks _).mpr ⟨n, id, page, hid, hpage, rfl⟩)
    · intro hcond
      obtain ⟨hplaces, hsizes⟩ := hcond list rfl
      refine ⟨fun i hi => ?_, fun d hd => ?_⟩
      · obtain ⟨id, hid, hplace⟩ := (htouched i).mp hi
        rw [hplace]
        exact (place_iff hid).mpr (hplaces id hid)
      · obtain ⟨n, id, page, hid, hpage, rfl⟩ := (hdisks d).mp hd
        exact (lbaSize_iff (nvmeIdNs page)).mpr (hsizes n id page hid hpage)

end

def listOf (nsid : Nat) : Mem := Mem.store (fun _ => 0) 0 4 nsid

def identityOf (nlbaf ds : Nat) : Mem :=
  Mem.store (Mem.store (fun _ => 0) 25 1 nlbaf) 130 1 ds

def oneNamespace (nsid nlbaf ds : Nat) : Nat → Option Mem
  | 0 => some (listOf nsid)
  | _ => some (identityOf nlbaf ds)

abbrev enumerated (nsid nlbaf ds : Nat) : Enumeration :=
  (nvmeInitNamespaces (oneNamespace nsid nlbaf ds)
    (.start ⟨0x100000, 16, fun _ => 0⟩ (fun _ _ => 0) fun _ => ⟨0, 0, 0, false, 0⟩)).2

theorem sixteen_free : Pmm.Sound ⟨0x100000, 16, fun _ => 0⟩ ∧
    ∃ i, Pmm.Free ⟨0x100000, 16, fun _ => 0⟩ i :=
  ⟨⟨by decide, fun h => absurd h (by decide)⟩, 0, by decide, by decide⟩

theorem enumerates_iff_two_formats : (enumerated 1 1 12).Proper := by
  refine (enumerates_iff sixteen_free.1 sixteen_free.2).mpr fun list hlist => ?_
  cases hlist
  have hids : activeIds (listOf 1) 1024 0 = [1] := by decide +kernel
  rw [hids]
  refine ⟨by simp, fun n id page hid hpage => ?_⟩
  cases hpage
  exact ⟨fun _ => by decide +kernel, fun h => absurd h (by decide +kernel)⟩

/-- The only format of a disk with blocks of 4096 bytes is passed over, and
namespace 257 is behind the table. -/
theorem enumerates_wrongly : ¬(enumerated 1 0 12).Proper ∧ ¬(enumerated 257 1 9).Proper := by
  constructor
  · intro h
    have hlist : oneNamespace 1 0 12 0 = some (listOf 1) := rfl
    obtain ⟨-, hdisks⟩ := nvmeInitNamespaces_some (fun _ _ => 0) (fun _ => ⟨0, 0, 0, false, 0⟩)
      sixteen_free.1 sixteen_free.2 hlist
    have hids : (activeIds (listOf 1) 1024 0)[0]? = some 1 := by decide +kernel
    have hsize := h.sizes _ ((hdisks _).mpr ⟨0, 1, identityOf 0 12, hids, rfl, rfl⟩)
      (by decide +kernel)
    exact absurd hsize (by decide +kernel)
  · exact fun h => absurd (h.places 256 (by decide +kernel)) (by decide)

end TomatoOs.Drivers
