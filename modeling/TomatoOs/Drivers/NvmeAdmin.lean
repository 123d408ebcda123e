import TomatoOs.Drivers.Nvme
import TomatoOs.Lib.Runs

/-!
# The admin queue in use

Admin commands are submitted and waited for one at a time; the controller
answers when it likes, at most once for each command, and does not write over a
completion that was not taken. Every completion that is taken was posted, if no
slot of the queue's page started with the tag of the first pass.
-/

namespace TomatoOs.Drivers

open Lib Memory

/-- The limit and the time so far of a wait, the number of commands submitted,
and for each slot taken which completion was last written to it. -/
structure Admin where
  m : Machine
  ctrl : NvmeController
  waiting : Option (Nat × Nat)
  submitted : Nat
  posted : Posted
  accepted : List (Option Nat)

def Admin.start (m : Machine) (ctrl : NvmeController) : Admin := ⟨m, ctrl, none, 0, .empty, []⟩

inductive AdminOp
  | submit (cmd : NvmeCommand)
  | wait (timeoutMs : Nat)
  /-- one round of the loop in `nvme_wait_admin` -/
  | poll
  | post (c : NvmeCompletion)

def Admin.step (s : Admin) : AdminOp → Option Admin
  | .submit cmd =>
    if s.waiting.isNone then
      let (m, ctrl) := nvmeSubmitAdmin s.m s.ctrl cmd
      some { s with m, ctrl, submitted := s.submitted + 1 }
    else none
  | .wait timeoutMs =>
    if s.waiting.isNone then some { s with waiting := some (wmul 64 timeoutMs 1000, 0) } else none
  | .poll =>
    match s.waiting with
    | none => none
    | some (limit, elapsed) =>
      if elapsed < limit then
        match pollAdmin s.m s.ctrl with
        | none => some { s with waiting := some (limit, wadd 64 elapsed 10) }
        | some (_, m, ctrl) =>
          some { s with
            m, ctrl, waiting := none
            accepted := s.accepted ++ [s.posted.origin s.ctrl.adminCqHead] }
      else some { s with waiting := none }
  | .post c =>
    if s.posted.items.length < s.submitted ∧ s.posted.items.length < s.accepted.length + 64 then
      let (m, posted) := postCompletion s.m s.ctrl.adminCq.address s.posted c
      some { s with m, posted }
    else none

/-- Each slot was taken after the controller wrote it in the same pass, and no
completion was taken twice. -/
structure Admin.Genuine (s : Admin) : Prop where
  pass : ∀ a o, s.accepted[a]? = some o → ∃ j, o = some j ∧ j / 64 = a / 64
  once : s.accepted.Nodup

-- ---------------------------------------------------------------------------
-- The driver behind the controller
-- ---------------------------------------------------------------------------

/-- The driver has taken the first completions, each once, and is at most a
ring behind. -/
structure Admin.Synced (init : Nat → NvmeCompletion) (s : Admin) : Prop where
  ring : s.posted.Holds s.m s.ctrl.adminCq.address init
  head : s.ctrl.adminCqHead = s.accepted.length % 64
  phase : s.ctrl.adminPhase = PhaseRing.phase 64 s.accepted.length
  taken : s.accepted.length ≤ s.posted.items.length
  room : s.posted.items.length ≤ s.accepted.length + 64
  log : s.accepted = (List.range s.accepted.length).map some

theorem Admin.Synced.genuine {s : Admin} (h : s.Synced init) : s.Genuine := by
  refine ⟨fun a o ha => ?_, ?_⟩
  · have hlt : a < s.accepted.length := (List.getElem?_eq_some_iff.mp ha).1
    rw [h.log, List.getElem?_map, List.getElem?_range hlt] at ha
    exact ⟨a, (Option.some.inj ha).symm, rfl⟩
  · rw [h.log]
    exact List.nodup_range.map (Option.some_injective _)

theorem next_head (k : Nat) :
    (if wadd 64 (k % 64) 1 > 63 then 0 else wadd 64 (k % 64) 1) = (k + 1) % 64 ∧
      (wadd 64 (k % 64) 1 > 63 ↔ (k + 1) % 64 = 0) := by
  have hlt : k % 64 < 64 := Nat.mod_lt _ (by decide)
  rw [wadd_eq (by omega)]
  split_ifs <;> omega

theorem Admin.Synced.take {s : Admin} (h : s.Synced init)
    (hlt : s.accepted.length < s.posted.items.length) :
    ∃ ok m ctrl, pollAdmin s.m s.ctrl = some (ok, m, ctrl) ∧
      Admin.Synced init { s with
        m, ctrl, waiting := none, accepted := s.accepted ++ [s.posted.origin s.ctrl.adminCqHead] } := by
  obtain ⟨hslot, horigin, htag⟩ := h.ring.under (List.getElem?_eq_getElem hlt) h.room
  obtain ⟨hnext, hwrap⟩ := next_head s.accepted.length
  have hready : (s.m.completions s.ctrl.adminCq.address s.ctrl.adminCqHead).tag =
      s.ctrl.adminPhase := by
    rw [h.head, hslot, htag, h.phase]
  refine ⟨_, _, _, by rw [pollAdmin, if_pos hready], ?_⟩
  have hlen : (s.accepted ++ [s.posted.origin s.ctrl.adminCqHead]).length = s.accepted.length + 1 := by
    rw [List.length_append, List.length_singleton]
  refine ⟨h.ring, ?_, ?_, ?_, ?_, ?_⟩
  · rw [hlen, h.head]
    exact hnext
  · rw [hlen, PhaseRing.phase_succ, h.head, h.phase]
    simp only [hwrap]
  · rw [hlen]
    exact hlt
  · rw [hlen]
    have := h.room
    simp only
    omega
  · rw [hlen, List.range_succ, List.map_append, ← h.log, h.head, horigin]
    rfl

theorem Admin.Synced.post {s : Admin} (h : s.Synced init) (c : NvmeCompletion)
    (hroom : s.posted.items.length < s.accepted.length + 64) :
    Admin.Synced init { s with
      m := (postCompletion s.m s.ctrl.adminCq.address s.posted c).1
      posted := (postCompletion s.m s.ctrl.adminCq.address s.posted c).2 } := by
  have hlen := postCompletion_length s.m s.ctrl.adminCq.address s.posted c
  refine ⟨postCompletion_holds h.ring c, h.head, h.phase, ?_, ?_, h.log⟩
  · have := h.taken
    simp only [hlen]
    omega
  · simp only [hlen]
    omega

theorem Admin.Synced.submit {s : Admin} (h : s.Synced init) (cmd : NvmeCommand) (n : Nat) :
    Admin.Synced init { s with
      m := (nvmeSubmitAdmin s.m s.ctrl cmd).1, ctrl := (nvmeSubmitAdmin s.m s.ctrl cmd).2
      submitted := n } :=
  ⟨h.ring, h.head, h.phase, h.taken, h.room, h.log⟩

theorem Admin.Synced.wait {s : Admin} (h : s.Synced init) (w : Option (Nat × Nat)) :
    Admin.Synced init { s with waiting := w } :=
  ⟨h.ring, h.head, h.phase, h.taken, h.room, h.log⟩

theorem step_synced (hinit : ∀ i < 64, (init i).tag = 0) {s : Admin} (h : s.Synced init)
    (hs : s.step op = some t) : t.Synced init := by
  cases op with
  | submit cmd =>
    simp only [Admin.step] at hs
    split at hs
    · cases hs
      exact h.submit cmd _
    · cases hs
  | wait timeoutMs =>
    simp only [Admin.step] at hs
    split at hs
    · cases hs
      exact h.wait _
    · cases hs
  | poll =>
    simp only [Admin.step] at hs
    split at hs
    · cases hs
    split at hs
    · rcases Nat.lt_or_ge s.accepted.length s.posted.items.length with hlt | hge
      · obtain ⟨ok, m, ctrl, hpoll, hnext⟩ := h.take hlt
        rw [hpoll] at hs
        cases hs
        exact hnext
      · -- nothing is there, and the tag says so
        have hready := mt (h.ring.ready hinit h.taken h.room).mp (Nat.not_lt.mpr hge)
        rw [← h.head, ← h.phase] at hready
        rw [pollAdmin, if_neg hready] at hs
        cases hs
        exact h.wait _
    · cases hs
      exact h.wait _
  | post c =>
    simp only [Admin.step] at hs
    split at hs
    · rename_i hroom
      cases hs
      exact h.post c hroom.2
    · cases hs

-- ---------------------------------------------------------------------------
-- A slot that starts with the tag
-- ---------------------------------------------------------------------------

def answeredCommand : List AdminOp := [.submit .zero, .post .zero, .wait 1, .poll]

theorem answered_run {s : Admin} (h : s.Synced init) (hw : s.waiting = none)
    (ha : s.accepted.length = s.posted.items.length) (hn : s.submitted = s.posted.items.length) :
    ∃ t, run Admin.step s answeredCommand = some t ∧ t.Synced init ∧ t.waiting = none ∧
      t.accepted.length = t.posted.items.length ∧ t.submitted = t.posted.items.length ∧
      t.posted.items.length = s.posted.items.length + 1 := by
  have h1 := h.submit .zero (s.submitted + 1)
  have h2 := h1.post .zero (by
    simp only
    omega)
  have h3 := h2.wait (some (wmul 64 1 1000, 0))
  have hlen := postCompletion_length (nvmeSubmitAdmin s.m s.ctrl .zero).1
    (nvmeSubmitAdmin s.m s.ctrl .zero).2.adminCq.address s.posted .zero
  obtain ⟨ok, m, ctrl, hpoll, h4⟩ := h3.take (by
    simp only [hlen]
    omega)
  refine ⟨_, ?_, h4, rfl, ?_, ?_, hlen⟩
  · have hroom : s.posted.items.length < s.submitted + 1 ∧
        s.posted.items.length < s.accepted.length + 64 := by omega
    have hlimit : 0 < wmul 64 1 1000 := by decide
    simp only [answeredCommand, run, Admin.step, hw, Option.isNone_none, if_true, Option.bind_some,
      hroom, and_self, hlimit]
    simp only at hpoll
    rw [hpoll]
    rfl
  · simp only [List.length_append, List.length_singleton, hlen]
    omega
  · simp only [hlen]
    omega

theorem answered_runs (init : Nat → NvmeCompletion) {s : Admin} (h : s.Synced init)
    (hw : s.waiting = none) (hs : s.accepted = []) (hp : s.posted.items = []) (hn : s.submitted = 0)
    (k : Nat) :
    ∃ ops t, run Admin.step s ops = some t ∧ t.Synced init ∧ t.waiting = none ∧
      t.accepted.length = k ∧ t.posted.items.length = k ∧ t.submitted = k := by
  induction k with
  | zero => exact ⟨[], s, rfl, h, hw, by rw [hs]; rfl, by rw [hp]; rfl, hn⟩
  | succ k ih =>
    obtain ⟨ops, t, hr, ht, htw, hta, htp, htn⟩ := ih
    obtain ⟨u, hu, husync, huw, hua, hun, hup⟩ :=
      answered_run ht htw (hta.trans htp.symm) (htn.trans htp.symm)
    exact ⟨ops ++ answeredCommand, u, run_append.mpr ⟨t, hr, hu⟩, husync, huw, by omega, by omega,
      by omega⟩

theorem pollAdmin_ready (h : (m.completions c.adminCq.address c.adminCqHead).tag = c.adminPhase) :
    ∃ ok m' c', pollAdmin m c = some (ok, m', c') :=
  ⟨_, _, _, if_pos h⟩

/-- A poll under a slot that has the tag and was not written yet takes it. -/
theorem stale_accepted {s : Admin} (h : s.Synced init) (hw : s.waiting = none)
    (ha : s.accepted.length = k) (hp : s.posted.items.length = k) (hk : k < 64)
    (htag : (init k).tag = 1) :
    ∃ t, run Admin.step s [.submit .zero, .wait 1, .poll] = some t ∧
      t.accepted = s.accepted ++ [none] := by
  obtain ⟨hslot, horigin⟩ := h.ring.beyond hk (Nat.le_of_eq hp)
  have hhead : s.ctrl.adminCqHead = k := by
    rw [h.head, ha, Nat.mod_eq_of_lt hk]
  have hready : (s.m.completions s.ctrl.adminCq.address s.ctrl.adminCqHead).tag =
      s.ctrl.adminPhase := by
    rw [hhead, hslot, htag, h.phase, ha, PhaseRing.phase_first hk]
  have hlimit : 0 < wmul 64 1 1000 := by decide
  -- the submission changes nothing that the poll looks at
  obtain ⟨ok, m, ctrl, hpoll⟩ := pollAdmin_ready (m := (nvmeSubmitAdmin s.m s.ctrl .zero).1)
    (c := (nvmeSubmitAdmin s.m s.ctrl .zero).2) hready
  refine ⟨⟨m, ctrl, none, s.submitted + 1, s.posted, s.accepted ++ [none]⟩, ?_, rfl⟩
  simp only [run, Admin.step, hw, Option.isNone_none, if_true, Option.bind_some, hlimit]
  rw [hpoll, ← horigin, ← hhead]
  rfl

theorem nvmeInit_some (h : nvmeInit m hhdm pciBar0 pciBar1 progIf cap vs = some (m', ctrl)) :
    m'.completions = m.completions ∧ ctrl.adminCqHead = 0 ∧ ctrl.adminPhase = 1 := by
  simp only [nvmeInit] at h
  split_ifs at h
  cases h
  exact ⟨rfl, rfl, rfl⟩

theorem pmmAllocPage_granted (hs : p.Sound) (hne : (pmmAllocPage p 4096).2 ≠ 0) :
    ∃ i, p.Free i ∧ pmmAllocPage p 4096 = (p.take i, p.page i) := by
  rcases pmmAllocPage_page hs with h | ⟨-, h⟩
  · exact h
  · rw [h] at hne
    exact absurd rfl hne

theorem nvmeInit_pages (hs : m.pmm.Sound)
    (h : nvmeInit m hhdm pciBar0 pciBar1 progIf cap vs = some (m', ctrl))
    (hsq : ctrl.adminSq.address ≠ 0) (hcq : ctrl.adminCq.address ≠ 0) :
    ∃ i j, i ≠ j ∧ ctrl.adminSq.address = m.pmm.page i ∧ ctrl.adminCq.address = m.pmm.page j ∧
      (Pmm.draw^[m'.tables.calls - m.tables.calls] m.pmm).Free i ∧
      (Pmm.draw^[m'.tables.calls - m.tables.calls] m.pmm).Free j := by
  simp only [nvmeInit] at h
  split_ifs at h
  cases h
  dsimp only [Machine.mapPage, Machine.writeRegister] at hsq hcq ⊢
  generalize (mapPage (fun k => m.pmm.drawn (k - m.tables.calls)) m.tables
    (wadd 64 hhdm (pciBar1 <<< 32 ||| pciBar0 &&& 0xFFFFFFF0))
    (pciBar1 <<< 32 ||| pciBar0 &&& 0xFFFFFFF0) (1 ||| 2 ||| 16) 4).calls - m.tables.calls = n at *
  obtain ⟨hsound, hbase, -⟩ := hs.draws n
  obtain ⟨i, hi, ha⟩ := pmmAllocPage_granted hsound hsq
  rw [ha] at hcq ⊢
  obtain ⟨j, hj, hb⟩ := pmmAllocPage_granted (hsound.take i) hcq
  rw [hb]
  obtain ⟨hj, hne⟩ := Pmm.free_take_iff.mp hj
  refine ⟨i, j, hne, ?_, ?_, hi, hj⟩
  · rw [Pmm.page, hbase, Pmm.page]
  · show (Pmm.draw^[n] m.pmm).base + j * blockSize = m.pmm.base + j * blockSize
    rw [hbase]

/-- After `nvme_init` with pages for both queues, which are two pages and no tables, every
completion taken in any run is genuine exactly if no slot of the page held the tag of the
first pass. -/
theorem admin_genuine_iff (hs : m.pmm.Sound)
    (h : nvmeInit m hhdm pciBar0 pciBar1 progIf cap vs = some (m', ctrl))
    (hsq : ctrl.adminSq.address ≠ 0) (hcq : ctrl.adminCq.address ≠ 0) :
    ctrl.adminSq.address ≠ ctrl.adminCq.address ∧
      (∀ k < m'.tables.calls - m.tables.calls,
        m.pmm.drawn k ≠ ctrl.adminSq.address ∧ m.pmm.drawn k ≠ ctrl.adminCq.address) ∧
      ((∀ ops t, run Admin.step (.start m' ctrl) ops = some t → t.Genuine) ↔
        ∀ i < 64, (m.completions ctrl.adminCq.address i).status % 2 = 0) := by
  obtain ⟨i, j, hne, hi, hj, hfi, hfj⟩ := nvmeInit_pages hs h hsq hcq
  obtain ⟨-, -, hfree⟩ := hs.draws (m'.tables.calls - m.tables.calls)
  refine ⟨fun he => hne (Pmm.page_injective (hi ▸ hj ▸ he)), fun k hk => ?_, ?_⟩
  · rw [hi, hj]
    exact ⟨(hfree i hfi).2 k hk, (hfree j hfj).2 k hk⟩
  obtain ⟨hmem, hhead, hphase⟩ := nvmeInit_some h
  have hstart : (Admin.start m' ctrl).Synced (m.completions ctrl.adminCq.address) := by
    refine ⟨?_, hhead, hphase.trans (PhaseRing.phase_first (Nat.zero_lt_succ 63)).symm,
      Nat.le_refl 0, Nat.zero_le _, rfl⟩
    rw [← hmem]
    exact posted_empty m' ctrl.adminCq.address
  constructor
  · intro hall i hi
    by_contra hne
    have htag : (m.completions ctrl.adminCq.address i).tag = 1 := Nat.mod_two_ne_zero.mp hne
    obtain ⟨ops, s, hr, hs, hw, ha, hp, hn⟩ := answered_runs _ hstart rfl rfl rfl rfl i
    obtain ⟨t, ht, hacc⟩ := stale_accepted hs hw ha hp hi htag
    have hgen := hall (ops ++ [.submit .zero, .wait 1, .poll]) t (run_append.mpr ⟨s, hr, ht⟩)
    obtain ⟨j, hj, -⟩ := hgen.pass i none (by rw [hacc, ← ha, List.getElem?_concat_length])
    cases hj
  · intro hinit ops t hr
    exact (run_invariant (Admin.Synced (m.completions ctrl.adminCq.address))
      (fun _ _ _ hs hstep => step_synced hinit hs hstep) hstart hr).genuine

abbrev initUsed (c : NvmeCompletion) : Option (Machine × NvmeController) :=
  nvmeInit (idleMachine c) 0xFFFF800000000000 0xF0000004 0 0x02 (2 ^ 37 + 63) 0x00010400

/-- Three pages go to `map_page` before the queues get theirs. -/
theorem admin_genuine_zeroed : ∃ m ctrl, initUsed .zero = some (m, ctrl) ∧
    ctrl.adminSq.address = 0x103000 ∧ ctrl.adminCq.address = 0x104000 ∧
    ∀ ops t, run Admin.step (.start m ctrl) ops = some t → t.Genuine := by
  have hpages : (initUsed .zero).map (fun r => (r.2.adminSq.address, r.2.adminCq.address)) =
      some (0x103000, 0x104000) := by decide +kernel
  obtain ⟨⟨m, ctrl⟩, h, haddr⟩ := Option.map_eq_some_iff.mp hpages
  obtain ⟨hsq, hcq⟩ := Prod.mk.inj haddr
  have hsound : (idleMachine .zero).pmm.Sound := ⟨by decide, fun h => absurd h (by decide)⟩
  have hall := (admin_genuine_iff hsound h (by rw [hsq]; decide) (by rw [hcq]; decide)).2.2
  exact ⟨m, ctrl, h, hsq, hcq, hall.mpr fun _ _ => rfl⟩

/-- On a page full of ones the first wait ends before the controller has done
anything. -/
theorem stale_completion : ∃ m ctrl t,
    initUsed { status := 1 } = some (m, ctrl) ∧
      run Admin.step (.start m ctrl) [.submit .zero, .wait 1000, .poll] = some t ∧
      t.posted.items = [] ∧ t.accepted = [none] ∧ ¬t.Genuine := by
  refine ⟨_, _, _, rfl, rfl, rfl, rfl, fun hgen => ?_⟩
  obtain ⟨j, hj, -⟩ := hgen.pass 0 none rfl
  cases hj

end TomatoOs.Drivers
