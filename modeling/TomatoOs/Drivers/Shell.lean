import TomatoOs.Lib.Strings

/-!
# The command line

`run_line` cuts a line into words where it stands: it puts a NUL over every space
in front of a word, so that the word before ends there. The sixteenth word is the
last that `argv` has room for, and nothing is put behind it: it goes on to the end
of the line.
-/

namespace TomatoOs.Drivers

open Lib

def isSpace (c : Byte) : Bool := c = 0x20#8

-- ---------------------------------------------------------------------------
-- run_line
-- ---------------------------------------------------------------------------

/-- `sizeof(line)`; an inner loop that gets further has left the line. -/
def lineSize : Nat := 100

/-- `while (*s == ' ') *s++ = '\0';` -/
def skipSpaces : Nat → Mem → Nat → Option (Mem × Nat)
  | 0, _, _ => none
  | fuel + 1, m, s =>
    if isSpace (m s) then skipSpaces fuel (m.put s 0) (s + 1) else some (m, s)

/-- `while (*s && *s != ' ') s++;` -/
def skipWord : Nat → Mem → Nat → Option Nat
  | 0, _, _ => none
  | fuel + 1, m, s =>
    if m s ≠ 0 ∧ isSpace (m s) = false then skipWord fuel m (s + 1) else some s

/-- The outer loop, with so many places left in `argv`: the memory afterwards and
the pointers it adds. -/
def splitLine : Nat → Mem → Nat → Option (Mem × List Nat)
  | 0, m, _ => some (m, [])
  | slots + 1, m, s =>
    if m s = 0 then some (m, [])
    else do
      let (m, s) ← skipSpaces lineSize m s
      if m s = 0 then some (m, [])
      else do
        let next ← skipWord lineSize m s
        let (m, argv) ← splitLine slots m next
        some (m, s :: argv)

inductive Command
  | clear
  | reboot
  | shutdown
  | ls
  | help
deriving DecidableEq

def Command.name : Command → List Byte
  | .clear => ['c', 'l', 'e', 'a', 'r'].map fun c => BitVec.ofNat 8 c.toNat
  | .reboot => ['r', 'e', 'b', 'o', 'o', 't'].map fun c => BitVec.ofNat 8 c.toNat
  | .shutdown => ['s', 'h', 'u', 't', 'd', 'o', 'w', 'n'].map fun c => BitVec.ofNat 8 c.toNat
  | .ls => ['l', 's'].map fun c => BitVec.ofNat 8 c.toNat
  | .help => ['h', 'e', 'l', 'p'].map fun c => BitVec.ofNat 8 c.toNat

def commands : List Command := [.clear, .reboot, .shutdown, .ls, .help]

def strcmp (m : Mem) : Nat → List Byte → Int
  | s1, [] => (m s1).toNat
  | s1, c :: s2 =>
    if m s1 ≠ 0 ∧ m s1 = c then strcmp m (s1 + 1) s2 else (m s1).toNat - c.toNat

inductive Dispatch
  | nothing
  | call (c : Command)
  | unknown (name : Nat)
deriving DecidableEq

def dispatch (m : Mem) : List Nat → Dispatch
  | [] => .nothing
  | argv0 :: _ =>
    match commands.find? fun c => strcmp m argv0 c.name = 0 with
    | some c => .call c
    | none => .unknown argv0

/-- The memory and `argv` at the dispatch, and where it goes. -/
structure RanLine where
  mem : Mem
  argv : List Nat
  dispatch : Dispatch

def runLine (m : Mem) (s : Nat) : Option RanLine :=
  (splitLine 16 m s).map fun r => { mem := r.1, argv := r.2, dispatch := dispatch r.1 r.2 }

-- ---------------------------------------------------------------------------
-- The strings in argv
-- ---------------------------------------------------------------------------

def lineWords (text : List Byte) : List (Nat × List Byte) := runsFrom isSpace 0 text

def firstWord (text : List Byte) : List Byte := (text.dropWhile isSpace).takeWhile fun c => !isSpace c

def afterWord (text : List Byte) : List Byte := (text.dropWhile isSpace).dropWhile fun c => !isSpace c

/-- The strings that `argv` gets in so many places. The last one goes on to the end of
the line. -/
def argvStrings : Nat → Nat → List Byte → List (Nat × List Byte)
  | 0, _, _ => []
  | slots + 1, off, text =>
    let start := off + (text.takeWhile isSpace).length
    if text.dropWhile isSpace = [] then []
    else if slots = 0 then [(start, text.dropWhile isSpace)]
    else (start, firstWord text) ::
      argvStrings slots (start + (firstWord text).length) (afterWord text)

def Points (base : Nat) (m : Mem) (argv : List Nat) (strings : List (Nat × List Byte)) : Prop :=
  List.Forall₂ (fun ptr r => ptr = base + r.1 ∧ CString m ptr r.2) argv strings

section
variable {m m' : Mem} {s fuel : Nat} {text : List Byte}

theorem isSpace_zero : isSpace 0#8 = false := by decide

theorem skipSpaces_spec (h : CString m s text) (hf : text.length < fuel) :
    ∃ m', skipSpaces fuel m s = some (m', s + (text.takeWhile isSpace).length) ∧
      CString m' (s + (text.takeWhile isSpace).length) (text.dropWhile isSpace) ∧
      (∀ x < s, m' x = m x) ∧ (∀ c ∈ text.head?, isSpace c = true → m' s = 0) := by
  induction text generalizing fuel m s with
  | nil =>
    obtain ⟨fuel, rfl⟩ := Nat.exists_eq_add_one_of_ne_zero (by omega : fuel ≠ 0)
    have hnul : m s = 0 := h
    refine ⟨m, ?_, h, fun _ _ => rfl, by simp⟩
    simp [skipSpaces, hnul, isSpace_zero]
  | cons c text ih =>
    obtain ⟨fuel, rfl⟩ := Nat.exists_eq_add_one_of_ne_zero (by omega : fuel ≠ 0)
    cases hc : isSpace c with
    | true =>
      have hput : CString (m.put s 0) (s + 1) text :=
        h.2.2.congr fun x hx => if_neg (by have := hx.1; omega)
      obtain ⟨m', hskip, hrest, hframe, -⟩ := ih hput (by simpa using hf)
      refine ⟨m', ?_, ?_, fun x hx => ?_, fun _ _ _ => ?_⟩
      · rw [skipSpaces, h.2.1, hc, if_pos rfl, hskip, List.takeWhile_cons_of_pos hc,
          List.length_cons, Nat.add_assoc, Nat.add_comm 1]
      · rw [List.takeWhile_cons_of_pos hc, List.dropWhile_cons_of_pos hc, List.length_cons,
          Nat.add_comm _ 1, ← Nat.add_assoc]
        exact hrest
      · rw [hframe x (by omega)]
        exact if_neg (by omega)
      · rw [hframe s (by omega)]
        exact if_pos rfl
    | false =>
      have hneg : ¬isSpace c = true := by simp [hc]
      refine ⟨m, ?_, ?_, fun _ _ => rfl, ?_⟩
      · rw [skipSpaces, h.2.1, hc, List.takeWhile_cons_of_neg hneg]
        rfl
      · rw [List.takeWhile_cons_of_neg hneg, List.dropWhile_cons_of_neg hneg]
        exact h
      · rintro d ⟨rfl⟩ hd
        exact absurd hd hneg

theorem skipWord_spec (h : CString m s text) (hf : text.length < fuel) :
    skipWord fuel m s = some (s + (text.takeWhile fun c => !isSpace c).length) := by
  induction text generalizing fuel s with
  | nil =>
    obtain ⟨fuel, rfl⟩ := Nat.exists_eq_add_one_of_ne_zero (by omega : fuel ≠ 0)
    have hnul : m s = 0 := h
    simp [skipWord, hnul]
  | cons c text ih =>
    obtain ⟨fuel, rfl⟩ := Nat.exists_eq_add_one_of_ne_zero (by omega : fuel ≠ 0)
    rw [skipWord, h.2.1]
    cases hc : isSpace c with
    | true => simp [hc]
    | false =>
      rw [if_pos ⟨h.1, rfl⟩, ih h.2.2 (by simpa using hf), List.takeWhile_cons_of_pos (by simp [hc]),
        List.length_cons, Nat.add_assoc, Nat.add_comm 1]

theorem firstWord_append (text : List Byte) :
    firstWord text ++ afterWord text = text.dropWhile isSpace :=
  List.takeWhile_append_dropWhile

theorem afterWord_head (text : List Byte) : ∀ c ∈ (afterWord text).head?, isSpace c = true := by
  intro c hc
  simpa using dropWhile_head (fun c => !isSpace c) (text.dropWhile isSpace) c hc

theorem takeWhile_space_pos (hne : text ≠ []) (hhead : ∀ c ∈ text.head?, isSpace c = true) :
    0 < (text.takeWhile isSpace).length := by
  obtain ⟨c, t, rfl⟩ := List.exists_cons_of_ne_nil hne
  rw [List.takeWhile_cons_of_pos (hhead c rfl)]
  exact Nat.succ_pos _

theorem splitLine_blank (hchar : m s ≠ 0) (hskip : skipSpaces lineSize m s = some (m₁, s₁))
    (hnul : m₁ s₁ = 0) : splitLine (slots + 1) m s = some (m₁, []) := by
  simp only [splitLine, if_neg hchar, hskip, Option.bind_eq_bind, Option.bind_some, if_pos hnul]

theorem splitLine_word (hchar : m s ≠ 0) (hskip : skipSpaces lineSize m s = some (m₁, s₁))
    (hstart : m₁ s₁ ≠ 0) (hword : skipWord lineSize m₁ s₁ = some next)
    (hrec : splitLine slots m₁ next = some (m', argv)) :
    splitLine (slots + 1) m s = some (m', s₁ :: argv) := by
  simp only [splitLine, if_neg hchar, hskip, Option.bind_eq_bind, Option.bind_some, if_neg hstart,
    hword, hrec]

/-- `splitLine` cuts the line into these strings and leaves what is before it. If it
has a place left it ends a string that was open in front of the line. -/
theorem splitLine_spec {base off : Nat} (slots : Nat) (h : CString m (base + off) text)
    (hlen : text.length < lineSize) :
    ∃ m' argv, splitLine slots m (base + off) = some (m', argv) ∧
      Points base m' argv (argvStrings slots off text) ∧ (∀ x < base + off, m' x = m x) ∧
      (slots = 0 → m' = m) ∧
      (slots ≠ 0 → (∀ c ∈ text.head?, isSpace c = true) → m' (base + off) = 0) := by
  induction slots generalizing m off text with
  | zero => exact ⟨m, [], rfl, .nil, fun _ _ => rfl, fun _ => rfl, fun h0 => absurd rfl h0⟩
  | succ slots ih =>
    by_cases hempty : text = []
    · subst hempty
      have hnul : m (base + off) = 0 := h
      refine ⟨m, [], by simp [splitLine, hnul], ?_, fun _ _ => rfl, fun _ => rfl, fun _ _ => hnul⟩
      simp [argvStrings, Points]
    have hchar : m (base + off) ≠ 0 := by
      obtain ⟨c, t, rfl⟩ := List.exists_cons_of_ne_nil hempty
      rw [h.2.1]
      exact h.1
    obtain ⟨m₁, hskip, hline, hframe, hfirst⟩ := skipSpaces_spec h hlen
    have hfirst' : (∀ c ∈ text.head?, isSpace c = true) → m₁ (base + off) = 0 := fun hhead => by
      obtain ⟨c, t, rfl⟩ := List.exists_cons_of_ne_nil hempty
      exact hfirst c rfl (hhead c rfl)
    rw [Nat.add_assoc] at hskip hline
    generalize hoff : off + (text.takeWhile isSpace).length = off₁ at hskip hline
    by_cases hblank : text.dropWhile isSpace = []
    · rw [hblank] at hline
      have hnul : m₁ (base + off₁) = 0 := hline
      refine ⟨m₁, [], splitLine_blank hchar hskip hnul, ?_, hframe,
        fun h0 => absurd h0 (Nat.succ_ne_zero _), fun _ => hfirst'⟩
      simp [argvStrings, Points, hblank]
    -- the word, and what is behind it
    have hstart : m₁ (base + off₁) ≠ 0 := by
      obtain ⟨c, t, hct⟩ := List.exists_cons_of_ne_nil hblank
      rw [hct] at hline
      rw [hline.2.1]
      exact hline.1
    have hlen₁ : (text.dropWhile isSpace).length < lineSize :=
      (List.length_dropWhile_le isSpace text).trans_lt hlen
    have hword : skipWord lineSize m₁ (base + off₁) = some (base + off₁ + (firstWord text).length) :=
      skipWord_spec hline hlen₁
    rw [← firstWord_append] at hline
    have hrest := hline.append
    rw [Nat.add_assoc] at hword hrest
    obtain ⟨m', argv, hrec, hpoints, hframe', hzero, hnul⟩ := ih hrest
      ((List.length_dropWhile_le _ _).trans_lt hlen₁)
    refine ⟨m', (base + off₁) :: argv, ?_, ?_, fun x hx => ?_,
      fun h0 => absurd h0 (Nat.succ_ne_zero _), fun _ hhead => ?_⟩
    · exact splitLine_word hchar hskip hstart hword hrec
    · simp only [argvStrings, hoff, hblank, if_false]
      by_cases hslots : slots = 0
      · subst hslots
        rw [hzero rfl] at hpoints ⊢
        rw [if_pos rfl, ← firstWord_append]
        exact .cons ⟨rfl, hline⟩ hpoints
      · rw [if_neg hslots]
        refine .cons ⟨rfl, hline.cut (fun x hx => hframe' x ?_) ?_⟩ hpoints
        · have := hx.2
          omega
        · rw [Nat.add_assoc]
          exact hnul hslots (afterWord_head text)
    · rw [hframe' x (by omega), hframe x hx]
    · have := takeWhile_space_pos hempty hhead
      rw [hframe' _ (by omega), hfirst' hhead]

-- ---------------------------------------------------------------------------
-- The words of the line
-- ---------------------------------------------------------------------------

theorem points_unique {base : Nat} {argv : List Nat} {xs ys : List (Nat × List Byte)}
    (hx : Points base m argv xs) (hy : Points base m argv ys) : xs = ys := by
  refine List.right_unique_forall₂' (fun ptr x y hx hy => Prod.ext ?_ ?_) hx hy
  · have := hx.1.symm.trans hy.1
    omega
  · exact hx.2.unique hy.2

theorem words_cons (off : Nat) (hne : text.dropWhile isSpace ≠ []) :
    runsFrom isSpace off text =
      (off + (text.takeWhile isSpace).length, firstWord text) ::
        runsFrom isSpace (off + (text.takeWhile isSpace).length + (firstWord text).length)
          (afterWord text) :=
  runsFrom_cons off hne

theorem argvStrings_cons (off : Nat) (hne : text.dropWhile isSpace ≠ []) (hslots : slots ≠ 0) :
    argvStrings (slots + 1) off text =
      (off + (text.takeWhile isSpace).length, firstWord text) ::
        argvStrings slots (off + (text.takeWhile isSpace).length + (firstWord text).length)
          (afterWord text) := by
  simp only [argvStrings, hne, hslots, if_false]

theorem getLast_afterWord (hrest : afterWord text ≠ []) :
    text.getLast? = (afterWord text).getLast? := by
  have hsplit : text.takeWhile isSpace ++ (firstWord text ++ afterWord text) = text := by
    rw [firstWord_append]
    exact List.takeWhile_append_dropWhile
  rw [← List.getLast?_append_of_ne_nil (text.takeWhile isSpace ++ firstWord text) hrest,
    List.append_assoc, hsplit]

theorem getLast_firstWord (hne : text.dropWhile isSpace ≠ []) (hrest : afterWord text = []) :
    ∀ c ∈ text.getLast?, isSpace c = false := by
  have hword : firstWord text = text.dropWhile isSpace := by
    rw [← firstWord_append, hrest, List.append_nil]
  have hlast : text.getLast? = (firstWord text).getLast? := by
    rw [hword, ← List.getLast?_append_of_ne_nil (text.takeWhile isSpace) hne,
      List.takeWhile_append_dropWhile]
  intro c hc
  rw [hlast] at hc
  simpa using List.mem_takeWhile_imp (List.mem_of_getLast? hc)

/-- `argv` has the words if there are fewer than it has places, or as many and the line
ends with the last. -/
theorem argvStrings_iff (slots off : Nat) (text : List Byte) :
    argvStrings (slots + 1) off text = (runsFrom isSpace off text).take (slots + 1) ↔
      (runsFrom isSpace off text).length < slots + 1 ∨
        (runsFrom isSpace off text).length = slots + 1 ∧
          ∀ c ∈ text.getLast?, isSpace c = false := by
  induction slots generalizing off text with
  | zero =>
    by_cases hblank : text.dropWhile isSpace = []
    · rw [runsFrom_dropWhile, hblank, argvStrings]
      simp [hblank, runsFrom_nil]
    rw [words_cons off hblank]
    simp only [argvStrings, hblank, if_false, if_true, List.take_succ_cons, List.take_zero,
      List.length_cons, List.cons.injEq, Prod.mk.injEq, and_true, true_and]
    constructor
    · intro hword
      have hrest : afterWord text = [] := by
        rw [← firstWord_append] at hword
        exact List.append_right_eq_self.mp hword
      rw [hrest]
      exact .inr ⟨rfl, getLast_firstWord hblank hrest⟩
    · rintro (h0 | ⟨hone, hlast⟩)
      · omega
      by_contra hword
      have hrest : afterWord text ≠ [] := fun hrest => hword (by
        rw [← firstWord_append, hrest, List.append_nil])
      have hspaces := runsFrom_eq_nil.mp (List.length_eq_zero_iff.mp (Nat.succ.inj hone))
      obtain ⟨c, hc⟩ := Option.ne_none_iff_exists'.mp (mt List.getLast?_eq_none_iff.mp hrest)
      have hspace := hspaces c (List.mem_of_getLast? hc)
      rw [getLast_afterWord hrest] at hlast
      rw [hlast c hc] at hspace
      cases hspace
  | succ slots ih =>
    by_cases hblank : text.dropWhile isSpace = []
    · rw [runsFrom_dropWhile, hblank, argvStrings]
      simp [hblank, runsFrom_nil]
    rw [words_cons off hblank, argvStrings_cons off hblank (Nat.succ_ne_zero slots),
      List.take_succ_cons, List.cons_inj_right, ih, List.length_cons]
    refine or_congr (by omega) ?_
    rw [Nat.succ_inj]
    refine and_congr_right fun hfull => ?_
    have hrest : afterWord text ≠ [] := fun hrest => by
      rw [hrest, runsFrom_nil] at hfull
      exact absurd hfull (Nat.succ_ne_zero slots).symm
    rw [getLast_afterWord hrest]

theorem runLine_points (h : CString m s text) (hlen : text.length ≤ 99) :
    ∃ r, runLine m s = some r ∧ Points s r.mem r.argv (argvStrings 16 0 text) ∧
      r.dispatch = dispatch r.mem r.argv := by
  have hstart : CString m (s + 0) text := h
  obtain ⟨m', argv, hsplit, hpoints, -⟩ := splitLine_spec 16 hstart (Nat.lt_succ_of_le hlen)
  rw [Nat.add_zero] at hsplit
  exact ⟨_, by rw [runLine, hsplit]; rfl, hpoints, rfl⟩

theorem strcmp_eq_zero {name word : List Byte} (hname : ∀ c ∈ name, c ≠ 0)
    (h : CString m s word) : strcmp m s name = 0 ↔ word = name := by
  induction name generalizing s word with
  | nil =>
    cases word with
    | nil =>
      have hnul : m s = 0 := h
      simp [strcmp, hnul]
    | cons d word =>
      have hd : d.toNat ≠ 0 := fun h0 => h.1 (BitVec.eq_of_toNat_eq h0)
      simp [strcmp, h.2.1, hd]
  | cons c name ih =>
    have hc : c.toNat ≠ 0 := fun h0 => hname c List.mem_cons_self (BitVec.eq_of_toNat_eq h0)
    have hrest : ∀ d ∈ name, d ≠ 0 := fun d hd => hname d (List.mem_cons_of_mem c hd)
    cases word with
    | nil =>
      have hnul : m s = 0 := h
      rw [strcmp, if_neg (fun h0 => h0.1 hnul), hnul]
      simpa using hc
    | cons d word =>
      rw [strcmp, h.2.1]
      by_cases hd : d = c
      · rw [if_pos ⟨h.1, hd⟩, ih hrest h.2.2, hd, List.cons_inj_right]
      · rw [if_neg fun h0 => hd h0.2]
        refine iff_of_false (fun h0 => hd (BitVec.eq_of_toNat_eq (by omega))) fun h0 => ?_
        exact hd (List.cons.inj h0).1

theorem Command.name_nonzero (c : Command) : ∀ b ∈ c.name, b ≠ 0 := by
  cases c <;> simp [Command.name]

def named (base : Nat) : List (Nat × List Byte) → Dispatch
  | [] => .nothing
  | word :: _ => (commands.find? fun c => c.name = word.2).elim (.unknown (base + word.1)) .call

/-- The first word says where a line goes, however long the line is. -/
theorem runLine_dispatch (h : CString m s text) (hlen : text.length ≤ 99) :
    ∃ r, runLine m s = some r ∧ r.dispatch = named s (lineWords text) := by
  obtain ⟨r, hr, hpoints, hdispatch⟩ := runLine_points h hlen
  refine ⟨r, hr, ?_⟩
  rw [hdispatch, lineWords]
  by_cases hblank : text.dropWhile isSpace = []
  · rw [runsFrom_dropWhile, hblank, runsFrom_nil]
    simp only [argvStrings, hblank, if_true] at hpoints
    rw [List.forall₂_nil_right_iff.mp hpoints]
    rfl
  · rw [argvStrings_cons 0 hblank (by decide)] at hpoints
    rw [words_cons 0 hblank]
    cases hargv : r.argv with
    | nil => simp [Points, hargv] at hpoints
    | cons ptr argv =>
      rw [hargv] at hpoints
      obtain ⟨⟨rfl, hword⟩, -⟩ := List.forall₂_cons.mp hpoints
      have hsame : (fun c : Command => decide (strcmp r.mem (s + (0 + (text.takeWhile isSpace).length))
          c.name = 0)) = fun c : Command => decide (c.name = firstWord text) := by
        funext c
        rw [decide_eq_decide, strcmp_eq_zero c.name_nonzero hword, eq_comm]
      simp only [dispatch, named, hsame]
      cases commands.find? fun c => decide (c.name = firstWord text) <;> rfl

theorem runLine_argv_iff (h : CString m s text) (hlen : text.length ≤ 99) :
    ∃ r, runLine m s = some r ∧
      (Points s r.mem r.argv ((lineWords text).take 16) ↔
        (lineWords text).length < 16 ∨
          (lineWords text).length = 16 ∧ ∀ c ∈ text.getLast?, isSpace c = false) := by
  obtain ⟨r, hr, hpoints, -⟩ := runLine_points h hlen
  refine ⟨r, hr, Iff.trans ?_ (argvStrings_iff 15 0 text)⟩
  constructor
  · exact fun hwords => points_unique hpoints hwords
  · intro he
    rw [lineWords, ← he]
    exact hpoints

theorem runLine_argv_iff_ls :
    ∃ r, runLine (fun x => [0x6C#8, 0x73#8, 0x20#8, 0x61#8].getD x 0) 0 = some r ∧
      Points 0 r.mem r.argv [(0, [0x6C#8, 0x73#8]), (3, [0x61#8])] := by
  have hline : CString (fun x => [0x6C#8, 0x73#8, 0x20#8, 0x61#8].getD x 0) 0
      [0x6C#8, 0x73#8, 0x20#8, 0x61#8] := by decide
  obtain ⟨r, hr, hiff⟩ := runLine_argv_iff hline (by decide)
  exact ⟨r, hr, hiff.mpr (by decide)⟩

def fullLine : List Byte := (List.replicate 16 [0x61#8, 0x20#8]).flatten

theorem last_word_open :
    ∃ r, runLine (fun x => fullLine.getD x 0) 0 = some r ∧
      ¬Points 0 r.mem r.argv ((lineWords fullLine).take 16) ∧
      r.argv[15]? = some 30 ∧ CString r.mem 30 [0x61#8, 0x20#8] := by
  have hline : CString (fun x => fullLine.getD x 0) 0 fullLine := by decide
  obtain ⟨r, hr, hpoints, -⟩ := runLine_points hline (by decide)
  refine ⟨r, hr, fun hwords => ?_, ?_⟩
  · exact absurd (points_unique hpoints hwords) (by decide)
  · obtain ⟨hlen, hget⟩ := List.forall₂_iff_get.mp hpoints
    have hstring : (argvStrings 16 0 fullLine).get ⟨15, by decide⟩ = (30, [0x61#8, 0x20#8]) := by
      decide
    obtain ⟨hptr, hend⟩ := hget 15 (by rw [hlen]; decide) (by decide)
    rw [hstring] at hptr hend
    rw [hptr] at hend
    exact ⟨List.getElem?_eq_some_iff.mpr ⟨_, hptr⟩, hend⟩

end

end TomatoOs.Drivers
