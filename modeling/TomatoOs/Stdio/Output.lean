import TomatoOs.Stdio.Formats

/-!
# What kprintf shows

`expand` is what a format stands for: its characters, with the argument in the place of
every conversion and one `%` for two. `kprintf` writes just that for every format whose
pieces are plain, unless the least integer is to be shown, and so do the callers that put
several strings into one line.
-/

namespace TomatoOs.Stdio

open Lib

-- ---------------------------------------------------------------------------
-- The bytes written
-- ---------------------------------------------------------------------------

def Write.text (c : Call) : Write → List Byte
  | .format off len => (List.range' off len).map c.format
  | .bytes bs => bs

def Trace.text (c : Call) (tr : Trace) : List Byte := tr.writes.flatMap (Write.text c)

theorem Trace.after_text (c : Call) (reads : List Nat) (write : Write) (tr : Trace) :
    (tr.after reads write).text c = write.text c ++ tr.text c := rfl

def Conversion.shows (c : Call) (word : BitVec 64) : Conversion → List Byte
  | .c => [word.setWidth 8]
  | .s => c.strings word
  | .d => intNumeral (word.setWidth 32).toInt
  | .x => ascii '0' :: ascii 'x' :: numeral 16 (word.setWidth 32).toNat

/-- The format with the arguments from `arg` on in it. -/
def expand (c : Call) : Nat → List Byte → List Byte
  | _, [] => []
  | _, [x] => [x]
  | arg, x :: letter :: t =>
    if x = ascii '%' then
      if letter = ascii '%' then x :: expand c arg t
      else
        match conversion? letter with
        | some k => k.shows c (c.args arg) ++ expand c (arg + 1) t
        | none => x :: expand c arg (letter :: t)
    else x :: expand c arg (letter :: t)

/-- The conversion can show the word: `%d` cannot show the least integer. -/
def Conversion.Able (word : BitVec 64) (k : Conversion) : Bool :=
  k ≠ .d || word.setWidth 32 ≠ BitVec.intMin 32

theorem converted_eq {k : Conversion} (h : k.Able word = true) :
    converted c word k = k.shows c word := by
  cases k with
  | d => exact (shownInt_iff _).mpr (by simpa [Conversion.Able] using h)
  | _ => rfl

def Showable (c : Call) : Nat → List Byte → Bool
  | _, [] => true
  | _, [_] => true
  | arg, x :: letter :: t =>
    if x = ascii '%' then
      if letter = ascii '%' then Showable c arg t
      else
        match conversion? letter with
        | some k => k.Able (c.args arg) && Showable c (arg + 1) t
        | none => Showable c arg (letter :: t)
    else Showable c arg (letter :: t)

/-- Every `%` outside of escape sequences begins a conversion specification, and every
escape sequence ends and has no `%` in it. -/
def Formatted (text : List Byte) : Prop := ∀ piece ∈ pieces text, piece.Plain = true

theorem formatted_of_within (fuel : Nat)
    (h : (decide (text.length ≤ fuel) && (piecesWithin fuel text).all Piece.Plain) = true) :
    Formatted text := by
  rw [Bool.and_eq_true, decide_eq_true_eq] at h
  rw [Formatted, pieces_eq_within h.1]
  exact List.all_eq_true.mp h.2

section
variable {c : Call} {m : Mem} {p arg : Nat} {s t : List Byte} {piece : Piece}

theorem format_text (h : CString c.format p (s ++ t)) : (Write.format p s.length).text c = s :=
  (spells_append.mp h.spells).1.map_range

theorem expand_cons_ne {x : Byte} (hx : x ≠ ascii '%') :
    expand c arg (x :: t) = x :: expand c arg t := by
  cases t with
  | nil => rfl
  | cons letter t => rw [expand, if_neg hx]

theorem expand_append (hs : ascii '%' ∉ s) : expand c arg (s ++ t) = s ++ expand c arg t := by
  induction s with
  | nil => rfl
  | cons x s ih =>
    rw [List.mem_cons, not_or] at hs
    rw [List.cons_append, expand_cons_ne (Ne.symm hs.1), ih hs.2, List.cons_append]

theorem showable_cons_ne {x : Byte} (hx : x ≠ ascii '%') :
    Showable c arg (x :: t) = Showable c arg t := by
  cases t with
  | nil => rfl
  | cons letter t => rw [Showable, if_neg hx]

theorem showable_append (hs : ascii '%' ∉ s) : Showable c arg (s ++ t) = Showable c arg t := by
  induction s with
  | nil => rfl
  | cons x s ih =>
    rw [List.mem_cons, not_or] at hs
    rw [List.cons_append, showable_cons_ne (Ne.symm hs.1), ih hs.2]

theorem Begins.expands (arg : Nat) (h : Begins piece t) (hplain : piece.Plain = true)
    (hstring : CString c.format p t) (hshow : Showable c arg t = true) :
    (piece.write c p arg).text c = piece.output c arg ∧
      expand c arg t = piece.output c arg ++ expand c (arg + piece.args) (t.drop piece.width) ∧
      Showable c (arg + piece.args) (t.drop piece.width) = true := by
  cases h with
  | escape s r =>
    have hsplit : esc :: ascii '[' :: (s ++ ascii 'm' :: r) =
        (esc :: ascii '[' :: (s ++ [ascii 'm'])) ++ r := by simp
    have hnone : ascii '%' ∉ esc :: ascii '[' :: (s ++ [ascii 'm']) := by
      simpa [Piece.Plain] using hplain
    rw [hsplit] at hstring hshow ⊢
    rw [showable_append hnone] at hshow
    refine ⟨format_text hstring, ?_⟩
    rw [expand_append hnone]
    simpa [Piece.output, Piece.width, Piece.args] using hshow
  | cutEscape => cases hplain
  | text x s r hx hs =>
    have hs' : ascii '%' ∉ x :: s := by simp [hs, hx.symm]
    refine ⟨format_text (s := x :: s) hstring, ?_⟩
    rw [← List.cons_append] at hshow ⊢
    rw [showable_append hs'] at hshow
    rw [expand_append hs']
    simpa [Piece.output, Piece.width, Piece.args] using hshow
  | percent s r hs =>
    refine ⟨format_text (s := ascii '%' :: s) hstring.2.2, ?_⟩
    rw [Showable, if_pos rfl, if_pos rfl, showable_append hs] at hshow
    rw [expand, if_pos rfl, if_pos rfl, expand_append hs]
    simpa [Piece.output, Piece.width, Piece.args, Nat.add_comm 1] using hshow
  | conversion letter r k hk =>
    have hletter : letter ≠ ascii '%' := by
      rintro rfl
      cases hk
    rw [Showable, if_pos rfl, if_neg hletter, hk, Bool.and_eq_true] at hshow
    refine ⟨rfl, ?_, hshow.2⟩
    rw [expand, if_pos rfl, if_neg hletter, hk]
    exact congrArg (· ++ expand c (arg + 1) r) (converted_eq hshow.1).symm
  | ended | unknown => cases hplain

theorem kprintfLoop_expands {fuel n : Nat} (st : Print) (h : CString c.format st.pos t)
    (hfuel : t.length < fuel) (hn : st.written = BitVec.ofNat 32 n) (hplain : Formatted t)
    (hshow : Showable c st.arg t = true)
    (hmax : n + (expand c st.arg t).length ≤ 0x7FFFFFFF) :
    ∃ tr, kprintfLoop c fuel st = some tr ∧ tr.text c = expand c st.arg t ∧
      tr.result = some (BitVec.ofNat 32 (n + (expand c st.arg t).length)) := by
  induction fuel generalizing st t n with
  | zero => omega
  | succ fuel ih =>
    cases t with
    | nil =>
      rw [kprintfLoop_end h, hn]
      exact ⟨_, rfl, rfl, rfl⟩
    | cons x t =>
      rw [List.length_cons] at hfuel
      obtain ⟨s, hs, htakes⟩ := kprintfStep_takes h (by omega : t.length < fuel)
      have hbegins := firstPiece_begins x t
      have hwidth := firstPiece_width_pos x t
      rw [Formatted, pieces, List.forall_mem_cons] at hplain
      generalize firstPiece x t = piece at htakes hbegins hwidth hplain
      obtain ⟨hfirst, hrest⟩ := hplain
      obtain ⟨hwrite, hexpand, hshow⟩ := hbegins.expands st.arg hfirst h hshow
      rw [hexpand, List.length_append] at hmax ⊢
      cases s with
      | giveUp reads pos =>
        obtain ⟨-, hgive⟩ := htakes
        rw [hn] at hgive
        have := maxrem_lt hgive
        omega
      | next reads write st' =>
        obtain ⟨-, rfl, hpos, harg, hwritten⟩ := htakes
        have hnext := h.drop (hbegins.width_le (Piece.Plain.fine hfirst) c)
        rw [← hpos] at hnext
        rw [← harg] at hmax hshow ⊢
        obtain ⟨tr, htr, htext, hresult⟩ := ih st' hnext
          (by rw [List.length_drop, List.length_cons]; omega)
          (by rw [hwritten, hn, BitVec.ofNat_add]) hrest hshow (by omega)
        rw [kprintfLoop_next (h.2.1 ▸ h.1) hs, htr]
        refine ⟨_, rfl, ?_, ?_⟩
        · rw [Trace.after_text, hwrite, htext]
        · rw [Trace.after, hresult, Nat.add_assoc]

end

-- ---------------------------------------------------------------------------
-- Log lines
-- ---------------------------------------------------------------------------

def bytesOf (s : String) : List Byte := s.toList.map ascii

inductive Arg
  | word (w : BitVec 64)
  | string (text : List Byte)

/-- A call with a constant format. The place of a string in the list stands for its
address. -/
def callOf (format : List Byte) (args : List Arg) : Call where
  format i := format.getD i 0
  args n :=
    match args[n]? with
    | some (.word w) => w
    | _ => BitVec.ofNat 64 n
  strings w :=
    match args[w.toNat]? with
    | some (.string text) => text
    | _ => []

def kprintfBytes (c : Call) (fuel : Nat) (buf : Buffer 32) : Option (List Byte) :=
  (kprintf c fuel buf).map (Trace.text c)

theorem cString_getD (s : List Byte) (h : 0 ∉ t) :
    CString (fun i => (s ++ t).getD i 0) s.length t := by
  induction t generalizing s with
  | nil => simp [CString]
  | cons c t ih =>
    rw [List.mem_cons, not_or] at h
    refine ⟨Ne.symm h.1, by simp, ?_⟩
    simpa using ih (s ++ [c]) h.2

/-- The call writes what the format stands for, and returns its length. -/
theorem kprintf_expands (c : Call) (buf : Buffer 32) {text : List Byte} {fuel : Nat}
    (h : CString c.format 0 text) (hfuel : text.length < fuel) (hplain : Formatted text)
    (hshow : Showable c 0 text = true)
    (hmax : (expand c 0 text).length ≤ 0x7FFFFFFF) :
    ∃ tr, kprintf c fuel buf = some tr ∧ tr.text c = expand c 0 text ∧
      tr.result = some (BitVec.ofNat 32 (expand c 0 text).length) := by
  have hloop := kprintfLoop_expands ⟨0, 0, 0, buf⟩ h hfuel (rfl : _ = BitVec.ofNat 32 0) hplain
    hshow (by rwa [Nat.zero_add])
  rwa [Nat.zero_add] at hloop

theorem kprintf_expands_percent : ∃ tr, kprintf (callOf (bytesOf "cpu %s: %d%%\n")
      [.string (bytesOf "bsp"), .word 9]) 16 ⟨List.replicate 32 0, List.length_replicate⟩ = some tr ∧
    tr.text (callOf (bytesOf "cpu %s: %d%%\n") [.string (bytesOf "bsp"), .word 9]) =
      bytesOf "cpu bsp: 9%\n" := by
  obtain ⟨tr, htr, htext, -⟩ := kprintf_expands
    (callOf (bytesOf "cpu %s: %d%%\n") [.string (bytesOf "bsp"), .word 9])
    ⟨List.replicate 32 0, List.length_replicate⟩ (cString_getD [] (by decide))
    (by decide : _ < 16) (formatted_of_within 16 (by decide)) (by decide) (by decide)
  exact ⟨tr, htr, htext.trans (by decide)⟩

theorem callOf_writes {format : List Byte} {fuel : Nat} (args : List Arg) (buf : Buffer 32)
    (hnul : 0 ∉ format) (hplain : Formatted format) (hfuel : format.length < fuel)
    (hshow : Showable (callOf format args) 0 format = true)
    (hmax : (expand (callOf format args) 0 format).length ≤ 0x7FFFFFFF) :
    kprintfBytes (callOf format args) fuel buf = some (expand (callOf format args) 0 format) := by
  have hstring : CString (callOf format args).format 0 format := cString_getD [] hnul
  obtain ⟨tr, htr, htext, -⟩ := kprintfLoop_expands ⟨0, 0, 0, buf⟩ hstring hfuel
    (rfl : _ = BitVec.ofNat 32 0) hplain hshow (by rwa [Nat.zero_add])
  rw [kprintfBytes, kprintf, htr, Option.map_some, htext]

inductive KlogLevel
  | info
  | warn
  | error
  | debug
deriving DecidableEq

def levelLabel : KlogLevel → List Byte
  | .warn => bytesOf "\x1b[1;33mWARN \x1b[0m"
  | .error => bytesOf "\x1b[1;31mERROR\x1b[0m"
  | .debug => bytesOf "\x1b[1;35mDEBUG\x1b[0m"
  | .info => bytesOf "\x1b[1;36mINFO \x1b[0m"

structure KlogArrays where
  tmp : Buffer 20
  tmp' : Buffer 20
  secbuf : Buffer 20
  msbuf : Buffer 8
  buf : Buffer 32

def bufferString (b : Buffer size) : List Byte := b.bytes.takeWhile (· ≠ 0)

def klogFormat : List Byte := bytesOf "\x1b[1;34m[%s.%s]\x1b[0m %s \x1b[1m%s\x1b[0m: "

def klog (level : KlogLevel) (subsystem : List Byte) (apicTicks : BitVec 64) (a : KlogArrays)
    (fuel : Nat) : Option (List Byte) := do
  let (secbuf, msbuf) ← klogTime apicTicks a.tmp a.tmp' a.secbuf a.msbuf
  kprintfBytes (callOf klogFormat [.string (bufferString secbuf), .string (bufferString msbuf),
    .string (levelLabel level), .string subsystem]) fuel a.buf

def klogLine (level : KlogLevel) (subsystem : List Byte) (apicTicks : BitVec 64) : List Byte :=
  [bytesOf "\x1b[1;34m[", padded (apicTicks * msPerTick / 1000#64) 5 (ascii ' '), bytesOf ".",
    padded (apicTicks * msPerTick % 1000#64) 3 (ascii '0'), bytesOf "]\x1b[0m ", levelLabel level,
    bytesOf " \x1b[1m", subsystem, bytesOf "\x1b[0m: "].flatten

theorem klogFormat_expands (sec ms label subsystem : List Byte) :
    expand (callOf klogFormat [.string sec, .string ms, .string label, .string subsystem]) 0
        klogFormat =
      [bytesOf "\x1b[1;34m[", sec, bytesOf ".", ms, bytesOf "]\x1b[0m ", label,
        bytesOf " \x1b[1m", subsystem, bytesOf "\x1b[0m: "].flatten := rfl

theorem klogFormat_formatted : Formatted klogFormat := formatted_of_within 50 (by decide)

theorem bufferString_eq {b : Buffer size} (h : HoldsString b text) (hnul : 0 ∉ text) :
    bufferString b = text := by
  obtain ⟨rest, hrest⟩ := h
  have hne : ∀ x ∈ text, decide (x ≠ 0) = true := fun x hx =>
    decide_eq_true fun h0 => hnul (h0 ▸ hx)
  rw [bufferString, ← hrest, List.append_assoc, List.takeWhile_append_of_pos hne]
  simp

theorem numeral_ne_nul (n : Nat) : 0 ∉ numeral 10 n := by
  intro h
  obtain ⟨c, hc, hnul⟩ := List.mem_map.mp h
  have hdigit := Nat.isDigit_of_mem_toDigits (by decide) (by decide) hc
  rw [Char.isDigit, Bool.and_eq_true, decide_eq_true_eq, decide_eq_true_eq] at hdigit
  have hlo : 48 ≤ c.toNat := hdigit.1
  have hhi : c.toNat ≤ 57 := hdigit.2
  have hmod := congrArg BitVec.toNat hnul
  rw [ascii, BitVec.toNat_ofNat, Nat.mod_eq_of_lt (by omega)] at hmod
  exact absurd hmod (by change c.toNat ≠ 0; omega)

theorem padded_ne_nul (v : BitVec 64) (width : Int) {pad : Byte} (hpad : pad ≠ 0) :
    0 ∉ padded v width pad := by
  rw [padded, List.mem_append, not_or]
  exact ⟨fun h => hpad (List.eq_of_mem_replicate h).symm, numeral_ne_nul _⟩

theorem levelLabel_length (level : KlogLevel) : (levelLabel level).length ≤ 16 := by
  cases level <;> decide

/-- Whatever is in the arrays of the call, the line begins with the time of the tick
count, and the label and the subsystem follow as they are. -/
theorem klog_writes (level : KlogLevel) (subsystem : List Byte) (apicTicks : BitVec 64)
    (a : KlogArrays) (hlen : subsystem.length ≤ 2 ^ 30) :
    klog level subsystem apicTicks a 64 = some (klogLine level subsystem apicTicks) := by
  obtain ⟨sec, ms, htime, hsec, hms⟩ :=
    klogTime_eq apicTicks a.tmp a.tmp' a.secbuf a.msbuf
  have hsec' := bufferString_eq hsec (padded_ne_nul _ _ (by decide))
  have hms' := bufferString_eq hms (padded_ne_nul _ _ (by decide))
  rw [klog, htime, Option.bind_eq_bind, Option.bind_some]
  dsimp only
  rw [hsec', hms']
  refine callOf_writes _ _ (by decide) klogFormat_formatted (by decide) rfl ?_
  rw [klogFormat_expands]
  have hlabel := levelLabel_length level
  have hnumbers : ∀ (v : BitVec 64) (pad : Byte) (width : Int), width ≤ (20 : Nat) →
      (padded v width pad).length ≤ 20 := fun v pad _ =>
    padded_length_le v pad (by decide) (v.isLt.trans (by decide))
  have hsecLen := hnumbers (apicTicks * msPerTick / 1000#64) (ascii ' ') 5 (by decide)
  have hmsLen := hnumbers (apicTicks * msPerTick % 1000#64) (ascii '0') 3 (by decide)
  have hfixed : (bytesOf "\x1b[1;34m[").length + (bytesOf ".").length +
      (bytesOf "]\x1b[0m ").length + (bytesOf " \x1b[1m").length +
      (bytesOf "\x1b[0m: ").length = 26 := by decide
  simp only [List.length_flatten, List.map_cons, List.map_nil, List.sum_cons, List.sum_nil]
  omega

end TomatoOs.Stdio
