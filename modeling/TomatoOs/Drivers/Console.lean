import TomatoOs.Drivers.Keyboard
import TomatoOs.Drivers.LineEditor
import TomatoOs.Stdio.Output

/-!
# The console

The shell from the keyboard interrupt to the command. `keyboard_poll` hands scancodes
to `handle_scancode`, which decodes them for `line_input`, which edits the line, echoes
it and runs it. Interrupts come between any two accesses of the loop. What has been run
and shown is a function of the scancodes delivered all the same, and these are the
first ones that the ring took in.
-/

namespace TomatoOs.Drivers

open Lib
open Stdio (bytesOf callOf expand Arg)

-- ---------------------------------------------------------------------------
-- What is shown
-- ---------------------------------------------------------------------------

/-- What `kprintf` shows of a call; `Stdio.callOf_writes` is about the call. -/
def printed (format : String) (args : List Arg) : List Byte :=
  expand (callOf (bytesOf format) args) 0 (bytesOf format)

def stringAt (m : Mem) : Nat → Nat → List Byte
  | 0, _ => []
  | fuel + 1, p => if m p = 0 then [] else m p :: stringAt m fuel (p + 1)

def Command.helpText : Command → List Byte
  | .clear => bytesOf "clear the screen"
  | .reboot => bytesOf "restart the machine"
  | .shutdown => bytesOf "power off"
  | .ls => bytesOf "list files"
  | .help => bytesOf "list commands"

def cmdHelp : List Byte :=
  commands.flatMap fun c => printed "  %s - %s\n" [.string c.name, .string c.helpText]

/-- `clear` does not go through `kprintf`. -/
def cmdClear : List Byte := bytesOf "\x1b[2J\x1b[H"

/-- What the commands write that look at the rest of the kernel, and whether `shutdown` turns
the machine off. Both are left open. -/
structure Output where
  text : Command → List Byte
  turnsOff : Bool

def Command.shows (prints : Output) : Command → List Byte
  | .help => cmdHelp
  | .clear => cmdClear
  | c => prints.text c

def RanLine.shows (prints : Output) (r : RanLine) : List Byte :=
  match r.dispatch with
  | .nothing => []
  | .call c => c.shows prints
  | .unknown name => printed "Unknown command: %s\n" [.string (stringAt r.mem lineSize name)]

/-- `reboot` ends in `halt`. -/
def Output.returns (prints : Output) : Dispatch → Bool
  | .call .reboot => false
  | .call .shutdown => !prints.turnsOff
  | _ => true

/-- What `line_input` writes; the prompt only when `run_line` returns. -/
def lineInputShows (prints : Output) (line : Nat) (ch : Byte) (s : Editor) : List Byte :=
  if ch = charNewline then
    printed "\n" [] ++
      (runLine (s.mem.put (line + s.lineLen) 0) line).elim [] fun r =>
        r.shows prints ++ if prints.returns r.dispatch then printed "tusos-->" [] else []
  else if ch = charBackspace then
    if s.lineLen ≠ 0 then printed "\x08 \x08" [] else []
  else if s.lineLen < lineSize - 1 then printed "%c" [.word (ch.setWidth 64)]
  else []

-- ---------------------------------------------------------------------------
-- The loop
-- ---------------------------------------------------------------------------

/-- `ran` and `shown` are what `run_line` has gone to and what has been written since
`shell_run` was called. -/
structure Console where
  kbd : Keyboard
  decoder : Decoder
  editor : Editor
  ran : List Dispatch
  shown : List Byte
  halted : Bool

def Reaction.went (line : Nat) (r : Reaction) : Option Dispatch :=
  (r.passed.bind (runLine · line)).map RanLine.dispatch

/-- `handle_scancode`, with `line_input` at its end. What `line_input` does behind a
`run_line` that does not return is not done: `line_len` keeps its value. -/
def Console.handle (prints : Output) (line : Nat) (sc : Byte) (s : Console) : Option Console :=
  match handleScancode sc s.decoder with
  | (decoder, none) => some { s with decoder := decoder }
  | (decoder, some ch) =>
    (lineInput line ch s.editor).map fun r =>
      { s with
        decoder := decoder
        editor :=
          if (r.went line).all prints.returns then r.next else { s.editor with mem := r.next.mem }
        ran := s.ran ++ (r.went line).toList
        shown := s.shown ++ lineInputShows prints line ch s.editor
        halted := !(r.went line).all prints.returns }

def Console.step (prints : Output) (line : Nat) (tailFirst : Bool) (s : Console) :
    KbdEvent → Option Console
  | .interrupt sc => some { s with kbd := keyboardhandler sc s.kbd }
  | .poll =>
    if s.halted then some s
    else
      match s.kbd.pc with
      | .handle sc =>
        (s.handle prints line sc).map fun t => { t with kbd := keyboardPoll tailFirst s.kbd }
      | _ => some { s with kbd := keyboardPoll tailFirst s.kbd }

-- ---------------------------------------------------------------------------
-- What a text of characters does
-- ---------------------------------------------------------------------------

/-- What each character gives, with the line as it is before the character. -/
def along {β : Type} (f : List Byte → Byte → List β) : List Byte → List Byte → List β
  | _, [] => []
  | text, ch :: chars => f text ch ++ along f (modelStep text ch) chars

def entered (chars : List Byte) : List (List Byte) :=
  along (fun text ch => if ch = charNewline then [text] else []) [] chars

def reply (prints : Output) (line : Nat) (text : List Byte) : List Byte :=
  match named line (lineWords text) with
  | .nothing => []
  | .call c => c.shows prints
  | .unknown _ => bytesOf "Unknown command: " ++ (firstWord text ++ bytesOf "\n")

/-- A character is shown unless the line is full, and taken away again with it. There is
no prompt behind a command that does not return. -/
def echo (prints : Output) (line : Nat) (text : List Byte) (ch : Byte) : List Byte :=
  if ch = charNewline then
    bytesOf "\n" ++ (reply prints line text ++
      if prints.returns (named line (lineWords text)) then bytesOf "tusos-->" else [])
  else if ch = charBackspace then
    if text = [] then [] else bytesOf "\x08 \x08"
  else if text.length < 99 then [ch]
  else []

def banner : List Byte := bytesOf "[shell_run entered]\ntusos-->"

def transcript (prints : Output) (line : Nat) (chars : List Byte) : List Byte :=
  banner ++ along (echo prints line) [] chars

theorem along_snoc {β : Type} (f : List Byte → Byte → List β) (text chars : List Byte) (ch : Byte) :
    along f text (chars ++ [ch]) = along f text chars ++ f (chars.foldl modelStep text) ch := by
  induction chars generalizing text with
  | nil => simp [along]
  | cons c chars ih => simp [along, ih]

theorem foldl_modelStep (chars : List Byte) : chars.foldl modelStep [] = currentLine chars := by
  induction chars using List.reverseRecOn with
  | nil => rfl
  | append_singleton chars ch ih => rw [currentLine_snoc, List.foldl_concat, ih]

theorem entered_snoc (chars : List Byte) (ch : Byte) :
    entered (chars ++ [ch]) =
      entered chars ++ if ch = charNewline then [currentLine chars] else [] := by
  rw [entered, along_snoc, foldl_modelStep]
  rfl

theorem transcript_snoc (prints : Output) (line : Nat) (chars : List Byte) (ch : Byte) :
    transcript prints line (chars ++ [ch]) =
      transcript prints line chars ++ echo prints line (currentLine chars) ch := by
  rw [transcript, along_snoc, foldl_modelStep, ← List.append_assoc]
  rfl

theorem typedChars_append (s : Decoder) (bytes more : List Byte) :
    typedChars s (bytes ++ more) = typedChars s bytes ++
      typedChars (bytes.foldl (fun s raw => (handleScancode raw s).1) s) more := by
  induction bytes generalizing s with
  | nil => rfl
  | cons raw bytes ih => simp [typedChars, ih]

theorem typedChars_snoc (bytes : List Byte) (raw : Byte) :
    typedChars .boot (bytes ++ [raw]) =
      typedChars .boot bytes ++ (handleScancode raw (decoderAfter bytes)).2.toList := by
  rw [typedChars_append, decoderAfter]
  simp [typedChars]

-- ---------------------------------------------------------------------------
-- One character
-- ---------------------------------------------------------------------------

theorem stringAt_eq (h : CString m p text) (hfuel : text.length < fuel) :
    stringAt m fuel p = text := by
  induction text generalizing p fuel with
  | nil =>
    obtain ⟨fuel, rfl⟩ := Nat.exists_eq_add_one_of_ne_zero (by omega : fuel ≠ 0)
    exact if_pos h
  | cons c text ih =>
    obtain ⟨fuel, rfl⟩ := Nat.exists_eq_add_one_of_ne_zero (by omega : fuel ≠ 0)
    rw [List.length_cons] at hfuel
    rw [stringAt, h.2.1, if_neg h.1, ih h.2.2 (by omega)]

theorem unknown_printed (word : List Byte) :
    printed "Unknown command: %s\n" [.string word] =
      bytesOf "Unknown command: " ++ (word ++ bytesOf "\n") := rfl

theorem char_printed (ch : Byte) : printed "%c" [.word (ch.setWidth 64)] = [ch] := by
  have hbyte : (ch.setWidth 64).setWidth 8 = ch := by
    rw [BitVec.setWidth_setWidth_of_le _ (by decide), BitVec.setWidth_eq]
  calc printed "%c" [.word (ch.setWidth 64)]
    _ = [(ch.setWidth 64).setWidth 8] := rfl
    _ = [ch] := by rw [hbyte]

theorem unknown_word {argv : List Nat} (hpoints : Points line m argv (argvStrings 16 0 text))
    (hunknown : dispatch m argv = .unknown name) : CString m name (firstWord text) := by
  cases argv with
  | nil => cases hunknown
  | cons argv0 argv =>
    obtain rfl : argv0 = name := by
      rw [dispatch] at hunknown
      split at hunknown
      · cases hunknown
      · exact Dispatch.unknown.inj hunknown
    by_cases hblank : text.dropWhile isSpace = []
    · simp only [argvStrings, hblank, if_true] at hpoints
      cases hpoints
    · rw [argvStrings_cons 0 hblank (by decide)] at hpoints
      exact (List.forall₂_cons.mp hpoints).1.2

theorem firstWord_length_le (text : List Byte) : (firstWord text).length ≤ text.length :=
  ((List.takeWhile_sublist _).trans (List.dropWhile_sublist _)).length_le

theorem runLine_shows (prints : Output) (h : CString m line text) (hlen : text.length ≤ 99) :
    ∃ r, runLine m line = some r ∧ r.dispatch = named line (lineWords text) ∧
      r.shows prints = reply prints line text := by
  obtain ⟨r, hr, hdispatch⟩ := runLine_dispatch h hlen
  obtain ⟨r', hr', hpoints, hargv⟩ := runLine_points h hlen
  obtain rfl : r = r' := Option.some.inj (hr.symm.trans hr')
  refine ⟨r, hr, hdispatch, ?_⟩
  rw [RanLine.shows, reply, ← hdispatch]
  cases hwent : r.dispatch with
  | nothing => rfl
  | call c => rfl
  | unknown name =>
    have hword := unknown_word hpoints (hargv.symm.trans hwent)
    have hfuel : (firstWord text).length < lineSize :=
      (firstWord_length_le text).trans_lt (Nat.lt_succ_of_le hlen)
    dsimp only
    rw [stringAt_eq hword hfuel, unknown_printed]

theorem lineInput_ends (prints : Output) (h : Agrees line text s) (hnul : 0 ∉ text) :
    ∃ r, lineInput line charNewline s = some r ∧
      r.went line = some (named line (lineWords text)) ∧
      lineInputShows prints line charNewline s = echo prints line text charNewline := by
  have hspells := h.spells.put_behind 0
  rw [← h.lineLen] at hspells
  obtain ⟨r, hr, hwent, hshows⟩ := runLine_shows prints (hspells.cString_iff.mpr hnul) h.bound
  refine ⟨⟨⟨r.mem, 0⟩, some (s.mem.put (line + s.lineLen) 0)⟩, ?_, ?_, ?_⟩
  · rw [lineInput, if_pos rfl]
    dsimp only
    rw [hr]
    rfl
  · rw [Reaction.went, Option.bind_some, hr, Option.map_some, hwent]
  · rw [lineInputShows, if_pos rfl, hr, Option.elim_some, hshows, hwent, echo, if_pos rfl]
    rfl

theorem lineInput_edits (prints : Output) (h : Agrees line text s) (hch : ch ≠ charNewline)
    (hr : lineInput line ch s = some r) :
    r.went line = none ∧ lineInputShows prints line ch s = echo prints line text ch := by
  have hempty : s.lineLen ≠ 0 ↔ text ≠ [] := by
    rw [h.lineLen, Ne, List.length_eq_zero_iff]
  have hfull : s.lineLen < lineSize - 1 ↔ text.length < 99 := by
    rw [h.lineLen]
    rfl
  rw [lineInput, if_neg hch] at hr
  rw [lineInputShows, echo, if_neg hch, if_neg hch]
  by_cases hback : ch = charBackspace
  · rw [if_pos hback] at hr
    cases hr
    refine ⟨rfl, ?_⟩
    rw [if_pos hback, if_pos hback]
    by_cases htext : text = []
    · rw [if_pos htext, if_neg (mt hempty.mp (not_not.mpr htext))]
    · rw [if_neg htext, if_pos (hempty.mpr htext)]
      rfl
  rw [if_neg hback] at hr
  rw [if_neg hback, if_neg hback]
  by_cases hroom : text.length < 99
  · rw [if_pos (hfull.mpr hroom)] at hr
    cases hr
    refine ⟨rfl, ?_⟩
    rw [if_pos hroom, if_pos (hfull.mpr hroom), char_printed]
  · rw [if_neg (mt hfull.mp hroom)] at hr
    cases hr
    refine ⟨rfl, ?_⟩
    rw [if_neg hroom, if_neg (mt hfull.mp hroom)]

theorem lineInput_follows (prints : Output) (h : Agrees line text s) (hnul : 0 ∉ text)
    (ch : Byte) :
    ∃ r, lineInput line ch s = some r ∧ Agrees line (modelStep text ch) r.next ∧
      (r.went line).toList =
        (if ch = charNewline then [text] else []).map (fun text => named line (lineWords text)) ∧
      lineInputShows prints line ch s = echo prints line text ch := by
  obtain ⟨s', hs', hagrees⟩ := editorStep_agrees h ch
  obtain ⟨r, hr, rfl⟩ := Option.map_eq_some_iff.mp hs'
  refine ⟨r, hr, hagrees, ?_⟩
  by_cases hch : ch = charNewline
  · subst hch
    obtain ⟨r', hr', hwent, hshows⟩ := lineInput_ends prints h hnul
    obtain rfl : r = r' := Option.some.inj (hr.symm.trans hr')
    rw [if_pos rfl, hwent]
    exact ⟨rfl, hshows⟩
  · obtain ⟨hwent, hshows⟩ := lineInput_edits prints h hch hr
    rw [if_neg hch, hwent]
    exact ⟨rfl, hshows⟩

/-- The console stops at a newline, behind a line that names such a command. -/
theorem went_stops {prints : Output} {went : Option Dispatch}
    (hwent : went.toList =
      (if ch = charNewline then [text] else []).map fun text => named line (lineWords text))
    (hstop : (!went.all prints.returns) = true) :
    ch = charNewline ∧ prints.returns (named line (lineWords text)) = false := by
  cases went with
  | none => cases hstop
  | some d =>
    rw [Bool.not_eq_true', Option.all_some] at hstop
    rw [Option.toList_some] at hwent
    split at hwent
    · case isTrue hch =>
      rw [List.map_singleton] at hwent
      exact ⟨hch, (List.cons.inj hwent).1 ▸ hstop⟩
    · cases hwent

-- ---------------------------------------------------------------------------
-- Every interleaving
-- ---------------------------------------------------------------------------

structure Console.Follows (prints : Output) (line : Nat) (tailFirst : Bool) (s : Console) :
    Prop where
  queue : ∃ waiting, s.kbd.Queue tailFirst waiting
  decoder : s.decoder = decoderAfter s.kbd.delivered
  agrees : s.halted = false → Agrees line (currentLine (typedChars .boot s.kbd.delivered)) s.editor
  last : s.halted = true → ∃ chars, typedChars .boot s.kbd.delivered = chars ++ [charNewline] ∧
    s.editor.lineLen = (currentLine chars).length ∧
    prints.returns (named line (lineWords (currentLine chars))) = false ∧
    ∀ d ∈ (entered chars).map (fun text => named line (lineWords text)), prints.returns d = true
  ran : s.ran = (entered (typedChars .boot s.kbd.delivered)).map fun text =>
    named line (lineWords text)
  shown : s.shown = transcript prints line (typedChars .boot s.kbd.delivered)
  halted : s.halted = true ↔ ∃ d ∈ s.ran, prints.returns d = false

section
variable {prints : Output} {line : Nat} {tailFirst : Bool} {s t : Console}

theorem Console.Follows.returned (h : s.Follows prints line tailFirst) (hgoes : s.halted = false) :
    ∀ d ∈ s.ran, prints.returns d = true := by
  intro d hd
  by_contra hstops
  rw [h.halted.mpr ⟨d, hd, Bool.eq_false_iff.mpr hstops⟩] at hgoes
  cases hgoes

theorem Console.Follows.ring (h : s.Follows prints line tailFirst) {kbd : Keyboard}
    (hqueue : ∃ waiting, kbd.Queue tailFirst waiting) (hsame : kbd.delivered = s.kbd.delivered) :
    Console.Follows prints line tailFirst { s with kbd := kbd } := by
  refine ⟨hqueue, ?_, ?_, ?_, ?_, ?_, h.halted⟩
  · simpa only [hsame] using h.decoder
  · simpa only [hsame] using h.agrees
  · simpa only [hsame] using h.last
  · simpa only [hsame] using h.ran
  · simpa only [hsame] using h.shown

theorem Console.Follows.handle (h : s.Follows prints line tailFirst) (hgoes : s.halted = false)
    {kbd : Keyboard} (hqueue : ∃ waiting, kbd.Queue tailFirst waiting)
    (hnext : kbd.delivered = s.kbd.delivered ++ [sc]) :
    ∃ t, s.handle prints line sc = some t ∧
      Console.Follows prints line tailFirst { t with kbd := kbd } := by
  have hchars := typedChars_snoc s.kbd.delivered sc
  rw [← hnext, ← h.decoder] at hchars
  have hdecoder : decoderAfter kbd.delivered = (handleScancode sc s.decoder).1 := by
    rw [hnext, decoderAfter_snoc, h.decoder]
  rw [Console.handle]
  generalize handleScancode sc s.decoder = d at hchars hdecoder
  obtain ⟨decoder, - | ch⟩ := d
  · rw [Option.toList_none, List.append_nil] at hchars
    refine ⟨_, rfl, hqueue, hdecoder.symm, ?_, ?_, ?_, ?_, h.halted⟩
    · simpa only [hchars] using h.agrees
    · simpa only [hchars] using h.last
    · simpa only [hchars] using h.ran
    · simpa only [hchars] using h.shown
  · rw [Option.toList_some] at hchars
    have hnul : 0 ∉ currentLine (typedChars .boot s.kbd.delivered) := fun h0 =>
      nul_not_typed _ .boot (mem_currentLine h0)
    have hbefore := h.returned hgoes
    obtain ⟨r, hr, hagrees, hwent, hshows⟩ := lineInput_follows prints (h.agrees hgoes) hnul ch
    dsimp only
    rw [hr, Option.map_some]
    refine ⟨_, rfl, hqueue, hdecoder.symm, fun hon => ?_, fun hoff => ?_, ?_, ?_, ?_⟩
    · dsimp only at hon ⊢
      rw [Bool.not_eq_false'] at hon
      rw [if_pos hon, hchars, currentLine_snoc]
      exact hagrees
    · dsimp only at hoff ⊢
      obtain ⟨rfl, hstops⟩ := went_stops hwent hoff
      rw [Bool.not_eq_true'] at hoff
      refine ⟨_, hchars, ?_, hstops, by rwa [← h.ran]⟩
      rw [hoff, if_neg Bool.false_ne_true]
      exact (h.agrees hgoes).lineLen
    · simp only [hchars, entered_snoc, List.map_append, h.ran, hwent]
    · simp only [hchars, transcript_snoc, h.shown, hshows]
    · have hold : ¬∃ d ∈ s.ran, prints.returns d = false := fun ⟨d, hd, hstops⟩ =>
        Bool.false_ne_true (hstops.symm.trans (hbefore d hd))
      simp only [List.mem_append, or_and_right, exists_or, or_iff_right hold]
      cases r.went line <;> simp

theorem keyboardPoll_delivered (tailFirst : Bool) (s : Keyboard) :
    (keyboardPoll tailFirst s).delivered = s.delivered ++ s.pc.inHand := by
  unfold keyboardPoll
  cases hpc : s.pc with
  | condition => cases tailFirst <;> simp [PollPc.inHand]
  | _ => simp [PollPc.inHand]

theorem Console.Follows.step (h : s.Follows prints line tailFirst) (event : KbdEvent) :
    ∃ t, s.step prints line tailFirst event = some t ∧ t.Follows prints line tailFirst := by
  obtain ⟨waiting, hqueue⟩ := h.queue
  cases event with
  | interrupt sc =>
    refine ⟨_, rfl, h.ring ⟨_, hqueue.handler sc⟩ ?_⟩
    unfold keyboardhandler
    dsimp only
    split <;> rfl
  | poll =>
    rw [Console.step]
    by_cases hhalted : s.halted = true
    · rw [if_pos hhalted]
      exact ⟨s, rfl, h⟩
    rw [if_neg hhalted]
    have hnext := keyboardPoll_delivered tailFirst s.kbd
    generalize hpc : s.kbd.pc = pc at hnext
    cases pc with
    | handle sc =>
      obtain ⟨t, ht, hfollows⟩ := h.handle (Bool.eq_false_iff.mpr hhalted) hqueue.poll hnext
      dsimp only
      rw [ht]
      exact ⟨_, rfl, hfollows⟩
    | _ => exact ⟨_, rfl, h.ring hqueue.poll (by simpa [PollPc.inHand] using hnext)⟩

/-- A row of cells, up to the cursor and from it on. Every character takes one cell. -/
structure Row where
  before : List Byte
  behind : List Byte

/-- A backspace only moves the cursor. -/
def Row.write (r : Row) (b : Byte) : Row :=
  if b = charBackspace then
    { before := r.before.dropLast, behind := r.before.getLast?.toList ++ r.behind }
  else { before := r.before ++ [b], behind := r.behind.tail }

def Row.after (bytes : List Byte) : Row := bytes.foldl Row.write { before := [], behind := [] }

variable {r : Row} {text : List Byte} {ch : Byte}

end

end TomatoOs.Drivers
