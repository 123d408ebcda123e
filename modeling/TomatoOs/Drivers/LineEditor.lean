import Mathlib.Data.List.DropRight
import TomatoOs.Drivers.Scancodes
import TomatoOs.Drivers.Shell
import TomatoOs.Lib.Runs

/-!
# The line editor

`line_input` edits a line in a buffer of a hundred bytes and hands it to `run_line`,
which cuts it up where it stands. The text of the line is a list here that only the
characters since the last newline determine. `Agrees` ties the buffer to that list;
nothing is asked of the bytes behind the line, so whatever an earlier line, or
`run_line`, has left there does not show.
-/

namespace TomatoOs.Drivers

open Lib

-- ---------------------------------------------------------------------------
-- line_input
-- ---------------------------------------------------------------------------

def charNewline : Byte := 0x0A#8

def charBackspace : Byte := 0x08#8

/-- `line_len`, and the memory that has `line` in it. -/
structure Editor where
  mem : Mem
  lineLen : Nat

/-- The static variables are zero at boot; nothing depends on what is in `line`. -/
def Editor.boot (m : Mem) : Editor := { mem := m, lineLen := 0 }

/-- The state afterwards, and the memory in which `run_line(line)` is called, if it is. -/
structure Reaction where
  next : Editor
  passed : Option Mem

def lineInput (line : Nat) (ch : Byte) (s : Editor) : Option Reaction :=
  if ch = charNewline then do
    let m := s.mem.put (line + s.lineLen) 0
    let r ← runLine m line
    some { next := { mem := r.mem, lineLen := 0 }, passed := some m }
  else if ch = charBackspace then
    some { next := if s.lineLen ≠ 0 then { s with lineLen := s.lineLen - 1 } else s, passed := none }
  else if s.lineLen < lineSize - 1 then
    some
      { next := { mem := s.mem.put (line + s.lineLen) ch, lineLen := s.lineLen + 1 }
        passed := none }
  else some { next := s, passed := none }

def editorStep (line : Nat) (s : Editor) (ch : Byte) : Option Editor :=
  (lineInput line ch s).map Reaction.next

-- ---------------------------------------------------------------------------
-- The list model
-- ---------------------------------------------------------------------------

def typeChar (text : List Byte) (ch : Byte) : List Byte :=
  if ch = charBackspace then text.dropLast
  else if text.length < 99 then text ++ [ch]
  else text

def sinceNewline (chars : List Byte) : List Byte := chars.rtakeWhile (· ≠ charNewline)

def currentLine (chars : List Byte) : List Byte := (sinceNewline chars).foldl typeChar []

def modelStep (text : List Byte) (ch : Byte) : List Byte :=
  if ch = charNewline then [] else typeChar text ch

theorem currentLine_snoc (chars : List Byte) (ch : Byte) :
    currentLine (chars ++ [ch]) = modelStep (currentLine chars) ch := by
  rw [currentLine, sinceNewline, List.rtakeWhile_concat, modelStep]
  by_cases h : ch = charNewline
  · simp [h]
  · simp [h, currentLine, sinceNewline]

theorem run_modelStep (chars : List Byte) :
    run (fun text ch => some (modelStep text ch)) [] chars = some (currentLine chars) := by
  induction chars using List.reverseRecOn with
  | nil => rfl
  | append_singleton chars ch ih =>
    rw [currentLine_snoc]
    exact run_append.mpr ⟨_, ih, rfl⟩

theorem mem_typeChar (h : c ∈ typeChar text ch) : c ∈ text ∨ c = ch := by
  unfold typeChar at h
  split at h
  · exact Or.inl (List.mem_of_mem_dropLast h)
  · split at h
    · simpa using h
    · exact Or.inl h

theorem mem_currentLine (h : c ∈ currentLine chars) : c ∈ chars := by
  induction chars using List.reverseRecOn with
  | nil => exact h
  | append_singleton chars ch ih =>
    rw [currentLine_snoc, modelStep] at h
    rw [List.mem_append, List.mem_singleton]
    split at h
    · exact absurd h List.not_mem_nil
    · exact (mem_typeChar h).imp_left ih

-- ---------------------------------------------------------------------------
-- The buffer holds the text
-- ---------------------------------------------------------------------------

structure Agrees (line : Nat) (text : List Byte) (s : Editor) : Prop where
  lineLen : s.lineLen = text.length
  bound : text.length ≤ 99
  spells : Spells s.mem line text

theorem agrees_boot (line : Nat) (m : Mem) : Agrees line [] (.boot m) where
  lineLen := rfl
  bound := Nat.zero_le 99
  spells := trivial

theorem lineInput_newline (h : Agrees line text s) :
    ∃ m r, lineInput line charNewline s =
        some { next := { mem := r.mem, lineLen := 0 }, passed := some m } ∧
      runLine m line = some r ∧ Spells m line (text ++ [0]) := by
  have hspells := h.spells.put_behind 0
  rw [← h.lineLen] at hspells
  have hnul : s.mem.put (line + s.lineLen) 0 (line + s.lineLen) = 0 := by simp [Mem.put]
  -- The string may be shorter than the line, but not longer.
  obtain ⟨string, hstring, hlen⟩ := exists_cString hnul
  have hbound : string.length ≤ 99 := by
    have := h.bound
    have := h.lineLen
    omega
  obtain ⟨r, hr, -⟩ := runLine_points hstring hbound
  refine ⟨_, r, ?_, hr, hspells⟩
  rw [lineInput, if_pos rfl]
  dsimp only
  rw [hr]
  rfl

theorem Agrees.backspace (h : Agrees line text s) :
    Agrees line text.dropLast (if s.lineLen ≠ 0 then { s with lineLen := s.lineLen - 1 } else s) := by
  have hbound := h.bound
  split
  · case isTrue hne =>
    exact {
      lineLen := by rw [List.length_dropLast, ← h.lineLen]
      bound := by rw [List.length_dropLast]; omega
      spells := h.spells.dropLast }
  · case isFalse hzero =>
    have hnil : text = [] := List.eq_nil_of_length_eq_zero (by rw [← h.lineLen]; omega)
    rw [hnil] at h ⊢
    exact h

theorem Agrees.append (h : Agrees line text s) (hroom : text.length < 99) (ch : Byte) :
    Agrees line (text ++ [ch])
      { mem := s.mem.put (line + s.lineLen) ch, lineLen := s.lineLen + 1 } where
  lineLen := by rw [h.lineLen, List.length_append, List.length_singleton]
  bound := by rw [List.length_append, List.length_singleton]; omega
  spells := by
    rw [h.lineLen]
    exact h.spells.put_behind ch

theorem editorStep_agrees (h : Agrees line text s) (ch : Byte) :
    ∃ s', editorStep line s ch = some s' ∧ Agrees line (modelStep text ch) s' := by
  unfold modelStep
  by_cases hnewline : ch = charNewline
  · obtain ⟨m, r, hfed, -⟩ := lineInput_newline h
    rw [if_pos hnewline, editorStep, hnewline, hfed]
    exact ⟨_, rfl, rfl, Nat.zero_le 99, trivial⟩
  rw [if_neg hnewline, typeChar, editorStep, lineInput, if_neg hnewline]
  by_cases hback : ch = charBackspace
  · rw [if_pos hback, if_pos hback]
    exact ⟨_, rfl, h.backspace⟩
  have hfull : s.lineLen < lineSize - 1 ↔ text.length < 99 := by
    rw [h.lineLen]
    rfl
  rw [if_neg hback, if_neg hback]
  by_cases hroom : text.length < 99
  · rw [if_pos hroom, if_pos (hfull.mpr hroom)]
    exact ⟨_, rfl, h.append hroom ch⟩
  · rw [if_neg hroom, if_neg (mt hfull.mp hroom)]
    exact ⟨s, rfl, h⟩

theorem editor_agrees (line : Nat) (m : Mem) (chars : List Byte) :
    ∃ s, run (editorStep line) (.boot m) chars = some s ∧ Agrees line (currentLine chars) s := by
  refine run_related (Agrees line) ?_ (agrees_boot line m) (run_modelStep chars)
  intro text s ch h
  obtain ⟨s', hs', hagrees⟩ := editorStep_agrees h ch
  rw [hs']
  exact .some hagrees

/-- At every newline the bytes passed are the text and the NUL behind it. As a string
they are the text exactly if no NUL is in it; `nul_not_typed` says that the keyboard
types none. -/
theorem lineInput_list_model (line : Nat) (m : Mem) (chars : List Byte) :
    ∃ s, run (editorStep line) (.boot m) chars = some s ∧ s.lineLen ≤ 99 ∧
      ∃ fed passed, lineInput line charNewline s = some fed ∧ fed.passed = some passed ∧
        Spells passed line (currentLine chars ++ [0]) ∧
        (CString passed line (currentLine chars) ↔ 0 ∉ currentLine chars) := by
  obtain ⟨s, hrun, hagrees⟩ := editor_agrees line m chars
  obtain ⟨passed, r, hfed, -, hspells⟩ := lineInput_newline hagrees
  have hbound : s.lineLen ≤ 99 := hagrees.lineLen.trans_le hagrees.bound
  exact ⟨s, hrun, hbound, _, passed, hfed, rfl, hspells, hspells.cString_iff⟩

-- ---------------------------------------------------------------------------
-- From the keyboard to the command
-- ---------------------------------------------------------------------------

def typedChars : Decoder → List Byte → List Byte
  | _, [] => []
  | s, raw :: bytes => (handleScancode raw s).2.toList ++ typedChars (handleScancode raw s).1 bytes

/-- `UNKNOWN` would be a NUL as a `char`, but it stands in both tables at once. -/
theorem types_ne_nul : ∀ raw : Byte, types raw = true →
    BitVec.ofNat 8 (uppercase (keyCode raw)) ≠ 0 ∧ BitVec.ofNat 8 (lowercase (keyCode raw)) ≠ 0 := by
  decide +kernel

theorem handleScancode_ne_nul (raw : Byte) (s : Decoder) : 0 ∉ (handleScancode raw s).2.toList := by
  rw [handleScancode_eq]
  split
  · exact List.not_mem_nil
  split
  · exact List.not_mem_nil
  by_cases htypes : types raw = true
  · have hne := types_ne_nul raw htypes
    dsimp only
    rw [if_pos htypes, Option.toList_some, List.mem_singleton]
    split
    · exact hne.1.symm
    · exact hne.2.symm
  · simp [htypes]

theorem nul_not_typed (bytes : List Byte) (s : Decoder) : 0 ∉ typedChars s bytes := by
  induction bytes generalizing s with
  | nil => exact List.not_mem_nil
  | cons raw bytes ih =>
    rw [typedChars, List.mem_append, not_or]
    exact ⟨handleScancode_ne_nul raw s, ih _⟩

/-- Enter runs the command that is named first in the line as it was edited. -/
theorem enter_dispatches (line : Nat) (m : Mem) (bytes : List Byte) :
    ∃ s fed passed r, run (editorStep line) (.boot m) (typedChars .boot bytes) = some s ∧
      lineInput line charNewline s = some fed ∧ fed.passed = some passed ∧
      runLine passed line = some r ∧
      r.dispatch = named line (lineWords (currentLine (typedChars .boot bytes))) := by
  obtain ⟨s, hrun, hagrees⟩ := editor_agrees line m (typedChars .boot bytes)
  obtain ⟨passed, r, hfed, hr, hspells⟩ := lineInput_newline hagrees
  have hstring : CString passed line (currentLine (typedChars .boot bytes)) :=
    hspells.cString_iff.mpr fun h => nul_not_typed bytes .boot (mem_currentLine h)
  obtain ⟨r', hr', hdispatch⟩ := runLine_dispatch hstring hagrees.bound
  rw [hr] at hr'
  cases hr'
  exact ⟨s, _, passed, r, hrun, hfed, rfl, hr, hdispatch⟩

end TomatoOs.Drivers
