import TomatoOs.Lib.Strings
import TomatoOs.Stdio.Numbers

/-!
# kprintf

`kprintf` goes through its format in pieces: an escape sequence, a stretch of text,
or a conversion. A piece that is not what it begins as is passed over with a fixed
step: four bytes at `ESC [` without an `m` behind it, two at a `%` with an unknown
letter. The step loses text, and near the end of the format it goes past the NUL.
-/

namespace TomatoOs.Stdio

open Lib

def esc : Byte := 0x1b

-- ---------------------------------------------------------------------------
-- kprintf
-- ---------------------------------------------------------------------------

/-- What `kprintf` is called with: the memory from the format on, the words that
`va_arg` takes, and the strings some of them point to. -/
structure Call where
  format : Mem
  args : Nat → BitVec 64
  strings : BitVec 64 → List Byte

/-- The local variables: `format` as an offset, the next argument, `written` and
`buf`. -/
structure Print where
  pos : Nat
  arg : Nat
  written : BitVec 32
  buf : Buffer 32

/-- The argument of `flanterm_write`: bytes of the format itself, or others. -/
inductive Write
  | format (off len : Nat)
  | bytes (bs : List Byte)

def Write.length : Write → Nat
  | .format _ len => len
  | .bytes bs => bs.length

def Write.positions : Write → List Nat
  | .format off len => List.range' off len
  | .bytes _ => []

/-- One iteration: the offsets of the format it reads, and either what it writes and
the variables afterwards, or `return -1` with `format` at an offset. -/
inductive Step
  | next (reads : List Nat) (write : Write) (st : Print)
  | giveUp (reads : List Nat) (pos : Nat)

/-- `while (format[n] && format[n] != stop) n++;` -/
def scanTo (m : Mem) (stop : Byte) : Nat → Nat → Option Nat
  | 0, _ => none
  | fuel + 1, p => if m p ≠ 0 ∧ m p ≠ stop then scanTo m stop fuel (p + 1) else some p

def readTo (p q : Nat) : List Nat := List.range' p (q + 1 - p)

def Print.past (st : Print) (pos n : Nat) : Print :=
  { st with pos := pos, written := st.written + BitVec.ofNat 32 n }

def escapeStep (c : Call) (fuel : Nat) (st : Print) : Option Step := do
  let q ← scanTo c.format (ascii 'm') fuel (st.pos + 2)
  if c.format q = ascii 'm' then
    let totalLen := q - (st.pos + 2) + 3
    some (.next (readTo st.pos q) (.format st.pos totalLen) (st.past (q + 1) totalLen))
  else some (.next (readTo st.pos q) (.format st.pos 2) (st.past (st.pos + 4) 2))

def maxrem (written : BitVec 32) : BitVec 64 := (0x7FFFFFFF#32 - written).signExtend 64

def textStep (c : Call) (fuel : Nat) (st : Print) (start : Nat) : Option Step := do
  let q ← scanTo c.format (ascii '%') fuel (start + 1)
  let amount := q - start
  if (maxrem st.written).toNat < amount then some (.giveUp (readTo st.pos q) start)
  else some (.next (readTo st.pos q) (.format start amount) (st.past q amount))

inductive Conversion
  | c
  | s
  | d
  | x
deriving DecidableEq

def conversion? (letter : Byte) : Option Conversion :=
  if letter = ascii 'c' then some .c
  else if letter = ascii 's' then some .s
  else if letter = ascii 'd' then some .d
  else if letter = ascii 'x' then some .x
  else none

def convert (c : Call) (buf : Buffer 32) (word : BitVec 64) :
    Conversion → Option (List Byte × Buffer 32)
  | .c => some ([word.setWidth 8], buf)
  | .s => some (c.strings word, buf)
  | .d => (formatInt buf (word.setWidth 32)).map fun r => (r.1.bytes.take r.2, r.1)
  | .x => (formatHex buf (word.setWidth 32)).map fun r => (r.1.bytes.take r.2, r.1)

def conversionStep (c : Call) (st : Print) : Option Step :=
  let reads := readTo st.pos (st.pos + 1)
  match conversion? (c.format (st.pos + 1)) with
  | some k => (convert c st.buf (c.args st.arg) k).map fun r =>
      .next reads (.bytes r.1)
        { st.past (st.pos + 2) r.1.length with arg := st.arg + 1, buf := r.2 }
  | none => some (.next reads (.format st.pos 1) (st.past (st.pos + 2) 1))

def kprintfStep (c : Call) (fuel : Nat) (st : Print) : Option Step :=
  if c.format st.pos = esc ∧ c.format (st.pos + 1) = ascii '[' then escapeStep c fuel st
  else if c.format st.pos ≠ ascii '%' then textStep c fuel st st.pos
  else if c.format (st.pos + 1) = ascii '%' then textStep c fuel st (st.pos + 1)
  else conversionStep c st

/-- What a call does: what it reads of the format, what it writes, where in the format
it ends, and the result, `none` for `return -1`. -/
structure Trace where
  reads : List Nat
  writes : List Write
  stop : Nat
  result : Option (BitVec 32)

def Trace.after (reads : List Nat) (write : Write) (tr : Trace) : Trace :=
  { tr with reads := reads ++ tr.reads, writes := write :: tr.writes }

def kprintfLoop (c : Call) : Nat → Print → Option Trace
  | 0, _ => none
  | fuel + 1, st =>
    if c.format st.pos = 0 then
      some { reads := [st.pos], writes := [], stop := st.pos, result := some st.written }
    else
      match kprintfStep c fuel st with
      | none => none
      | some (.giveUp reads pos) =>
        some { reads := reads, writes := [], stop := pos, result := none }
      | some (.next reads write st') => (kprintfLoop c fuel st').map (Trace.after reads write)

def kprintf (c : Call) (fuel : Nat) (buf : Buffer 32) : Option Trace :=
  kprintfLoop c fuel { pos := 0, arg := 0, written := 0, buf := buf }

def Trace.positions (tr : Trace) : List Nat := tr.writes.flatMap Write.positions

def Trace.bytes (tr : Trace) : Nat := (tr.writes.map Write.length).sum

-- ---------------------------------------------------------------------------
-- One iteration
-- ---------------------------------------------------------------------------

section
variable {m : Mem} {stop : Byte} {fuel fuel' p q : Nat} {t : List Byte}

theorem scanTo_ge (h : scanTo m stop fuel p = some q) : p ≤ q := by
  induction fuel generalizing p with
  | zero => cases h
  | succ fuel ih =>
    rw [scanTo] at h
    split at h
    · exact (Nat.le_succ p).trans (ih h)
    · exact (Option.some.inj h).le

theorem scanTo_mono (h : scanTo m stop fuel p = some q) (hf : fuel ≤ fuel') :
    scanTo m stop fuel' p = some q := by
  induction fuel generalizing p fuel' with
  | zero => cases h
  | succ fuel ih =>
    obtain ⟨f, rfl⟩ := Nat.exists_eq_add_of_le' hf
    rw [← Nat.add_assoc, scanTo]
    rw [scanTo] at h
    split at h
    · rw [if_pos (by assumption)]
      exact ih h (by omega)
    · rw [if_neg (by assumption)]
      exact h

theorem scanTo_eq (h : CString m p t) (hfuel : t.length < fuel) :
    scanTo m stop fuel p = some (p + (t.takeWhile (· ≠ stop)).length) := by
  induction t generalizing p fuel with
  | nil =>
    obtain ⟨f, rfl⟩ := Nat.exists_eq_add_of_lt hfuel
    rw [scanTo, if_neg (fun hne => hne.1 h)]
    rfl
  | cons x t ih =>
    obtain ⟨f, rfl⟩ := Nat.exists_eq_add_of_lt hfuel
    rw [scanTo, h.2.1]
    by_cases hx : x = stop
    · rw [if_neg (fun hne => hne.2 hx), List.takeWhile_cons_of_neg (by simpa using hx)]
      rfl
    · rw [if_pos ⟨h.1, hx⟩, List.takeWhile_cons_of_pos (by simpa using hx),
        ih h.2.2 (by rw [List.length_cons]; omega), List.length_cons, Nat.add_assoc, Nat.add_comm 1]

theorem scanTo_end (hstop : stop ≠ 0) (h : CString m p t) :
    m (p + (t.takeWhile (· ≠ stop)).length) = stop ↔ stop ∈ t := by
  have hrest := h
  rw [← List.takeWhile_append_dropWhile (p := (· ≠ stop)) (l := t)] at hrest
  rw [hrest.append.head_eq_iff hstop]
  constructor
  · intro hhead
    exact (List.dropWhile_sublist _).subset (List.mem_of_mem_head? hhead)
  · intro hmem
    obtain ⟨r, hr⟩ := dropWhile_of_mem hmem
    rw [hr]
    rfl

end

theorem mem_readTo : r ∈ readTo p q ↔ p ≤ r ∧ r ≤ q := by
  rw [readTo, List.mem_range'_1]
  omega

/-- The iteration reads the character at `p`, and nothing of the format before it is
written then or later. -/
def Step.From (p : Nat) : Step → Prop
  | .next reads write st => p ∈ reads ∧ p ≤ st.pos ∧ ∀ q ∈ write.positions, p ≤ q
  | .giveUp reads _ => p ∈ reads

section
variable {c : Call} {fuel fuel' : Nat} {st : Print} {s : Step}

theorem escapeStep_from (h : escapeStep c fuel st = some s) : s.From st.pos := by
  obtain ⟨q, hq, h⟩ := Option.bind_eq_some_iff.mp h
  have hge := scanTo_ge hq
  have hread : st.pos ∈ readTo st.pos q := mem_readTo.mpr ⟨Nat.le_refl _, by omega⟩
  split at h <;> cases h
  · refine ⟨hread, by simp only [Print.past]; omega, fun r hr => ?_⟩
    exact (List.mem_range'_1.mp hr).1
  · refine ⟨hread, Nat.le_add_right _ _, fun r hr => ?_⟩
    exact (List.mem_range'_1.mp hr).1

theorem textStep_from {start : Nat} (hstart : st.pos ≤ start)
    (h : textStep c fuel st start = some s) : s.From st.pos := by
  obtain ⟨q, hq, h⟩ := Option.bind_eq_some_iff.mp h
  have hge := scanTo_ge hq
  have hread : st.pos ∈ readTo st.pos q := mem_readTo.mpr ⟨Nat.le_refl _, by omega⟩
  simp only at h
  split at h <;> cases h
  · exact hread
  · refine ⟨hread, by simp only [Print.past]; omega, fun r hr => ?_⟩
    exact hstart.trans (List.mem_range'_1.mp hr).1

theorem conversionStep_from (h : conversionStep c st = some s) : s.From st.pos := by
  have hread : st.pos ∈ readTo st.pos (st.pos + 1) :=
    mem_readTo.mpr ⟨Nat.le_refl _, Nat.le_succ _⟩
  unfold conversionStep at h
  simp only at h
  split at h
  · obtain ⟨r, -, rfl⟩ := Option.map_eq_some_iff.mp h
    exact ⟨hread, Nat.le_add_right _ _, fun r hr => by cases hr⟩
  · cases h
    refine ⟨hread, Nat.le_add_right _ _, fun r hr => ?_⟩
    exact (List.mem_range'_1.mp hr).1

theorem kprintfStep_from (h : kprintfStep c fuel st = some s) : s.From st.pos := by
  unfold kprintfStep at h
  split at h
  · exact escapeStep_from h
  split at h
  · exact textStep_from (Nat.le_refl _) h
  split at h
  · exact textStep_from (Nat.le_succ _) h
  · exact conversionStep_from h

theorem kprintfStep_mono (h : kprintfStep c fuel st = some s) (hf : fuel ≤ fuel') :
    kprintfStep c fuel' st = some s := by
  have hscan : ∀ {stop p} {f : Nat → Option Step}, (scanTo c.format stop fuel p).bind f = some s →
      (scanTo c.format stop fuel' p).bind f = some s := by
    intro stop p f hb
    obtain ⟨q, hq, hs⟩ := Option.bind_eq_some_iff.mp hb
    exact Option.bind_eq_some_iff.mpr ⟨q, scanTo_mono hq hf, hs⟩
  unfold kprintfStep at h ⊢
  split at h
  · rw [if_pos (by assumption)]
    exact hscan h
  rw [if_neg (by assumption)]
  split at h
  · rw [if_pos (by assumption)]
    exact hscan h
  rw [if_neg (by assumption)]
  split at h
  · rw [if_pos (by assumption)]
    exact hscan h
  · rw [if_neg (by assumption)]
    exact h

variable {tr : Trace}

theorem Trace.after_positions (reads : List Nat) (write : Write) (tr : Trace) :
    (tr.after reads write).positions = write.positions ++ tr.positions := rfl

theorem Trace.after_bytes (reads : List Nat) (write : Write) (tr : Trace) :
    (tr.after reads write).bytes = write.length + tr.bytes := rfl

theorem kprintfLoop_end (h : c.format st.pos = 0) (fuel : Nat) :
    kprintfLoop c (fuel + 1) st =
      some { reads := [st.pos], writes := [], stop := st.pos, result := some st.written } := by
  rw [kprintfLoop, if_pos h]

theorem kprintfLoop_giveUp {reads : List Nat} {pos : Nat} (h : c.format st.pos ≠ 0)
    (hs : kprintfStep c fuel st = some (.giveUp reads pos)) :
    kprintfLoop c (fuel + 1) st =
      some { reads := reads, writes := [], stop := pos, result := none } := by
  rw [kprintfLoop, if_neg h, hs]

theorem kprintfLoop_next {reads : List Nat} {write : Write} {st' : Print}
    (h : c.format st.pos ≠ 0)
    (hs : kprintfStep c fuel st = some (.next reads write st')) :
    kprintfLoop c (fuel + 1) st = (kprintfLoop c fuel st').map (Trace.after reads write) := by
  rw [kprintfLoop, if_neg h, hs]

/-- How a call returns. -/
theorem kprintfLoop_cases (h : kprintfLoop c (fuel + 1) st = some tr) :
    (c.format st.pos = 0 ∧
      tr = { reads := [st.pos], writes := [], stop := st.pos, result := some st.written }) ∨
    (c.format st.pos ≠ 0 ∧ ∃ reads pos, kprintfStep c fuel st = some (.giveUp reads pos) ∧
      tr = { reads := reads, writes := [], stop := pos, result := none }) ∨
    (c.format st.pos ≠ 0 ∧ ∃ reads write st' tr',
      kprintfStep c fuel st = some (.next reads write st') ∧
      kprintfLoop c fuel st' = some tr' ∧ tr = tr'.after reads write) := by
  by_cases hnul : c.format st.pos = 0
  · rw [kprintfLoop_end hnul] at h
    exact .inl ⟨hnul, (Option.some.inj h).symm⟩
  · refine .inr ?_
    cases hs : kprintfStep c fuel st with
    | none =>
      rw [kprintfLoop, if_neg hnul, hs] at h
      cases h
    | some s =>
      cases s with
      | giveUp reads pos =>
        rw [kprintfLoop_giveUp hnul hs] at h
        exact .inl ⟨hnul, reads, pos, rfl, (Option.some.inj h).symm⟩
      | next reads write st' =>
        rw [kprintfLoop_next hnul hs] at h
        obtain ⟨tr', hloop, htr⟩ := Option.map_eq_some_iff.mp h
        exact .inr ⟨hnul, reads, write, st', tr', rfl, hloop, htr.symm⟩

theorem kprintfLoop_mono (h : kprintfLoop c fuel st = some tr) (hf : fuel ≤ fuel') :
    kprintfLoop c fuel' st = some tr := by
  induction fuel generalizing fuel' st tr with
  | zero => cases h
  | succ fuel ih =>
    obtain ⟨f, rfl⟩ := Nat.exists_eq_add_of_le' hf
    have hle : fuel ≤ f + fuel := Nat.le_add_left _ _
    rcases kprintfLoop_cases h with ⟨hnul, rfl⟩ | ⟨hnul, reads, pos, hs, rfl⟩ |
      ⟨hnul, reads, write, st', tr', hs, hloop, rfl⟩
    · exact kprintfLoop_end hnul _
    · exact kprintfLoop_giveUp hnul (kprintfStep_mono hs hle)
    · rw [← Nat.add_assoc, kprintfLoop_next hnul (kprintfStep_mono hs hle), ih hloop hle]
      rfl

theorem kprintfLoop_from (h : kprintfLoop c fuel st = some tr) :
    st.pos ∈ tr.reads ∧ ∀ q ∈ tr.positions, st.pos ≤ q := by
  induction fuel generalizing st tr with
  | zero => cases h
  | succ fuel ih =>
    rcases kprintfLoop_cases h with ⟨-, rfl⟩ | ⟨-, reads, pos, hs, rfl⟩ |
      ⟨-, reads, write, st', tr', hs, hloop, rfl⟩
    · exact ⟨List.mem_singleton_self _, fun q hq => by cases hq⟩
    · exact ⟨kprintfStep_from hs, fun q hq => by cases hq⟩
    · obtain ⟨hread, hpos, hwrite⟩ := kprintfStep_from hs
      refine ⟨List.mem_append_left _ hread, fun q hq => ?_⟩
      rw [Trace.after_positions] at hq
      rcases List.mem_append.mp hq with hq | hq
      · exact hwrite q hq
      · exact hpos.trans ((ih hloop).2 q hq)

end

end TomatoOs.Stdio
