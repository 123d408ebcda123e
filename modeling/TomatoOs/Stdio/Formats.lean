import TomatoOs.Stdio.Printf

/-!
# Formats

A format is literal characters and conversion specifications. `pieces` is what the
iterations of `kprintf` make of it; where every piece is fine, the call reads the format
to its NUL, writes the literal characters once and in order, and returns the length of
the output.
-/

namespace TomatoOs.Stdio

open Lib

-- ---------------------------------------------------------------------------
-- The format
-- ---------------------------------------------------------------------------

/-- A `%` and one of these letters is a conversion specification. -/
def specifies (letter : Byte) : Bool := letter = ascii '%' || (conversion? letter).isSome

def literals : Nat → List Byte → List Nat
  | _, [] => []
  | p, [_] => [p]
  | p, x :: letter :: t =>
    if x = ascii '%' ∧ specifies letter then literals (p + 2) t
    else p :: literals (p + 1) (letter :: t)

inductive Piece
  | escape (bs : List Byte)
  | cutEscape (lost : List Byte)
  | text (percent : Bool) (bs : List Byte)
  | conversion (k : Conversion)
  | unknown

def firstPiece (x : Byte) (t : List Byte) : Piece :=
  if x = esc ∧ t.head? = some (ascii '[') then
    if ascii 'm' ∈ t.tail then
      .escape (x :: ascii '[' :: (t.tail.takeWhile (· ≠ ascii 'm') ++ [ascii 'm']))
    else .cutEscape (t.tail.take 2)
  else if x ≠ ascii '%' then .text false (x :: t.takeWhile (· ≠ ascii '%'))
  else if t.head? = some (ascii '%') then
    .text true (ascii '%' :: t.tail.takeWhile (· ≠ ascii '%'))
  else (t.head?.bind conversion?).elim .unknown .conversion

def Piece.width : Piece → Nat
  | .escape bs => bs.length
  | .cutEscape _ => 4
  | .text percent bs => percent.toNat + bs.length
  | .conversion _ => 2
  | .unknown => 2

theorem firstPiece_width_pos (x : Byte) (t : List Byte) : 0 < (firstPiece x t).width := by
  unfold firstPiece
  split
  · split <;> simp [Piece.width]
  · split
    · simp [Piece.width]
    · split
      · simp [Piece.width]
      · cases t.head?.bind conversion? <;> simp [Piece.width]

def pieces : List Byte → List Piece
  | [] => []
  | x :: t => firstPiece x t :: pieces ((x :: t).drop (firstPiece x t).width)
termination_by text => text.length
decreasing_by
  have := firstPiece_width_pos x t
  rw [List.length_drop, List.length_cons]
  omega

def piecesWithin : Nat → List Byte → List Piece
  | 0, _ => []
  | _ + 1, [] => []
  | fuel + 1, x :: t => firstPiece x t :: piecesWithin fuel ((x :: t).drop (firstPiece x t).width)

theorem pieces_eq_within (h : text.length ≤ fuel) : pieces text = piecesWithin fuel text := by
  induction fuel generalizing text with
  | zero =>
    obtain rfl := List.length_eq_zero_iff.mp (Nat.le_zero.mp h)
    rw [pieces, piecesWithin]
  | succ fuel ih =>
    cases text with
    | nil => rw [pieces, piecesWithin]
    | cons x t =>
      have hwidth := firstPiece_width_pos x t
      rw [pieces, piecesWithin, ih]
      rw [List.length_drop]
      rw [List.length_cons] at h ⊢
      omega

/-- The piece loses nothing: a conversion with a known letter, an escape sequence that
ends, or one that does not and has a conversion specification behind its `ESC [`. -/
def Piece.Fine : Piece → Prop
  | .cutEscape lost => ∃ letter, lost = [ascii '%', letter] ∧ specifies letter
  | .unknown => False
  | _ => True

/-- No conversion is lost in the piece, and no `%` of it is written as it stands. -/
def Piece.Plain : Piece → Bool
  | .escape bs => !bs.contains (ascii '%')
  | .text _ _ | .conversion _ => true
  | .cutEscape _ | .unknown => false

theorem Piece.Plain.fine {piece : Piece} (h : piece.Plain = true) : piece.Fine := by
  cases piece with
  | cutEscape | unknown => cases h
  | _ => trivial

/-- What the code writes for a conversion. -/
def converted (c : Call) (word : BitVec 64) : Conversion → List Byte
  | .c => [word.setWidth 8]
  | .s => c.strings word
  | .d => shownInt (word.setWidth 32)
  | .x => ascii '0' :: ascii 'x' :: numeral 16 (word.setWidth 32).toNat

def Piece.output (c : Call) (arg : Nat) : Piece → List Byte
  | .escape bs => bs
  | .cutEscape _ => [esc, ascii '[']
  | .text _ bs => bs
  | .conversion k => converted c (c.args arg) k
  | .unknown => [ascii '%']

def Piece.args : Piece → Nat
  | .conversion _ => 1
  | _ => 0

def output (c : Call) : Nat → List Piece → List Byte
  | _, [] => []
  | arg, piece :: rest => piece.output c arg ++ output c (arg + piece.args) rest

-- ---------------------------------------------------------------------------
-- The pieces of the format
-- ---------------------------------------------------------------------------

def Piece.write (c : Call) (p arg : Nat) : Piece → Write
  | .escape bs => .format p bs.length
  | .cutEscape _ => .format p 2
  | .text percent bs => .format (p + percent.toNat) bs.length
  | .conversion k => .bytes (converted c (c.args arg) k)
  | .unknown => .format p 1

theorem Piece.write_length (c : Call) (p arg : Nat) (piece : Piece) :
    (piece.write c p arg).length = (piece.output c arg).length := by
  cases piece <;> rfl

def Takes (c : Call) (st : Print) (last : Nat) (piece : Piece) : Step → Prop
  | .giveUp _ pos => pos < last ∧ (maxrem st.written).toNat < (piece.output c st.arg).length
  | .next reads write st' =>
    (∀ r ∈ reads, r ≤ last) ∧ write = piece.write c st.pos st.arg ∧
      st'.pos = st.pos + piece.width ∧ st'.arg = st.arg + piece.args ∧
      st'.written = st.written + BitVec.ofNat 32 (piece.output c st.arg).length

section
variable {c : Call} {fuel : Nat} {st : Print} {x : Byte} {t : List Byte}

theorem escapeStep_takes (h : CString c.format (st.pos + 2) t) (hfuel : t.length < fuel)
    (hm : ascii 'm' ∈ t) :
    ∃ s, escapeStep c fuel st = some s ∧ Takes c st (st.pos + 2 + t.length)
      (.escape (esc :: ascii '[' :: (t.takeWhile (· ≠ ascii 'm') ++ [ascii 'm']))) s := by
  have hle := (List.takeWhile_sublist (· ≠ ascii 'm') (l := t)).length_le
  rw [escapeStep, scanTo_eq h hfuel, Option.bind_eq_bind, Option.bind_some,
    if_pos ((scanTo_end (by decide) h).mpr hm)]
  refine ⟨_, rfl, fun r hr => ?_, ?_, ?_, rfl, ?_⟩
  · have := mem_readTo.mp hr
    omega
  · simp only [Piece.write, List.length_cons, List.length_append, List.length_nil]
    congr 1
    omega
  · simp only [Piece.width, Print.past, List.length_cons, List.length_append, List.length_nil]
    omega
  · simp only [Piece.output, Print.past, List.length_cons, List.length_append, List.length_nil]
    congr 2
    omega

theorem escapeStep_takes_cut (h : CString c.format (st.pos + 2) t) (hfuel : t.length < fuel)
    (hm : ascii 'm' ∉ t) (lost : List Byte) :
    ∃ s, escapeStep c fuel st = some s ∧
      Takes c st (st.pos + 2 + t.length) (.cutEscape lost) s := by
  have hle := (List.takeWhile_sublist (· ≠ ascii 'm') (l := t)).length_le
  rw [escapeStep, scanTo_eq h hfuel, Option.bind_eq_bind, Option.bind_some,
    if_neg (mt (scanTo_end (by decide) h).mp hm)]
  refine ⟨_, rfl, fun r hr => ?_, rfl, rfl, rfl, rfl⟩
  have := mem_readTo.mp hr
  omega

theorem textStep_takes (percent : Bool)
    (h : CString c.format (st.pos + percent.toNat) (x :: t)) (hfuel : t.length < fuel) :
    ∃ s, textStep c fuel st (st.pos + percent.toNat) = some s ∧
      Takes c st (st.pos + percent.toNat + (x :: t).length)
        (.text percent (x :: t.takeWhile (· ≠ ascii '%'))) s := by
  have hle := (List.takeWhile_sublist (· ≠ ascii '%') (l := t)).length_le
  rw [textStep, scanTo_eq h.2.2 hfuel, Option.bind_eq_bind, Option.bind_some]
  have hamount : st.pos + percent.toNat + 1 + (t.takeWhile (· ≠ ascii '%')).length -
      (st.pos + percent.toNat) = (x :: t.takeWhile (· ≠ ascii '%')).length := by
    rw [List.length_cons]
    omega
  simp only [hamount]
  split
  · refine ⟨_, rfl, ?_, by assumption⟩
    rw [List.length_cons]
    omega
  · refine ⟨_, rfl, fun r hr => ?_, rfl, ?_, rfl, rfl⟩
    · have := mem_readTo.mp hr
      rw [List.length_cons]
      omega
    · simp only [Piece.width, Print.past, List.length_cons]
      omega

theorem wrote_take {r : Option (Buffer size × Nat)} (h : Wrote r text) :
    ∃ b, r.map (fun r => (r.1.bytes.take r.2, r.1)) = some (text, b) := by
  obtain ⟨b, rfl, hpre⟩ := h
  exact ⟨b, by rw [Option.map_some, ← List.prefix_iff_eq_take.mp hpre]⟩

theorem convert_eq (c : Call) (buf : Buffer 32) (word : BitVec 64) (k : Conversion) :
    ∃ buf', convert c buf word k = some (converted c word k, buf') := by
  cases k with
  | c => exact ⟨buf, rfl⟩
  | s => exact ⟨buf, rfl⟩
  | d => exact wrote_take (formatInt_eq buf (word.setWidth 32))
  | x => exact wrote_take (formatHex_eq buf (word.setWidth 32))

theorem conversionStep_takes (h : CString c.format (st.pos + 1) t) :
    ∃ s, conversionStep c st = some s ∧ Takes c st (st.pos + 1 + t.length)
      ((t.head?.bind conversion?).elim .unknown .conversion) s := by
  have hreads : ∀ r ∈ readTo st.pos (st.pos + 1), r ≤ st.pos + 1 + t.length := fun r hr => by
    have := mem_readTo.mp hr
    omega
  have hletter : conversion? (c.format (st.pos + 1)) = t.head?.bind conversion? := by
    rw [h.head]
    cases t <;> rfl
  rw [conversionStep, hletter]
  cases t.head?.bind conversion? with
  | none => exact ⟨_, rfl, hreads, rfl, rfl, rfl, rfl⟩
  | some k =>
    obtain ⟨buf', hconvert⟩ := convert_eq c st.buf (c.args st.arg) k
    simp only [hconvert]
    exact ⟨_, rfl, hreads, rfl, rfl, rfl, rfl⟩

theorem kprintfStep_takes (h : CString c.format st.pos (x :: t)) (hfuel : t.length < fuel) :
    ∃ s, kprintfStep c fuel st = some s ∧
      Takes c st (st.pos + (x :: t).length) (firstPiece x t) s := by
  have hbracket := h.2.2.head_eq_iff (by decide : ascii '[' ≠ 0)
  have hpercent := h.2.2.head_eq_iff (by decide : ascii '%' ≠ 0)
  rw [kprintfStep, firstPiece, h.2.1]
  simp only [hbracket, hpercent]
  by_cases hesc : x = esc ∧ t.head? = some (ascii '[')
  · rw [if_pos hesc, if_pos hesc]
    obtain ⟨rfl, hhead⟩ := hesc
    obtain ⟨r, rfl⟩ := List.head?_eq_some_iff.mp hhead
    have hlast : st.pos + (esc :: ascii '[' :: r).length = st.pos + 2 + r.length := by
      simp only [List.length_cons]
      omega
    rw [List.length_cons] at hfuel
    rw [hlast, List.tail_cons]
    split
    · exact escapeStep_takes h.2.2.2.2 (by omega) (by assumption)
    · exact escapeStep_takes_cut h.2.2.2.2 (by omega) (by assumption) _
  rw [if_neg hesc, if_neg hesc]
  by_cases htext : x ≠ ascii '%'
  · rw [if_pos htext, if_pos htext]
    exact textStep_takes false h hfuel
  rw [if_neg htext, if_neg htext]
  by_cases hdouble : t.head? = some (ascii '%')
  · rw [if_pos hdouble, if_pos hdouble]
    obtain ⟨r, rfl⟩ := List.head?_eq_some_iff.mp hdouble
    rw [List.length_cons] at hfuel
    have htakes := textStep_takes true h.2.2 (by omega : r.length < fuel)
    rwa [Bool.toNat_true, Nat.add_assoc, Nat.add_comm 1] at htakes
  · rw [if_neg hdouble, if_neg hdouble, List.length_cons, Nat.add_comm t.length, ← Nat.add_assoc]
    exact conversionStep_takes h.2.2

end

-- ---------------------------------------------------------------------------
-- Literal characters
-- ---------------------------------------------------------------------------

theorem literals_cons_ne (p : Nat) (t : List Byte) (hx : x ≠ ascii '%') :
    literals p (x :: t) = p :: literals (p + 1) t := by
  cases t with
  | nil => rfl
  | cons letter t => rw [literals, if_neg fun h => hx h.1]

theorem literals_specification (p : Nat) (t : List Byte) (h : specifies letter = true) :
    literals p (ascii '%' :: letter :: t) = literals (p + 2) t := by
  rw [literals, if_pos ⟨rfl, h⟩]

theorem literals_sublist (p : Nat) (t : List Byte) :
    (literals p t).Sublist (List.range' p t.length) := by
  fun_induction literals p t with
  | case1 => exact List.Sublist.slnil
  | case2 => exact List.Sublist.refl _
  | case3 p x letter t _ ih => exact (ih.cons _).cons _
  | case4 p x letter t _ ih => exact ih.cons_cons _

theorem literals_bounds (h : q ∈ literals p t) : p ≤ q ∧ q < p + t.length :=
  List.mem_range'_1.mp ((literals_sublist p t).subset h)

/-- A conversion specification does not go over the end of a text that does not end
in `%`. -/
theorem literals_append (p : Nat) (a t : List Byte) (ha : ascii '%' ∉ a.getLast?) :
    literals p (a ++ t) = literals p a ++ literals (p + a.length) t := by
  fun_induction literals p a with
  | case1 => rfl
  | case2 p x => exact literals_cons_ne p t (by simpa using ha)
  | case3 p x letter a hspec ih =>
    have ha' : ascii '%' ∉ a.getLast? := by
      cases a with
      | nil => simp
      | cons y a => simpa using ha
    rw [List.cons_append, List.cons_append, literals, if_pos hspec, ih ha', List.length_cons,
      List.length_cons, Nat.add_assoc, Nat.add_comm 2]
  | case4 p x letter a hspec ih =>
    have ha' : ascii '%' ∉ (letter :: a).getLast? := by simpa using ha
    have hlen : p + (x :: letter :: a).length = p + 1 + (letter :: a).length := by
      simp only [List.length_cons]
      omega
    rw [List.cons_append, List.cons_append, literals, if_neg hspec, ← List.cons_append, ih ha',
      hlen]
    rfl

theorem not_last_of_not_mem {a : List Byte} (ha : y ∉ a) : y ∉ a.getLast? :=
  fun h => ha (List.mem_of_getLast? h)

inductive Begins : Piece → List Byte → Prop
  | escape (s r) : Begins (.escape (esc :: ascii '[' :: (s ++ [ascii 'm'])))
      (esc :: ascii '[' :: (s ++ ascii 'm' :: r))
  | cutEscape (s) : Begins (.cutEscape (s.take 2)) (esc :: ascii '[' :: s)
  | text (x s r) (hx : x ≠ ascii '%') (hs : ascii '%' ∉ s) :
      Begins (.text false (x :: s)) (x :: (s ++ r))
  | percent (s r) (hs : ascii '%' ∉ s) :
      Begins (.text true (ascii '%' :: s)) (ascii '%' :: ascii '%' :: (s ++ r))
  | conversion (letter r k) (hk : conversion? letter = some k) :
      Begins (.conversion k) (ascii '%' :: letter :: r)
  | ended : Begins .unknown [ascii '%']
  | unknown (letter r) (hp : letter ≠ ascii '%') (hk : conversion? letter = none) :
      Begins .unknown (ascii '%' :: letter :: r)

theorem firstPiece_begins (x : Byte) (t : List Byte) : Begins (firstPiece x t) (x :: t) := by
  have hrun : ∀ l : List Byte, ascii '%' ∉ l.takeWhile (· ≠ ascii '%') := fun l h => by
    simpa using List.mem_takeWhile_imp h
  have hsplit : ∀ l : List Byte,
      l.takeWhile (· ≠ ascii '%') ++ l.dropWhile (· ≠ ascii '%') = l := fun l =>
    List.takeWhile_append_dropWhile
  unfold firstPiece
  split
  · obtain ⟨rfl, hhead⟩ := ‹x = esc ∧ _›
    obtain ⟨s, rfl⟩ := List.head?_eq_some_iff.mp hhead
    rw [List.tail_cons]
    split
    · obtain ⟨r, hr⟩ := dropWhile_of_mem ‹ascii 'm' ∈ s›
      have hs := List.takeWhile_append_dropWhile (p := (· ≠ ascii 'm')) (l := s)
      have hb := Begins.escape (s.takeWhile (· ≠ ascii 'm')) r
      rwa [← hr, hs] at hb
    · exact .cutEscape s
  split
  · have hb := Begins.text x _ (t.dropWhile (· ≠ ascii '%')) ‹x ≠ ascii '%'› (hrun t)
    rwa [hsplit] at hb
  have hx : x = ascii '%' := not_not.mp ‹¬x ≠ ascii '%'›
  subst hx
  cases t with
  | nil => exact .ended
  | cons letter r =>
    rw [List.head?_cons, List.tail_cons]
    split
    · obtain rfl := Option.some.inj ‹some letter = some (ascii '%')›
      have hb := Begins.percent _ (r.dropWhile (· ≠ ascii '%')) (hrun r)
      rwa [hsplit] at hb
    · have hp : letter ≠ ascii '%' := fun h => ‹¬some letter = _› (congrArg some h)
      rw [Option.bind_some]
      cases hk : conversion? letter with
      | none => exact .unknown letter r hp hk
      | some k => exact .conversion letter r k hk

section
variable {piece : Piece} {t : List Byte}

/-- The text of a piece that loses nothing: no conversion specification goes over its
end, and its literal characters are written. -/
theorem Begins.fine (h : Begins piece t) (hfine : piece.Fine) (c : Call) (p arg : Nat) :
    ∃ a r, t = a ++ r ∧ a.length = piece.width ∧
      literals p t = literals p a ++ literals (p + a.length) r ∧
      Covers (piece.write c p arg).positions (literals p a) := by
  cases h with
  | escape s r =>
    refine ⟨esc :: ascii '[' :: (s ++ [ascii 'm']), r, by simp, rfl, ?_, ?_⟩
    · have happ := literals_append p (esc :: ascii '[' :: (s ++ [ascii 'm'])) r
        (by simp [List.getLast?_cons]; decide)
      rw [← happ]
      simp
    · exact covers_of_sublist (literals_sublist p _) List.nodup_range'
  | cutEscape s =>
    -- the two bytes that are passed over are a conversion specification
    obtain ⟨letter, hlost, hspec⟩ := hfine
    have hs := List.take_append_drop 2 s
    rw [hlost] at hs
    have hlit : ∀ r, literals p (esc :: ascii '[' :: ascii '%' :: letter :: r) =
        p :: (p + 1) :: literals (p + 4) r := fun r => by
      rw [literals_cons_ne p _ (by decide), literals_cons_ne _ _ (by decide),
        literals_specification _ _ hspec]
    refine ⟨[esc, ascii '[', ascii '%', letter], s.drop 2, by rw [← hs]; rfl, rfl, ?_, ?_⟩
    · rw [hlit, ← hs]
      exact hlit _
    · rw [hlit]
      exact covers_of_sublist (List.Sublist.refl [p, p + 1]) List.nodup_range'
  | text x s r hx hs =>
    refine ⟨x :: s, r, rfl, by simp [Piece.width], ?_, ?_⟩
    · refine literals_append p (x :: s) r (not_last_of_not_mem ?_)
      simp [hs, hx.symm]
    · exact covers_of_sublist (literals_sublist p _) List.nodup_range'
  | percent s r hs =>
    have hspec : specifies (ascii '%') = true := by decide
    refine ⟨ascii '%' :: ascii '%' :: s, r, rfl, by simp [Piece.width, Nat.add_comm], ?_, ?_⟩
    · rw [literals_specification _ _ hspec, literals_specification _ _ hspec,
        literals_append _ _ _ (not_last_of_not_mem hs), List.length_cons, List.length_cons,
        Nat.add_assoc, Nat.add_comm 2]
    · rw [literals_specification _ _ hspec]
      exact covers_of_sublist ((literals_sublist _ s).cons _) List.nodup_range'
  | conversion letter r k hk =>
    have hspec : specifies letter = true := by simp [specifies, hk]
    refine ⟨[ascii '%', letter], r, rfl, rfl, ?_, ?_⟩
    · rw [literals_specification _ _ hspec, literals_specification _ _ hspec]
      rfl
    · rw [literals_specification _ _ hspec]
      rfl
  | ended => exact hfine.elim
  | unknown => exact hfine.elim

theorem Begins.not_fine (h : Begins piece t) (hfine : ¬piece.Fine) (c : Call) (p arg : Nat) :
    t.length < piece.width ∨
      ∃ q ∈ literals p t, q < p + piece.width ∧ q ∉ (piece.write c p arg).positions := by
  cases h with
  | escape => exact absurd trivial hfine
  | cutEscape s =>
    match s with
    | [] => exact .inl (by simp [Piece.width])
    | [_] => exact .inl (by simp [Piece.width])
    | x :: letter :: r =>
      refine .inr ⟨p + 2, ?_, ?_, ?_⟩
      · have hspec : ¬(x = ascii '%' ∧ specifies letter = true) := by
          rintro ⟨rfl, h⟩
          exact hfine ⟨letter, rfl, h⟩
        rw [literals_cons_ne p _ (by decide), literals_cons_ne _ _ (by decide), literals,
          if_neg hspec]
        simp
      · simp [Piece.width]
      · simp [Piece.write, Write.positions]
  | text => exact absurd trivial hfine
  | percent => exact absurd trivial hfine
  | conversion => exact absurd trivial hfine
  | ended => exact .inl (by simp [Piece.width])
  | unknown letter r hp hk =>
    refine .inr ⟨p + 1, ?_, by simp [Piece.width], by simp [Piece.write, Write.positions]⟩
    have hspec : ¬(ascii '%' = ascii '%' ∧ specifies letter = true) := by
      simp [specifies, hp, hk]
    rw [literals, if_neg hspec, literals_cons_ne _ _ hp]
    simp

theorem Piece.positions_lt (c : Call) (p arg : Nat) (piece : Piece) :
    ∀ q ∈ (piece.write c p arg).positions, q < p + piece.width := by
  intro q hq
  cases piece with
  | conversion k => cases hq
  | _ =>
    have := List.mem_range'_1.mp hq
    simp only [Piece.width]
    omega

end

-- ---------------------------------------------------------------------------
-- The whole format
-- ---------------------------------------------------------------------------

/-- From `p` on, with `n` bytes written before, the call takes a format exactly as it
is: it reads no further than the NUL and ends there, writes the literal characters once
and in order, and returns how many bytes it wrote. -/
structure Trace.Exact (tr : Trace) (n p : Nat) (t : List Byte) : Prop where
  reads : ∀ r ∈ tr.reads, r ≤ p + t.length
  stop : tr.stop = p + t.length
  literals : Covers tr.positions (literals p t)
  count : ∀ w, tr.result = some w → w.toInt = n + tr.bytes

theorem exact_after_iff {reads : List Nat} {tr : Trace} (c : Call) (arg : Nat)
    (hbegins : Begins piece t) (hreads : ∀ r ∈ reads, r ≤ p + t.length)
    (hstart : p + piece.width ∈ tr.reads) (hpos : ∀ q ∈ tr.positions, p + piece.width ≤ q) :
    (tr.after reads (piece.write c p arg)).Exact n p t ↔
      piece.Fine ∧
        tr.Exact (n + (piece.output c arg).length) (p + piece.width) (t.drop piece.width) := by
  by_cases hfine : piece.Fine
  · obtain ⟨a, r, rfl, hwidth, hlit, hcovers⟩ := hbegins.fine hfine c p arg
    rw [← hwidth, List.drop_left]
    rw [← hwidth] at hpos
    have hlast : p + (a ++ r).length = p + a.length + r.length := by
      rw [List.length_append, Nat.add_assoc]
    have hsplit : Covers (tr.after reads (piece.write c p arg)).positions (literals p (a ++ r)) ↔
        Covers tr.positions (literals (p + a.length) r) := by
      rw [Trace.after_positions, hlit, covers_append_iff (fun q => decide (q < p + a.length)),
        and_iff_right hcovers]
      · exact fun q hq => decide_eq_true (hwidth ▸ piece.positions_lt c p arg q hq)
      · exact fun q hq => decide_eq_true (literals_bounds hq).2
      · exact fun q hq => decide_eq_false (Nat.not_lt.mpr (hpos q hq))
      · exact fun q hq => decide_eq_false (Nat.not_lt.mpr (literals_bounds hq).1)
    have hcount : ((n + (piece.output c arg).length : Nat) : Int) + tr.bytes =
        n + ((tr.after reads (piece.write c p arg)).bytes : Int) := by
      rw [Trace.after_bytes, Piece.write_length]
      omega
    constructor
    · intro h
      refine ⟨hfine, fun r hr => ?_, ?_, hsplit.mp h.literals, fun w hw => ?_⟩
      · exact hlast ▸ h.reads r (List.mem_append_right _ hr)
      · exact hlast ▸ h.stop
      · exact hcount ▸ h.count w hw
    · rintro ⟨-, h⟩
      refine ⟨fun r hr => ?_, ?_, hsplit.mpr h.literals, fun w hw => ?_⟩
      · rcases List.mem_append.mp hr with hr | hr
        · exact hreads r hr
        · exact hlast ▸ h.reads r hr
      · exact hlast ▸ h.stop
      · exact hcount ▸ h.count w hw
  · refine iff_of_false (fun h => ?_) (fun h => hfine h.1)
    rcases hbegins.not_fine hfine c p arg with hpast | ⟨q, hq, hlt, hnot⟩
    · have := h.reads _ (List.mem_append_right _ hstart)
      omega
    · rcases List.mem_append.mp (h.literals.mem hq) with hq | hq
      · exact hnot hq
      · have := hpos q hq
        omega

theorem exists_after_iff {c : Call} {fuel : Nat} {st' : Print} {reads : List Nat} (arg : Nat)
    (hbegins : Begins piece t) (hreads : ∀ r ∈ reads, r ≤ p + t.length)
    (hpos : st'.pos = p + piece.width) :
    (∃ tr, (kprintfLoop c fuel st').map (Trace.after reads (piece.write c p arg)) = some tr ∧
        tr.Exact n p t) ↔
      piece.Fine ∧ ∃ tr, kprintfLoop c fuel st' = some tr ∧
        tr.Exact (n + (piece.output c arg).length) st'.pos (t.drop piece.width) := by
  have hafter : ∀ tr, kprintfLoop c fuel st' = some tr → _ := fun tr htr =>
    exact_after_iff (n := n) c arg hbegins hreads (hpos ▸ (kprintfLoop_from htr).1)
      (hpos ▸ (kprintfLoop_from htr).2)
  rw [hpos]
  constructor
  · rintro ⟨_, hloop, hexact⟩
    obtain ⟨tr, htr, rfl⟩ := Option.map_eq_some_iff.mp hloop
    obtain ⟨hfine, hrest⟩ := (hafter tr htr).mp hexact
    exact ⟨hfine, tr, htr, hrest⟩
  · rintro ⟨hfine, tr, htr, hrest⟩
    refine ⟨_, Option.map_eq_some_iff.mpr ⟨tr, htr, rfl⟩, ?_⟩
    exact (hafter tr htr).mpr ⟨hfine, hrest⟩

theorem maxrem_lt {n amount : Nat} (h : (maxrem (BitVec.ofNat 32 n)).toNat < amount) :
    0x7FFFFFFF < n + amount := by
  by_contra hle
  have hsub : (0x7FFFFFFF#32 - BitVec.ofNat 32 n).toNat = 0x7FFFFFFF - n := by
    rw [BitVec.toNat_sub, BitVec.toNat_ofNat, BitVec.toNat_ofNat]
    omega
  have hmsb : (0x7FFFFFFF#32 - BitVec.ofNat 32 n).msb = false := by
    rw [BitVec.msb_eq_false_iff_two_mul_lt, hsub]
    omega
  rw [maxrem, BitVec.signExtend_eq_setWidth_of_msb_false hmsb, BitVec.toNat_setWidth, hsub] at h
  omega

theorem ofNat_toInt_eq (n : Nat) : (BitVec.ofNat 32 n).toInt = n ↔ n ≤ 0x7FFFFFFF := by
  rw [BitVec.toInt_eq_toNat_cond, BitVec.toNat_ofNat]
  split <;> omega

theorem Begins.width_le (h : Begins piece t) (hfine : piece.Fine) (c : Call) :
    piece.width ≤ t.length := by
  obtain ⟨a, r, rfl, hwidth, -⟩ := h.fine hfine c 0 0
  rw [← hwidth, List.length_append]
  exact Nat.le_add_right _ _

theorem exact_end_iff (st : Print) (hn : st.written = BitVec.ofNat 32 n) :
    Trace.Exact { reads := [st.pos], writes := [], stop := st.pos, result := some st.written }
      n st.pos [] ↔ n ≤ 0x7FFFFFFF := by
  rw [← ofNat_toInt_eq, ← hn]
  constructor
  · intro h
    exact h.count _ rfl
  · intro h
    refine ⟨by simp, rfl, rfl, fun w hw => ?_⟩
    cases hw
    exact h

theorem kprintfLoop_exact_iff {c : Call} {fuel : Nat} (st : Print) {t : List Byte}
    (h : CString c.format st.pos t) (hfuel : t.length < fuel)
    (hn : st.written = BitVec.ofNat 32 n) :
    (∃ tr, kprintfLoop c fuel st = some tr ∧ tr.Exact n st.pos t) ↔
      (∀ piece ∈ pieces t, piece.Fine) ∧
        n + (output c st.arg (pieces t)).length ≤ 0x7FFFFFFF := by
  induction fuel generalizing st t n with
  | zero => omega
  | succ fuel ih =>
    cases t with
    | nil =>
      rw [kprintfLoop_end h]
      simp [exact_end_iff st hn, pieces, output]
    | cons x t =>
      rw [List.length_cons] at hfuel
      obtain ⟨s, hs, htakes⟩ := kprintfStep_takes h (by omega : t.length < fuel)
      have hbegins := firstPiece_begins x t
      have hwidth := firstPiece_width_pos x t
      rw [pieces, output, List.forall_mem_cons, List.length_append, ← Nat.add_assoc]
      generalize firstPiece x t = piece at htakes hbegins hwidth ⊢
      cases s with
      | giveUp reads pos =>
        -- more than `INT_MAX` bytes
        obtain ⟨hpos, hmax⟩ := htakes
        rw [hn] at hmax
        have hlong := maxrem_lt hmax
        refine iff_of_false ?_ (fun hright => by omega)
        rw [kprintfLoop_giveUp (h.2.1 ▸ h.1) hs]
        rintro ⟨tr, htr, hexact⟩
        cases htr
        exact absurd hexact.stop (Nat.ne_of_lt hpos)
      | next reads write st' =>
        obtain ⟨hreads, rfl, hpos, harg, hwritten⟩ := htakes
        rw [kprintfLoop_next (h.2.1 ▸ h.1) hs, exists_after_iff st.arg hbegins hreads hpos, and_assoc]
        refine and_congr_right fun hfine => ?_
        have hnext := h.drop (hbegins.width_le hfine c)
        have hn' : st'.written = BitVec.ofNat 32 (n + (piece.output c st.arg).length) := by
          rw [hwritten, hn, BitVec.ofNat_add]
        rw [← harg]
        exact ih st' (hpos ▸ hnext) (by rw [List.length_drop, List.length_cons]; omega) hn'

/-- `kprintf` takes its format exactly as it is if it is made of text, escape sequences
that end and conversions with known letters, and the output has a length that an `int`
can hold; and in no other case but one: the two bytes that are passed over behind
`ESC [` are a conversion specification. -/
theorem kprintf_exact_iff (c : Call) (buf : Buffer 32) (text : List Byte)
    (h : CString c.format 0 text) :
    (∃ fuel tr, kprintf c fuel buf = some tr ∧ (∀ r ∈ tr.reads, r ≤ text.length) ∧
      tr.stop = text.length ∧ tr.positions.filter (· ∈ literals 0 text) = literals 0 text ∧
      ∀ w, tr.result = some w → w.toInt = tr.bytes) ↔
    (∀ piece ∈ pieces text, piece.Fine) ∧ (output c 0 (pieces text)).length ≤ 0x7FFFFFFF := by
  have hrun : ∀ fuel, text.length < fuel → _ := fun fuel hfuel =>
    kprintfLoop_exact_iff ⟨0, 0, 0, buf⟩ h hfuel (rfl : _ = BitVec.ofNat 32 0)
  simp only [Nat.zero_add] at hrun
  constructor
  · rintro ⟨fuel, tr, htr, hreads, hstop, hlit, hcount⟩
    refine (hrun (fuel + text.length + 1) (by omega)).mp ⟨tr, ?_, ?_⟩
    · exact kprintfLoop_mono htr (by omega)
    · exact ⟨by simpa using hreads, by simpa using hstop, hlit, by simpa using hcount⟩
  · intro hclean
    obtain ⟨tr, htr, hexact⟩ := (hrun (text.length + 1) (Nat.lt_succ_self _)).mpr hclean
    refine ⟨text.length + 1, tr, htr, ?_, ?_, hexact.literals, ?_⟩
    · simpa using hexact.reads
    · simpa using hexact.stop
    · simpa using hexact.count

def plainCall (text : List Byte) : Call where
  format i := text.getD i 0
  args _ := 0
  strings _ := []

def loadText : List Byte :=
  [esc, ascii '[', ascii '1', ascii 'm', ascii '%', ascii 's', ascii ' ', ascii '%', ascii 'd',
    ascii '%', ascii '%', esc, ascii '[', ascii '0', ascii 'm', ascii '\n']

def loadCall : Call :=
  { plainCall loadText with
    args := fun n => BitVec.ofNat 64 (41 + n)
    strings := fun _ => [ascii 'c', ascii 'p', ascii 'u'] }

theorem kprintf_exact_iff_load :
    let buf : Buffer 32 := ⟨List.replicate 32 0, rfl⟩
    ∃ fuel tr, kprintf loadCall fuel buf = some tr ∧ (∀ r ∈ tr.reads, r ≤ 16) ∧ tr.stop = 16 ∧
      tr.positions.filter (· ∈ literals 0 loadText) = [0, 1, 2, 3, 6, 11, 12, 13, 14, 15] ∧
      ∀ w, tr.result = some w → w.toInt = tr.bytes := by
  intro buf
  refine (kprintf_exact_iff loadCall buf loadText (by decide)).mpr ⟨?_, ?_⟩
  · intro piece hpiece
    rw [pieces_eq_within (show loadText.length ≤ 16 by decide)] at hpiece
    exact Piece.Plain.fine (List.all_eq_true.mp (by decide) piece hpiece)
  · rw [pieces_eq_within (show loadText.length ≤ 16 by decide)]
    decide

/-- A `%` at the end of the format is passed over together with the NUL behind it, and
of `ESC [ 2 J` only the first half is written. -/
theorem format_not_exact :
    let buf : Buffer 32 := ⟨List.replicate 32 0, rfl⟩
    (CString (plainCall [ascii '%']).format 0 [ascii '%'] ∧
      kprintf (plainCall [ascii '%']) 3 buf =
        some { reads := [0, 1, 2], writes := [.format 0 1], stop := 2, result := some 1 }) ∧
    CString (plainCall [esc, ascii '[', ascii '2', ascii 'J']).format 0
        [esc, ascii '[', ascii '2', ascii 'J'] ∧
      kprintf (plainCall [esc, ascii '[', ascii '2', ascii 'J']) 5 buf =
        some { reads := [0, 1, 2, 3, 4, 4], writes := [.format 0 2], stop := 4,
               result := some 2 } ∧
      literals 0 [esc, ascii '[', ascii '2', ascii 'J'] = [0, 1, 2, 3] := by
  exact ⟨⟨by decide, rfl⟩, by decide, rfl, rfl⟩

end TomatoOs.Stdio
