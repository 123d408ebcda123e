import TomatoOs.Lib.Bytes

/-!
# Scancodes

`handle_scancode` turns make and break codes into characters for the line editor.
It knows whether a shift key is held from one flag, which the codes of both keys
set. So it takes shift for released as soon as one of the two is, and `decoding_iff`
says that this is all it gets wrong.
-/

namespace TomatoOs.Drivers

open Lib

-- ---------------------------------------------------------------------------
-- The tables
-- ---------------------------------------------------------------------------

inductive Key
  | ch (c : Char)
  | unknown | esc | ctrl | lshft | rshft | alt
  | f1 | f2 | f3 | f4 | f5 | f6 | f7 | f8 | f9 | f10 | f11 | f12
  | scrlck | home | up | left | right | down | pgup | pgdown | end_ | ins | del
  | caps | none | altgr | numlck
deriving DecidableEq

/-- The numbers of the enumeration go on from 0x100, above all characters. -/
def Key.value : Key → Nat
  | .ch c => c.toNat
  | .unknown => 0x100
  | .esc => 0x101
  | .ctrl => 0x102
  | .lshft => 0x103
  | .rshft => 0x104
  | .alt => 0x105
  | .f1 => 0x106
  | .f2 => 0x107
  | .f3 => 0x108
  | .f4 => 0x109
  | .f5 => 0x10A
  | .f6 => 0x10B
  | .f7 => 0x10C
  | .f8 => 0x10D
  | .f9 => 0x10E
  | .f10 => 0x10F
  | .f11 => 0x110
  | .f12 => 0x111
  | .scrlck => 0x112
  | .home => 0x113
  | .up => 0x114
  | .left => 0x115
  | .right => 0x116
  | .down => 0x117
  | .pgup => 0x118
  | .pgdown => 0x119
  | .end_ => 0x11A
  | .ins => 0x11B
  | .del => 0x11C
  | .caps => 0x11D
  | .none => 0x11E
  | .altgr => 0x11F
  | .numlck => 0x120

/-- `lowercase` up to F12; the entries behind are `UNKNOWN`. -/
def lowercaseKeys : List Key :=
  [.unknown, .esc, .ch '1', .ch '2', .ch '3', .ch '4', .ch '5', .ch '6',
    .ch '7', .ch '8', .ch '9', .ch '0', .ch '-', .ch '=', .ch '\x08', .ch '\t',
    .ch 'q', .ch 'w', .ch 'e', .ch 'r', .ch 't', .ch 'y', .ch 'u', .ch 'i',
    .ch 'o', .ch 'p', .ch '[', .ch ']', .ch '\n', .ctrl, .ch 'a', .ch 's',
    .ch 'd', .ch 'f', .ch 'g', .ch 'h', .ch 'j', .ch 'k', .ch 'l', .ch ';',
    .ch '\x27', .ch '\x60', .lshft, .ch '\\', .ch 'z', .ch 'x', .ch 'c', .ch 'v',
    .ch 'b', .ch 'n', .ch 'm', .ch ',', .ch '.', .ch '/', .rshft, .ch '*',
    .alt, .ch ' ', .caps, .f1, .f2, .f3, .f4, .f5,
    .f6, .f7, .f8, .f9, .f10, .numlck, .scrlck, .home,
    .up, .pgup, .ch '-', .left, .unknown, .right, .ch '+', .end_,
    .down, .pgdown, .ins, .del, .unknown, .unknown, .unknown, .f11,
    .f12]

def uppercaseKeys : List Key :=
  [.unknown, .esc, .ch '!', .ch '@', .ch '#', .ch '$', .ch '%', .ch '^',
    .ch '&', .ch '*', .ch '(', .ch ')', .ch '_', .ch '+', .ch '\x08', .ch '\t',
    .ch 'Q', .ch 'W', .ch 'E', .ch 'R', .ch 'T', .ch 'Y', .ch 'U', .ch 'I',
    .ch 'O', .ch 'P', .ch '\x7b', .ch '\x7d', .ch '\n', .ctrl, .ch 'A', .ch 'S',
    .ch 'D', .ch 'F', .ch 'G', .ch 'H', .ch 'J', .ch 'K', .ch 'L', .ch ':',
    .ch '\x22', .ch '~', .lshft, .ch '|', .ch 'Z', .ch 'X', .ch 'C', .ch 'V',
    .ch 'B', .ch 'N', .ch 'M', .ch '<', .ch '>', .ch '?', .rshft, .ch '*',
    .alt, .ch ' ', .caps, .f1, .f2, .f3, .f4, .f5,
    .f6, .f7, .f8, .f9, .f10, .numlck, .scrlck, .home,
    .up, .pgup, .ch '-', .left, .unknown, .right, .ch '+', .end_,
    .down, .pgdown, .ins, .del, .unknown, .unknown, .unknown, .f11,
    .f12]

def lowercase (code : Byte) : Nat := (lowercaseKeys.getD code.toNat .unknown).value

def uppercase (code : Byte) : Nat := (uppercaseKeys.getD code.toNat .unknown).value

-- ---------------------------------------------------------------------------
-- handle_scancode
-- ---------------------------------------------------------------------------

structure Decoder where
  shiftDown : Bool
  capsLock : Bool
  extended : Bool
deriving DecidableEq

def Decoder.boot : Decoder := { shiftDown := false, capsLock := false, extended := false }

/-- The state afterwards, and the character for `line_input` if there is one. -/
def handleScancode (raw : Byte) (s : Decoder) : Decoder × Option Byte :=
  if raw = 0xE0#8 then ({ s with extended := true }, none)
  else if s.extended then ({ s with extended := false }, none)
  else
    let released : Bool := raw &&& 0x80#8 ≠ 0
    let code := raw &&& 0x7F#8
    let key := lowercase code % 2 ^ 16
    if key = Key.lshft.value ∨ key = Key.rshft.value then ({ s with shiftDown := !released }, none)
    else if key = Key.caps.value then
      (if released then s else { s with capsLock := !s.capsLock }, none)
    else if released ∨ 0x7F < key then (s, none)
    else
      let letter : Bool := 'a'.toNat ≤ key ∧ key ≤ 'z'.toNat
      let upper := s.shiftDown ^^ (s.capsLock && letter)
      (s, some (BitVec.ofNat 8 (if upper then uppercase code else key)))

def decoderAfter (bytes : List Byte) : Decoder :=
  bytes.foldl (fun s raw => (handleScancode raw s).1) .boot

def typed (before : List Byte) (raw : Byte) : Option Byte :=
  (handleScancode raw (decoderAfter before)).2

-- ---------------------------------------------------------------------------
-- The keys held
-- ---------------------------------------------------------------------------

def prefixed (bytes : List Byte) : Bool := bytes.getLast? = some 0xE0#8

def plainCodes : Bool → List Byte → List Byte
  | _, [] => []
  | afterPrefix, raw :: rest =>
    if raw = 0xE0#8 then plainCodes true rest
    else if afterPrefix then plainCodes false rest
    else raw :: plainCodes false rest

def keyCode (raw : Byte) : Byte := raw &&& 0x7F#8

def isMake (raw : Byte) : Bool := raw &&& 0x80#8 = 0

def leftShift : Byte := 0x2A#8
def rightShift : Byte := 0x36#8
def capsKey : Byte := 0x3A#8

def isShift (raw : Byte) : Bool := keyCode raw = leftShift ∨ keyCode raw = rightShift

def lastMakes (p : Byte → Bool) (codes : List Byte) : Bool :=
  (codes.reverse.find? p).any isMake

def keyHeld (key : Byte) (codes : List Byte) : Bool :=
  lastMakes (fun raw => keyCode raw = key) codes

def shiftHeld (codes : List Byte) : Bool := keyHeld leftShift codes || keyHeld rightShift codes

def capsOn (codes : List Byte) : Bool := codes.count capsKey % 2 = 1

def isLetter (code : Byte) : Bool := 'a'.toNat ≤ lowercase code ∧ lowercase code ≤ 'z'.toNat

def types (raw : Byte) : Bool :=
  isMake raw ∧ ¬isShift raw ∧ raw ≠ capsKey ∧ lowercase (keyCode raw) ≤ 0x7F

def wanted (before : List Byte) (raw : Byte) : Option Byte :=
  if raw = 0xE0#8 ∨ prefixed before then none
  else if types raw then
    let codes := plainCodes false before
    let upper := shiftHeld codes ^^ (capsOn codes && isLetter (keyCode raw))
    some (BitVec.ofNat 8 (if upper then uppercase (keyCode raw) else lowercase (keyCode raw)))
  else none

/-- A key with two characters is pressed while a shift key is held, and the last
code of a shift key is the release of the other. -/
structure Shadowed (before : List Byte) (raw : Byte) : Prop where
  plain : prefixed before = false
  types : types raw = true
  differs : uppercase (keyCode raw) ≠ lowercase (keyCode raw)
  held : shiftHeld (plainCodes false before) = true
  last : lastMakes isShift (plainCodes false before) = false

-- ---------------------------------------------------------------------------
-- What the decoder remembers
-- ---------------------------------------------------------------------------

theorem lowercase_mod (code : Byte) : lowercase code % 2 ^ 16 = lowercase code := by
  have hkeys : ∀ key ∈ Key.unknown :: lowercaseKeys, key.value < 2 ^ 16 := by decide
  refine Nat.mod_eq_of_lt (hkeys _ ?_)
  rw [List.getD_eq_getElem?_getD]
  cases h : lowercaseKeys[code.toNat]? with
  | none => exact List.mem_cons_self
  | some key => exact List.mem_cons_of_mem _ (List.mem_of_getElem? h)

theorem lowercase_shift : ∀ raw : Byte,
    (lowercase (keyCode raw) = Key.lshft.value ∨ lowercase (keyCode raw) = Key.rshft.value) ↔
      isShift raw = true := by
  decide +kernel

theorem lowercase_caps : ∀ raw : Byte,
    lowercase (keyCode raw) = Key.caps.value ↔ keyCode raw = capsKey := by
  decide +kernel

theorem capsKey_iff : ∀ raw : Byte, raw = capsKey ↔ keyCode raw = capsKey ∧ isMake raw = true := by
  decide

theorem isShift_caps : ∀ raw : Byte, isShift raw = true → raw ≠ capsKey := by
  decide

theorem released_iff (raw : Byte) : (raw &&& 0x80#8 ≠ 0) ↔ isMake raw = false := by
  simp [isMake]

/-- `handle_scancode` in the words of the keys. -/
theorem handleScancode_eq (raw : Byte) (s : Decoder) :
    handleScancode raw s =
      if raw = 0xE0#8 then ({ s with extended := true }, none)
      else if s.extended then ({ s with extended := false }, none)
      else
        ({ s with
            shiftDown := if isShift raw then isMake raw else s.shiftDown
            capsLock := if raw = capsKey then !s.capsLock else s.capsLock },
          if types raw then
            some (BitVec.ofNat 8
              (if s.shiftDown ^^ (s.capsLock && isLetter (keyCode raw)) then uppercase (keyCode raw)
                else lowercase (keyCode raw)))
          else none) := by
  have hcode : raw &&& 0x7F#8 = keyCode raw := rfl
  rw [handleScancode]
  refine if_congr Iff.rfl rfl (if_congr Iff.rfl rfl ?_)
  simp only [hcode, lowercase_mod, lowercase_shift, lowercase_caps, released_iff]
  by_cases hshift : isShift raw = true
  · simp [types, hshift, isShift_caps raw hshift]
  by_cases hmake : isMake raw = true
  · have hcaps : keyCode raw = capsKey ↔ raw = capsKey := by simp [capsKey_iff raw, hmake]
    by_cases hraw : raw = capsKey
    · subst hraw
      rfl
    · by_cases hchar : lowercase (keyCode raw) ≤ 0x7F
      · simp [types, hshift, hmake, hcaps, hraw, hchar, isLetter]
      · simp [types, hshift, hmake, hcaps, hraw, hchar, Nat.lt_of_not_le hchar]
  · have hraw : raw ≠ capsKey := by simp [capsKey_iff raw, hmake]
    simp [types, hshift, hmake, hraw]

theorem decoderAfter_snoc (bytes : List Byte) (raw : Byte) :
    decoderAfter (bytes ++ [raw]) = (handleScancode raw (decoderAfter bytes)).1 := by
  simp [decoderAfter]

theorem plainCodes_snoc (b : Bool) (bytes : List Byte) (raw : Byte) :
    plainCodes b (bytes ++ [raw]) =
      plainCodes b bytes ++ plainCodes ((bytes.getLast?.map (· == 0xE0#8)).getD b) [raw] := by
  induction bytes generalizing b with
  | nil => rfl
  | cons x rest ih =>
    have hlast : ((x :: rest).getLast?.map (· == 0xE0#8)).getD b =
        (rest.getLast?.map (· == 0xE0#8)).getD (x == 0xE0#8) := by
      rw [List.getLast?_cons, Option.map_some, Option.getD_some]
      cases rest.getLast? <;> rfl
    rw [hlast, List.cons_append, plainCodes, plainCodes, ih, ih]
    by_cases hx : x = 0xE0#8
    · rw [if_pos hx, if_pos hx, hx]
      rfl
    · have hx' : (x == 0xE0#8) = false := by simpa using hx
      rw [if_neg hx, if_neg hx, hx']
      cases b <;> rfl

theorem prefixed_eq (bytes : List Byte) :
    (bytes.getLast?.map (· == 0xE0#8)).getD false = prefixed bytes := by
  cases h : bytes.getLast? with
  | none => simp [prefixed, h]
  | some x => simp [prefixed, h, beq_eq_decide]

theorem lastMakes_snoc (p : Byte → Bool) (codes : List Byte) (raw : Byte) :
    lastMakes p (codes ++ [raw]) = if p raw then isMake raw else lastMakes p codes := by
  cases h : p raw <;> simp [lastMakes, h]

theorem capsOn_snoc (codes : List Byte) (raw : Byte) :
    capsOn (codes ++ [raw]) = if raw = capsKey then !capsOn codes else capsOn codes := by
  by_cases h : raw = capsKey
  · simp only [capsOn, List.count_append, h, List.count_singleton_self, if_true]
    rw [Bool.eq_iff_iff]
    simp
    omega
  · simp [capsOn, List.count_append, h]

theorem decoderAfter_eq (bytes : List Byte) :
    decoderAfter bytes =
      { shiftDown := lastMakes isShift (plainCodes false bytes)
        capsLock := capsOn (plainCodes false bytes)
        extended := prefixed bytes } := by
  induction bytes using List.reverseRecOn with
  | nil => rfl
  | append_singleton bytes raw ih =>
    have hprefixed : prefixed (bytes ++ [raw]) = decide (raw = 0xE0#8) := by simp [prefixed]
    rw [decoderAfter_snoc, handleScancode_eq, ih, plainCodes_snoc, prefixed_eq, hprefixed]
    by_cases hraw : raw = 0xE0#8
    · simp [plainCodes, hraw]
    · cases hp : prefixed bytes
      · simp [plainCodes, hraw, lastMakes_snoc, capsOn_snoc]
      · simp [plainCodes, hraw]

-- ---------------------------------------------------------------------------
-- What is typed
-- ---------------------------------------------------------------------------

theorem shiftHeld_of_lastMakes {codes : List Byte} (h : lastMakes isShift codes = true) :
    shiftHeld codes = true := by
  induction codes using List.reverseRecOn with
  | nil => exact h
  | append_singleton codes raw ih =>
    rw [lastMakes_snoc] at h
    rw [shiftHeld, keyHeld, keyHeld, lastMakes_snoc, lastMakes_snoc]
    split at h
    · rename_i hshift
      rcases of_decide_eq_true hshift with hkey | hkey <;> simp [hkey, h]
    · rename_i hshift
      have hkeys : keyCode raw ≠ leftShift ∧ keyCode raw ≠ rightShift := by
        simpa [isShift] using hshift
      simp only [hkeys.1, hkeys.2, decide_false, Bool.false_eq_true, if_false]
      exact ih h

theorem ofNat_key_inj : ∀ raw : Byte, types raw = true →
    BitVec.ofNat 8 (uppercase (keyCode raw)) = BitVec.ofNat 8 (lowercase (keyCode raw)) →
      uppercase (keyCode raw) = lowercase (keyCode raw) := by
  decide +kernel

/-- The two choices of a character differ if the flag is off and the key has two. -/
theorem choice_iff {α : Type} (c : Bool) (u l : α) :
    (if false ^^ c then u else l) = (if true ^^ c then u else l) ↔ u = l := by
  cases c
  · exact eq_comm
  · exact Iff.rfl

theorem typed_iff (before : List Byte) (raw : Byte) :
    typed before raw = wanted before raw ↔ ¬Shadowed before raw := by
  rw [typed, handleScancode_eq, decoderAfter_eq, wanted]
  by_cases hraw : raw = 0xE0#8
  · refine iff_of_true (by simp [hraw]) fun h => ?_
    rw [hraw] at h
    exact absurd h.types (by decide)
  by_cases hp : prefixed before = true
  · refine iff_of_true (by simp [hraw, hp]) fun h => ?_
    exact absurd (hp.symm.trans h.plain) (by decide)
  by_cases ht : types raw = true
  · simp only [hraw, hp, ht, if_true, if_false, or_self, Bool.false_eq_true, Option.some.injEq,
      apply_ite (BitVec.ofNat 8)]
    cases hlast : lastMakes isShift (plainCodes false before) with
    | true =>
      rw [shiftHeld_of_lastMakes hlast]
      exact iff_of_true rfl fun h => absurd (hlast.symm.trans h.last) (by decide)
    | false =>
      cases hheld : shiftHeld (plainCodes false before) with
      | true =>
        rw [choice_iff]
        constructor
        · exact fun he h => h.differs (ofNat_key_inj raw ht he)
        · intro hno
          by_contra hne
          exact hno ⟨by simpa using hp, ht, fun he => hne (congrArg _ he), hheld, hlast⟩
      | false =>
        exact iff_of_true rfl fun h => absurd (hheld.symm.trans h.held) (by decide)
  · refine iff_of_true (by simp [hraw, hp, ht]) fun h => absurd h.types ht

/-- Every press gives the character that the keys held call for exactly if none comes
while the release of one shift key hides the other. -/
theorem decoding_iff (bytes : List Byte) :
    (∀ before raw after, bytes = before ++ raw :: after → typed before raw = wanted before raw) ↔
      ∀ before raw after, bytes = before ++ raw :: after → ¬Shadowed before raw := by
  simp only [typed_iff]

/-- Both shift keys are pressed and the right one is released before A is pressed. -/
theorem held_shift_lost :
    typed [0x2A#8, 0x36#8, 0xB6#8] 0x1E#8 = some (BitVec.ofNat 8 'a'.toNat) ∧
      wanted [0x2A#8, 0x36#8, 0xB6#8] 0x1E#8 = some (BitVec.ofNat 8 'A'.toNat) := by
  decide

end TomatoOs.Drivers
