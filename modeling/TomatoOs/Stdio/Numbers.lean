import TomatoOs.Lib.Buffers

/-!
# Numbers in text

Three digit loops write numbers into local buffers: that of `%d` takes the last
digit first and turns the digits around in the buffer, that of `%x` goes through
the nibbles from the top, and `fmt_uint_padded` of the log takes the last digit
first and copies back. They write the numerals, except that `%d` negates the
least integer to itself and writes its sign alone.
-/

namespace TomatoOs.Stdio

open Lib

-- ---------------------------------------------------------------------------
-- printf.c
-- ---------------------------------------------------------------------------

def decimalDigit (d : Nat) : Byte := BitVec.ofNat 8 (0x30 + d)

def hexDigit (nibble : Nat) : Byte :=
  if nibble < 10 then BitVec.ofNat 8 (0x30 + nibble) else BitVec.ofNat 8 (0x61 + nibble - 10)

def digitLoop (tmp : Nat) (buf : Buffer size) (i : Nat) : Option (Buffer size × Nat) :=
  if 0 < tmp then do
    let buf ← buf.put i (decimalDigit (tmp % 10))
    digitLoop (tmp / 10) buf (i + 1)
  else some (buf, i)
termination_by tmp

/-- The sign, or the only digit of 0: the buffer, `num` and `i` behind it. -/
def signInt (buf : Buffer 32) (num : BitVec 32) : Option (Buffer 32 × BitVec 32 × Nat) :=
  if num.toInt < 0 then (buf.put 0 (ascii '-')).map fun buf => (buf, -num, 1)
  else if num = 0 then (buf.put 0 (ascii '0')).map fun buf => (buf, num, 1)
  else some (buf, num, 0)

def digitsInt (buf : Buffer 32) (num : BitVec 32) (i : Nat) : Option (Buffer 32 × Nat) := do
  let (buf, i) ← digitLoop num.toInt.toNat buf i
  let start := if buf.bytes[0]? = some (ascii '-') then 1 else 0
  let buf ← buf.reverse start (i - 1)
  some (buf, i)

/-- `%d`: the buffer, and how many of its bytes are written. -/
def formatInt (buf : Buffer 32) (num : BitVec 32) : Option (Buffer 32 × Nat) := do
  let (buf, num, i) ← signInt buf num
  digitsInt buf num i

def nibbleLoop (num : Nat) : Nat → Buffer size → Nat → Bool → Option (Buffer size × Nat)
  | 0, buf, i, _ => some (buf, i)
  | j + 1, buf, i, started =>
    let nibble := num / 2 ^ (4 * j) % 16
    if nibble ≠ 0 ∨ started then do
      let buf ← buf.put i (hexDigit nibble)
      nibbleLoop num j buf (i + 1) true
    else nibbleLoop num j buf i started

def formatHex (buf : Buffer 32) (num : BitVec 32) : Option (Buffer 32 × Nat) := do
  let buf ← buf.put 0 (ascii '0')
  let buf ← buf.put 1 (ascii 'x')
  if num = 0 then do
    let buf ← buf.put 2 (ascii '0')
    some (buf, 3)
  else nibbleLoop num.toNat 8 buf 2 false

-- ---------------------------------------------------------------------------
-- klog.c
-- ---------------------------------------------------------------------------

/-- `for (int p = n; p < width; p++) out[i++] = pad;` -/
def padLoop (width : Int) (pad : Byte) (p : Int) (out : Buffer size) (i : Nat) :
    Option (Buffer size × Nat) :=
  if p < width then do
    let out ← out.put i pad
    padLoop width pad (p + 1) out (i + 1)
  else some (out, i)
termination_by (width - p).toNat

/-- `while (n > 0) out[i++] = tmp[--n];` -/
def copyLoop (tmp : Buffer 20) : Nat → Buffer size → Nat → Option (Buffer size × Nat)
  | 0, out, i => some (out, i)
  | n + 1, out, i => do
    let c ← tmp.bytes[n]?
    let out ← out.put i c
    copyLoop tmp n out (i + 1)

/-- The first loop is `digitLoop` with its body done once before. -/
def fmtUintPadded (tmp : Buffer 20) (out : Buffer size) (value : BitVec 64) (width : Int)
    (pad : Byte) : Option (Buffer size) := do
  let tmp ← tmp.put 0 (decimalDigit (value.toNat % 10))
  let (tmp, n) ← digitLoop (value.toNat / 10) tmp 1
  let (out, i) ← padLoop width pad n out 0
  let (out, i) ← copyLoop tmp n out i
  out.put i 0

def msPerTick : BitVec 64 := 10

def klogTime (apicTicks : BitVec 64) (tmp tmp' : Buffer 20) (secbuf : Buffer 20)
    (msbuf : Buffer 8) : Option (Buffer 20 × Buffer 8) := do
  let totalMs := apicTicks * msPerTick
  let secbuf ← fmtUintPadded tmp secbuf (totalMs / 1000#64) 5 (ascii ' ')
  let msbuf ← fmtUintPadded tmp' msbuf (totalMs % 1000#64) 3 (ascii '0')
  some (secbuf, msbuf)

-- ---------------------------------------------------------------------------
-- The loops
-- ---------------------------------------------------------------------------

theorem decimalDigit_eq : ∀ d < 10, decimalDigit d = ascii d.digitChar := by decide

theorem hexDigit_eq : ∀ d < 16, hexDigit d = ascii d.digitChar := by decide

theorem ascii_digit_ne_minus : ∀ d < 10, ascii d.digitChar ≠ ascii '-' := by decide

section
variable {size : Nat}

theorem digitLoop_write (tmp : Nat) (b : Buffer size) (i : Nat) :
    digitLoop tmp b i = b.write i (lowFirst 10 tmp) := by
  induction tmp using Nat.strong_induction_on generalizing b i with
  | _ tmp ih =>
    rw [digitLoop]
    by_cases hpos : 0 < tmp
    · rw [if_pos hpos, lowFirst_step (by decide) hpos,
        decimalDigit_eq _ (Nat.mod_lt tmp (by decide))]
      exact congrArg (Option.bind _) (funext fun b => ih (tmp / 10) (by omega) b (i + 1))
    · have hzero : lowFirst 10 tmp = [] := if_pos (by omega)
      rw [if_neg hpos, hzero]
      rfl

theorem padLoop_write (width : Int) (pad : Byte) (p : Int) (b : Buffer size) (i : Nat) :
    padLoop width pad p b i = b.write i (List.replicate (width - p).toNat pad) := by
  generalize hk : (width - p).toNat = k
  induction k generalizing p b i with
  | zero =>
    rw [padLoop, if_neg (by omega)]
    rfl
  | succ k ih =>
    rw [padLoop, if_pos (by omega), List.replicate_succ]
    exact congrArg (Option.bind _) (funext fun b => ih (p + 1) b (i + 1) (by omega))

theorem copyLoop_write {tmp : Buffer 20} (ds : List Byte) (htmp : tmp.bytes = ds ++ rest)
    (b : Buffer size) (i : Nat) : copyLoop tmp ds.length b i = b.write i ds.reverse := by
  induction ds using List.reverseRecOn generalizing rest b i with
  | nil => rfl
  | append_singleton ds d ih =>
    have hget : tmp.bytes[ds.length]? = some d := by simp [htmp]
    have htmp' : tmp.bytes = ds ++ d :: rest := by simp [htmp]
    rw [List.length_append, List.length_singleton, copyLoop, hget, List.reverse_append,
      Option.bind_eq_bind, Option.bind_some]
    exact congrArg (Option.bind _) (funext fun b => ih htmp' b (i + 1))

def highFirst (n : Nat) : List Byte := if n = 0 then [] else numeral 16 n

theorem highFirst_step (hn : n ≠ 0) :
    highFirst n = highFirst (n / 16) ++ [hexDigit (n % 16)] := by
  rw [highFirst, if_neg hn, hexDigit_eq _ (Nat.mod_lt n (by decide))]
  by_cases h : n < 16
  · rw [highFirst, if_pos (by omega), numeral_of_lt h, Nat.mod_eq_of_lt h]
    rfl
  · rw [highFirst, if_neg (by omega), numeral_step (by decide) (by omega)]

theorem nibbleLoop_write (num j : Nat) :
    ∃ ds, highFirst num = highFirst (num / 16 ^ j) ++ ds ∧ ∀ (b : Buffer size) (i : Nat),
      nibbleLoop num j b i (decide (num / 16 ^ j ≠ 0)) = b.write i ds := by
  induction j with
  | zero => exact ⟨[], by simp, fun b i => rfl⟩
  | succ j ih =>
    obtain ⟨ds, hds, hloop⟩ := ih
    have hnibble : num / 2 ^ (4 * j) % 16 = num / 16 ^ j % 16 := by
      rw [Nat.pow_mul]
    have hupper : num / 16 ^ (j + 1) = num / 16 ^ j / 16 := by
      rw [Nat.pow_succ, Nat.div_div_eq_div_mul]
    by_cases hq : num / 16 ^ j = 0
    · -- still among the leading zeros
      refine ⟨ds, by rw [hds, hupper, hq], fun b i => ?_⟩
      rw [nibbleLoop, hnibble, hupper, ← hloop b i, hq]
      rfl
    · refine ⟨hexDigit (num / 16 ^ j % 16) :: ds, ?_, fun b i => ?_⟩
      · rw [hds, highFirst_step hq, hupper, List.append_assoc]
        rfl
      · have hdigit : num / 16 ^ j % 16 ≠ 0 ∨ decide (num / 16 ^ (j + 1) ≠ 0) = true := by
          rw [hupper, decide_eq_true_eq]
          omega
        rw [decide_eq_true hq] at hloop
        rw [nibbleLoop, hnibble, if_pos hdigit]
        exact congrArg (Option.bind _) (funext fun b => hloop b (i + 1))

end

-- ---------------------------------------------------------------------------
-- What is written
-- ---------------------------------------------------------------------------

def Wrote (r : Option (Buffer size × Nat)) (text : List Byte) : Prop :=
  ∃ buf, r = some (buf, text.length) ∧ text <+: buf.bytes

def intNumeral (z : Int) : List Byte :=
  if z < 0 then ascii '-' :: numeral 10 z.natAbs else numeral 10 z.natAbs

/-- What `%d` writes. -/
def shownInt (n : BitVec 32) : List Byte :=
  if n = BitVec.intMin 32 then [ascii '-'] else intNumeral n.toInt

theorem wrote_write (b : Buffer size) (text : List Byte) (hroom : text.length ≤ size) :
    Wrote (b.write 0 text) text := by
  obtain ⟨b', hwrite, hb'⟩ := Buffer.write_eq text (List.nil_append b.bytes).symm
    (by rw [b.length_eq]; exact hroom)
  rw [List.length_nil, Nat.zero_add] at hwrite
  exact ⟨b', hwrite, hb' ▸ List.prefix_append _ _⟩

theorem digitsInt_eq {b : Buffer 32} {l post : List Byte} {num : BitVec 32}
    (h : b.bytes = l ++ post) (hl : l = [] ∨ l = [ascii '-']) (hpos : 0 < num.toInt) :
    Wrote (digitsInt b num l.length) (l ++ numeral 10 num.toInt.toNat) := by
  have hk : 0 < num.toInt.toNat := by omega
  have hlow : lowFirst 10 num.toInt.toNat = (numeral 10 num.toInt.toNat).reverse :=
    if_neg (by omega)
  have hroom : (lowFirst 10 num.toInt.toNat).length ≤ post.length := by
    have hlt := BitVec.toInt_lt (x := num)
    have hle := lowFirst_length_le (b := 10) (k := 10) (n := num.toInt.toNat) (by decide)
      (by decide) (by omega)
    have hlen := b.length_eq
    have hl' : l.length ≤ 1 := by rcases hl with rfl | rfl <;> decide
    rw [h, List.length_append] at hlen
    omega
  obtain ⟨b₁, hloop, hb₁⟩ := Buffer.write_eq (lowFirst 10 num.toInt.toNat) h hroom
  rw [← digitLoop_write] at hloop
  have hstart : (if b₁.bytes[0]? = some (ascii '-') then 1 else 0) = l.length := by
    rcases hl with rfl | rfl
    · have hne := ascii_digit_ne_minus _ (Nat.mod_lt num.toInt.toNat (by decide : 0 < 10))
      rw [hb₁, lowFirst_step (by decide) hk]
      simpa using hne
    · simp [hb₁]
  obtain ⟨b₂, hrev, hb₂⟩ := Buffer.reverse_eq _ hb₁
  refine ⟨b₂, ?_, ?_⟩
  · simp only [digitsInt, hloop, Option.bind_eq_bind, Option.bind_some, hstart, hrev]
    rw [hlow, List.length_reverse, List.length_append]
  · rw [hb₂, hlow, List.reverse_reverse, ← List.append_assoc]
    exact List.prefix_append _ _

theorem digitsInt_none {b : Buffer 32} {num : BitVec 32} (h : num.toInt ≤ 0) :
    digitsInt b num 1 = some (b, 1) := by
  have hloop : digitLoop num.toInt.toNat b 1 = some (b, 1) := by
    rw [digitLoop, if_neg (by omega)]
  have hrev : ∀ start, b.reverse start (1 - 1) = some b := fun start => by
    rw [Buffer.reverse, if_neg (by omega)]
  simp only [digitsInt, hloop, Option.bind_eq_bind, Option.bind_some, hrev]

theorem formatInt_of_sign {buf b : Buffer 32} {n num : BitVec 32}
    (h : signInt buf n = some (b, num, i)) : formatInt buf n = digitsInt b num i := by
  rw [formatInt, h]
  rfl

theorem formatInt_eq (buf : Buffer 32) (n : BitVec 32) : Wrote (formatInt buf n) (shownInt n) := by
  rcases lt_trichotomy n.toInt 0 with hneg | hzero | hpos
  · obtain ⟨b₁, hput, hb₁⟩ := buf.put_first (ascii '-')
    have hsign : signInt buf n = some (b₁, -n, 1) := by
      rw [signInt, if_pos hneg, hput]
      rfl
    rw [formatInt_of_sign hsign, shownInt]
    by_cases hmin : n = BitVec.intMin 32
    · -- there is no positive number to take the digits of
      rw [if_pos hmin, hmin, digitsInt_none (by decide)]
      exact ⟨b₁, rfl, hb₁ ▸ List.prefix_append _ _⟩
    · have hneg' : (-n).toInt = -n.toInt := BitVec.toInt_neg_of_ne_intMin hmin
      have habs : n.toInt.natAbs = (-n).toInt.toNat := by omega
      rw [if_neg hmin, intNumeral, if_pos hneg, habs]
      exact digitsInt_eq hb₁ (.inr rfl) (by omega)
  · obtain ⟨b₁, hput, hb₁⟩ := buf.put_first (ascii '0')
    obtain rfl : n = 0 := BitVec.eq_of_toInt_eq hzero
    have hsign : signInt buf 0 = some (b₁, 0, 1) := by
      rw [signInt, if_neg (by decide), if_pos rfl, hput]
      rfl
    rw [formatInt_of_sign hsign, digitsInt_none (by decide)]
    exact ⟨b₁, rfl, hb₁ ▸ List.prefix_append _ _⟩
  · have hn : n ≠ 0 := fun h0 => by simp [h0] at hpos
    have hmin : n ≠ BitVec.intMin 32 := fun h0 => by
      rw [h0] at hpos
      exact absurd hpos (by decide)
    have hsign : signInt buf n = some (buf, n, 0) := by
      rw [signInt, if_neg (by omega), if_neg hn]
    have habs : n.toInt.natAbs = n.toInt.toNat := by omega
    rw [formatInt_of_sign hsign, shownInt, if_neg hmin, intNumeral, if_neg (by omega), habs]
    exact digitsInt_eq (List.nil_append buf.bytes).symm (.inl rfl) hpos

theorem formatHex_write (buf : Buffer 32) (n : BitVec 32) :
    formatHex buf n = buf.write 0 (ascii '0' :: ascii 'x' :: numeral 16 n.toNat) := by
  simp only [formatHex, Buffer.write, Option.bind_eq_bind]
  refine congrArg (Option.bind _) (funext fun b => congrArg (Option.bind _) (funext fun b => ?_))
  by_cases hn : n = 0
  · rw [if_pos hn, hn]
    rfl
  · have hn' : n.toNat ≠ 0 := fun h0 => hn (BitVec.eq_of_toNat_eq h0)
    have hupper : n.toNat / 16 ^ 8 = 0 := Nat.div_eq_of_lt n.isLt
    obtain ⟨ds, hds, hloop⟩ := nibbleLoop_write n.toNat 8
    rw [hupper, highFirst, if_neg hn'] at hds
    rw [hupper] at hloop
    rw [if_neg hn, hds]
    exact hloop b 2

theorem formatHex_eq (buf : Buffer 32) (n : BitVec 32) :
    Wrote (formatHex buf n) (ascii '0' :: ascii 'x' :: numeral 16 n.toNat) := by
  have hdigits : (numeral 16 n.toNat).length ≤ 8 :=
    (numeral_length_le (by decide) (by decide)).mpr n.isLt
  rw [formatHex_write]
  refine wrote_write buf _ ?_
  rw [List.length_cons, List.length_cons]
  omega

def padded (v : BitVec 64) (width : Int) (pad : Byte) : List Byte :=
  List.replicate (width - (numeral 10 v.toNat).length).toNat pad ++ numeral 10 v.toNat

theorem tmp_digits (tmp : Buffer 20) (v : BitVec 64) :
    ∃ tmp' rest, ((tmp.put 0 (decimalDigit (v.toNat % 10))).bind fun tmp =>
        digitLoop (v.toNat / 10) tmp 1) = some (tmp', (numeral 10 v.toNat).reverse.length) ∧
      tmp'.bytes = (numeral 10 v.toNat).reverse ++ rest := by
  have hdigits : decimalDigit (v.toNat % 10) :: lowFirst 10 (v.toNat / 10) =
      (numeral 10 v.toNat).reverse := by
    rw [decimalDigit_eq _ (Nat.mod_lt _ (by decide))]
    by_cases h0 : v.toNat = 0
    · rw [h0]
      rfl
    · rw [← lowFirst_step (by decide) (Nat.pos_of_ne_zero h0), lowFirst, if_neg h0]
  have hle : (numeral 10 v.toNat).length ≤ 20 :=
    (numeral_length_le (by decide) (by decide)).mpr (v.isLt.trans (by decide))
  obtain ⟨tmp', hwrite, rest, hrest⟩ := wrote_write tmp (numeral 10 v.toNat).reverse
    (by rw [List.length_reverse]; exact hle)
  refine ⟨tmp', rest, ?_, hrest.symm⟩
  rw [← hwrite, ← hdigits]
  exact congrArg (Option.bind _) (funext fun b => digitLoop_write _ b 1)

theorem fmtUintPadded_eq {size : Nat} (tmp : Buffer 20) (out : Buffer size) (v : BitVec 64)
    (width : Int) (pad : Byte) (hroom : (padded v width pad).length < size) :
    ∃ out', fmtUintPadded tmp out v width pad = some out' ∧
      out'.bytes = padded v width pad ++ 0 :: out.bytes.drop ((padded v width pad).length + 1) := by
  obtain ⟨tmp₂, rest, htmp, htmp₂⟩ := tmp_digits tmp v
  obtain ⟨tmp₁, hput, hloop⟩ := Option.bind_eq_some_iff.mp htmp
  obtain ⟨out', hwrite, hout'⟩ := Buffer.write_eq (padded v width pad ++ [0])
    (List.nil_append out.bytes).symm
    (by rw [List.length_append, List.length_singleton, out.length_eq]; exact hroom)
  refine ⟨out', ?_, by simpa using hout'⟩
  -- the text is written in three parts
  rw [Buffer.write_append, padded, Buffer.write_append] at hwrite
  obtain ⟨⟨out₂, i₂⟩, hwrite₂, hnul⟩ := Option.bind_eq_some_iff.mp hwrite
  obtain ⟨⟨out₁, i₁⟩, hpads, hdigits⟩ := Option.bind_eq_some_iff.mp hwrite₂
  obtain ⟨out₃, hlast, hout₃⟩ := Option.bind_eq_some_iff.mp hnul
  obtain rfl : out₃ = out' := congrArg Prod.fst (Option.some.inj hout₃)
  have hcopy := copyLoop_write _ htmp₂ out₁ i₁
  rw [List.length_reverse, List.reverse_reverse, hdigits] at hcopy
  rw [← padLoop_write, List.length_nil] at hpads
  rw [List.length_reverse] at hloop
  simp only [fmtUintPadded, hput, hloop, hpads, hcopy, Option.bind_eq_bind, Option.bind_some]
  exact hlast

theorem padded_length_le {k : Nat} (v : BitVec 64) (pad : Byte) (hk : 0 < k)
    (hv : v.toNat < 10 ^ k) (hwidth : width ≤ (k : Int)) : (padded v width pad).length ≤ k := by
  have hle := (numeral_length_le (b := 10) (by decide) hk).mpr hv
  rw [padded, List.length_append, List.length_replicate]
  omega

def HoldsString (b : Buffer size) (text : List Byte) : Prop := text ++ [0] <+: b.bytes

theorem fmtUintPadded_string {size : Nat} (tmp : Buffer 20) (out : Buffer size) (v : BitVec 64)
    (width : Int) (pad : Byte) (hroom : (padded v width pad).length < size) :
    ∃ out', fmtUintPadded tmp out v width pad = some out' ∧
      HoldsString out' (padded v width pad) := by
  obtain ⟨out', hfmt, hout'⟩ := fmtUintPadded_eq tmp out v width pad hroom
  refine ⟨out', hfmt, ?_⟩
  rw [HoldsString, hout']
  exact ⟨_, by rw [List.append_assoc]; rfl⟩

theorem klogTime_eq (apicTicks : BitVec 64) (tmp tmp' secbuf : Buffer 20) (msbuf : Buffer 8) :
    ∃ sec ms, klogTime apicTicks tmp tmp' secbuf msbuf = some (sec, ms) ∧
      HoldsString sec (padded (apicTicks * msPerTick / 1000#64) 5 (ascii ' ')) ∧
      HoldsString ms (padded (apicTicks * msPerTick % 1000#64) 3 (ascii '0')) := by
  generalize hms : apicTicks * msPerTick = totalMs
  have hlt := totalMs.isLt
  have hsec : (totalMs / 1000#64).toNat < 10 ^ 17 := by
    simp only [BitVec.toNat_udiv, BitVec.toNat_ofNat, Nat.reducePow, Nat.reduceMod]
    omega
  have hrem : (totalMs % 1000#64).toNat < 10 ^ 3 := by
    simp only [BitVec.toNat_umod, BitVec.toNat_ofNat, Nat.reducePow, Nat.reduceMod]
    omega
  have hsecLen := padded_length_le (totalMs / 1000#64) (ascii ' ') (by decide) hsec
    (by decide : (5 : Int) ≤ (17 : Nat))
  have hmsLen := padded_length_le (totalMs % 1000#64) (ascii '0') (by decide) hrem
    (by decide : (3 : Int) ≤ (3 : Nat))
  obtain ⟨sec, hfmt, hsec'⟩ := fmtUintPadded_string tmp secbuf (totalMs / 1000#64) 5 (ascii ' ')
    (by omega)
  obtain ⟨ms, hfmt', hms'⟩ := fmtUintPadded_string tmp' msbuf (totalMs % 1000#64) 3 (ascii '0')
    (by omega)
  refine ⟨sec, ms, ?_, hsec', hms'⟩
  simp only [klogTime, hms, hfmt, hfmt', Option.bind_eq_bind, Option.bind_some]

theorem wrote_unique {r : Option (Buffer size × Nat)} (h : Wrote r text) (h' : Wrote r text') :
    text = text' := by
  obtain ⟨buf, hr, hpre⟩ := h
  obtain ⟨buf', hr', hpre'⟩ := h'
  rw [hr] at hr'
  simp only [Option.some.injEq, Prod.mk.injEq] at hr'
  obtain ⟨rfl, hlen⟩ := hr'
  exact (List.prefix_of_prefix_length_le hpre hpre' hlen.le).eq_of_length hlen

theorem shownInt_iff (n : BitVec 32) :
    shownInt n = intNumeral n.toInt ↔ n ≠ BitVec.intMin 32 := by
  constructor
  · rintro h rfl
    have hlen := congrArg List.length h
    have hpos := numeral_length_pos 10 (BitVec.intMin 32).toInt.natAbs
    rw [shownInt, if_pos rfl, intNumeral, if_pos (by decide)] at hlen
    simp only [List.length_cons, List.length_nil] at hlen
    omega
  · intro hn
    rw [shownInt, if_neg hn]

/-- Numbers are written as their numerals and in the room there is, the least integer
apart. -/
theorem numbers_written_iff {size : Nat} (n x : BitVec 32) (v apicTicks : BitVec 64) (width : Int)
    (pad : Byte) (buf : Buffer 32) (tmp tmp' secbuf : Buffer 20) (msbuf : Buffer 8)
    (out : Buffer size) :
    (Wrote (formatInt buf n) (intNumeral n.toInt) ∧
      Wrote (formatHex buf x) (ascii '0' :: ascii 'x' :: numeral 16 x.toNat) ∧
      ((padded v width pad).length < size →
        ∃ out', fmtUintPadded tmp out v width pad = some out' ∧
          HoldsString out' (padded v width pad)) ∧
      ∃ sec ms, klogTime apicTicks tmp tmp' secbuf msbuf = some (sec, ms) ∧
        HoldsString sec (padded (apicTicks * msPerTick / 1000#64) 5 (ascii ' ')) ∧
        HoldsString ms (padded (apicTicks * msPerTick % 1000#64) 3 (ascii '0'))) ↔
      n ≠ BitVec.intMin 32 := by
  rw [← shownInt_iff]
  constructor
  · rintro ⟨hint, -⟩
    exact wrote_unique (formatInt_eq buf n) hint
  · intro hshown
    refine ⟨hshown ▸ formatInt_eq buf n, formatHex_eq buf x, ?_, ?_⟩
    · exact fmtUintPadded_string tmp out v width pad
    · exact klogTime_eq apicTicks tmp tmp' secbuf msbuf

/-- The numeral of the least integer has eleven characters. -/
theorem least_int_cut :
    let buf : Buffer 32 := ⟨List.replicate 32 0, rfl⟩
    Wrote (formatInt buf (BitVec.intMin 32)) [ascii '-'] ∧
      ¬Wrote (formatInt buf (BitVec.intMin 32)) (intNumeral (BitVec.intMin 32).toInt) := by
  intro buf
  have hshown : Wrote (formatInt buf (BitVec.intMin 32)) [ascii '-'] :=
    formatInt_eq buf (BitVec.intMin 32)
  refine ⟨hshown, fun h => ?_⟩
  exact absurd (wrote_unique hshown h) (by decide)

end TomatoOs.Stdio
