import Mathlib.Data.BitVec

/-! # `wcrtomb` and `wctomb` of `mlibc-salernos/stdlib.patched.cpp`

A `wchar_t` is a signed word, which the range tests take for an unsigned one,
with wrap-around in their differences. Each store through the pointer is kept
with its address.
-/
namespace SalernOS.Libc.WideChar

inductive Errno where
  | eilseq
deriving DecidableEq, Repr

structure Store where
  addr : Nat
  byte : UInt8
deriving DecidableEq, Repr

/-- What a call returns as a number of `w` bits, what it stores and what it sets
`errno` to. -/
structure Result (w : Nat) where
  ret : BitVec w
  stored : List Store
  errno : Option Errno
deriving DecidableEq, Repr

/-- The conversion of an `int` to a `char`. -/
def toChar (x : BitVec 32) : UInt8 := ⟨x.setWidth 8⟩

def isCodeunit (c : BitVec 32) : Bool := c - 0xdf80#32 < 0x80#32

/-- `*s++ = ..` for each of the bytes. -/
def storesAt : Nat → List UInt8 → List Store
  | _, [] => []
  | s, b :: bs => ⟨s, b⟩ :: storesAt (s + 1) bs

def wcrtomb (mbCurMax : Nat) (s : Option Nat) (wc : BitVec 32) : Result 64 :=
  match s with
  | none => ⟨1, [], none⟩
  | some s =>
    if wc < 0x80#32 then ⟨1, storesAt s [toChar wc], none⟩
    else if mbCurMax = 1 then
      if !isCodeunit wc then ⟨-1, [], some .eilseq⟩
      else ⟨1, storesAt s [toChar wc], none⟩
    else if wc < 0x800#32 then
      ⟨2, storesAt s [
        toChar (0xc0#32 ||| wc.sshiftRight 6),
        toChar (0x80#32 ||| (wc &&& 0x3f#32))], none⟩
    else if wc < 0xd800#32 ∨ wc - 0xe000#32 < 0x2000#32 then
      ⟨3, storesAt s [
        toChar (0xe0#32 ||| wc.sshiftRight 12),
        toChar (0x80#32 ||| (wc.sshiftRight 6 &&& 0x3f#32)),
        toChar (0x80#32 ||| (wc &&& 0x3f#32))], none⟩
    else if wc - 0x10000#32 < 0x100000#32 then
      ⟨4, storesAt s [
        toChar (0xf0#32 ||| wc.sshiftRight 18),
        toChar (0x80#32 ||| (wc.sshiftRight 12 &&& 0x3f#32)),
        toChar (0x80#32 ||| (wc.sshiftRight 6 &&& 0x3f#32)),
        toChar (0x80#32 ||| (wc &&& 0x3f#32))], none⟩
    else ⟨-1, [], some .eilseq⟩

def wctomb (mbCurMax : Nat) (s : Option Nat) (wc : BitVec 32) : Result 32 :=
  match s with
  | none => ⟨0, [], none⟩
  | some s =>
    let r := wcrtomb mbCurMax (some s) wc
    ⟨r.ret.setWidth 32, r.stored, r.errno⟩

/-! ## Bytes of the encoding -/

section
variable {wc : BitVec 32}

/-- A tag in front of few enough bits. -/
theorem toChar_lead (hmsb : wc.msb = false) (s k tag : Nat) {lead : BitVec 32}
    (hlead : lead.toNat = 2 ^ k * tag) (hbits : wc.toNat / 2 ^ s < 2 ^ k) :
    toChar (lead ||| wc.sshiftRight s) = UInt8.ofNat (wc.toNat / 2 ^ s % 2 ^ k + lead.toNat) := by
  apply UInt8.toNat_inj.mp
  have hor : lead.toNat ||| wc.toNat >>> s = wc.toNat / 2 ^ s + lead.toNat := by
    rw [hlead, Nat.shiftRight_eq_div_pow, Nat.add_comm, Nat.two_pow_add_eq_or_of_lt hbits]
  rw [BitVec.sshiftRight_eq_of_msb_false hmsb, UInt8.toNat_ofNat', Nat.mod_eq_of_lt hbits, ← hor]
  change (BitVec.setWidth 8 _).toNat = _
  rw [BitVec.toNat_setWidth, BitVec.toNat_or, BitVec.toNat_ushiftRight]

/-- The six bits from the `s`-th on, behind the tag of a continuation. -/
theorem toChar_tail (hmsb : wc.msb = false) (s : Nat) :
    toChar (0x80#32 ||| (wc.sshiftRight s &&& 0x3f#32)) =
      UInt8.ofNat (wc.toNat / 2 ^ s % 64 + 0x80) := by
  apply UInt8.toNat_inj.mp
  have hsix : wc.toNat / 2 ^ s % 64 < 2 ^ 6 := Nat.mod_lt _ (by decide)
  have hor : 2 ^ 6 * 2 ||| wc.toNat / 2 ^ s % 64 = wc.toNat / 2 ^ s % 64 + 0x80 := by
    rw [← Nat.two_pow_add_eq_or_of_lt hsix, Nat.add_comm]
  rw [BitVec.sshiftRight_eq_of_msb_false hmsb, UInt8.toNat_ofNat', ← hor]
  change (BitVec.setWidth 8 _).toNat = _
  rw [BitVec.toNat_setWidth, BitVec.toNat_or, BitVec.toNat_and, BitVec.toNat_ushiftRight,
    Nat.shiftRight_eq_div_pow]
  change (2 ^ 6 * 2 ||| (wc.toNat / 2 ^ s &&& (2 ^ 6 - 1))) % _ = _
  rw [Nat.and_two_pow_sub_one_eq_mod]

theorem toChar_tail_zero (hmsb : wc.msb = false) :
    toChar (0x80#32 ||| (wc &&& 0x3f#32)) = UInt8.ofNat (wc.toNat % 64 + 0x80) := by
  simpa only [BitVec.sshiftRight_zero, Nat.pow_zero, Nat.div_one] using toChar_tail hmsb 0

end

/-! ## Scalar values -/

/-- The `wchar_t` of a Unicode scalar value. -/
def wcharOf (c : Char) : BitVec 32 := c.val.toBitVec

/-- Neither a surrogate nor above the last code point, and so not negative. -/
def IsScalar (wc : BitVec 32) : Prop :=
  wc.toNat < 0xd800 ∨ 0xe000 ≤ wc.toNat ∧ wc.toNat ≤ 0x10ffff

theorem isScalar_iff (wc : BitVec 32) : IsScalar wc ↔ ∃ c, wc = wcharOf c := by
  constructor
  · intro h
    have hvalid : (UInt32.ofBitVec wc).isValidChar :=
      h.imp_right fun h => ⟨h.1, Nat.lt_succ_of_le h.2⟩
    exact ⟨⟨⟨wc⟩, hvalid⟩, rfl⟩
  · rintro ⟨c, rfl⟩
    exact c.valid.imp_right fun h => ⟨h.1, Nat.le_of_lt_succ h.2⟩

/-- The encoding, as a function of the `wchar_t`. -/
theorem utf8EncodeChar_eq (c : Char) : String.utf8EncodeChar c =
    let n := (wcharOf c).toNat
    if n ≤ 0x7f then [UInt8.ofNat n]
    else if n ≤ 0x7ff then [UInt8.ofNat (n / 64 % 32 + 0xc0), UInt8.ofNat (n % 64 + 0x80)]
    else if n ≤ 0xffff then
      [UInt8.ofNat (n / 4096 % 16 + 0xe0), UInt8.ofNat (n / 64 % 64 + 0x80),
        UInt8.ofNat (n % 64 + 0x80)]
    else
      [UInt8.ofNat (n / 262144 % 8 + 0xf0), UInt8.ofNat (n / 4096 % 64 + 0x80),
        UInt8.ofNat (n / 64 % 64 + 0x80), UInt8.ofNat (n % 64 + 0x80)] := rfl

theorem toChar_eq (wc : BitVec 32) : toChar wc = UInt8.ofNat wc.toNat := by
  apply UInt8.toNat_inj.mp
  rw [UInt8.toNat_ofNat']
  exact BitVec.toNat_setWidth 8 wc

/-! ## The range tests -/

/-- A difference that wraps around is too large. -/
theorem sub_lt_iff (x b len : BitVec 32) (h : b.toNat + len.toNat ≤ 2 ^ 32) :
    x - b < len ↔ b.toNat ≤ x.toNat ∧ x.toNat < b.toNat + len.toNat := by
  have hx := x.isLt
  rw [BitVec.lt_def, BitVec.toNat_sub]
  omega

/-- Without the single-byte encoding, each test is for an interval. -/
theorem wcrtomb_eq {mbCurMax : Nat} (h : mbCurMax ≠ 1) (s : Nat) (wc : BitVec 32) :
    wcrtomb mbCurMax (some s) wc =
      if wc.toNat < 0x80 then ⟨1, storesAt s [toChar wc], none⟩
      else if wc.toNat < 0x800 then
        ⟨2, storesAt s [
          toChar (0xc0#32 ||| wc.sshiftRight 6),
          toChar (0x80#32 ||| (wc &&& 0x3f#32))], none⟩
      else if wc.toNat < 0xd800 ∨ 0xe000 ≤ wc.toNat ∧ wc.toNat < 0x10000 then
        ⟨3, storesAt s [
          toChar (0xe0#32 ||| wc.sshiftRight 12),
          toChar (0x80#32 ||| (wc.sshiftRight 6 &&& 0x3f#32)),
          toChar (0x80#32 ||| (wc &&& 0x3f#32))], none⟩
      else if 0x10000 ≤ wc.toNat ∧ wc.toNat < 0x110000 then
        ⟨4, storesAt s [
          toChar (0xf0#32 ||| wc.sshiftRight 18),
          toChar (0x80#32 ||| (wc.sshiftRight 12 &&& 0x3f#32)),
          toChar (0x80#32 ||| (wc.sshiftRight 6 &&& 0x3f#32)),
          toChar (0x80#32 ||| (wc &&& 0x3f#32))], none⟩
      else ⟨-1, [], some .eilseq⟩ := by
  have hone : wc < 0x80#32 ↔ wc.toNat < 0x80 := BitVec.lt_def
  have htwo : wc < 0x800#32 ↔ wc.toNat < 0x800 := BitVec.lt_def
  have hthree : wc < 0xd800#32 ↔ wc.toNat < 0xd800 := BitVec.lt_def
  have hprivate : wc - 0xe000#32 < 0x2000#32 ↔ 0xe000 ≤ wc.toNat ∧ wc.toNat < 0x10000 :=
    sub_lt_iff wc 0xe000#32 0x2000#32 (by decide)
  have hfour : wc - 0x10000#32 < 0x100000#32 ↔ 0x10000 ≤ wc.toNat ∧ wc.toNat < 0x110000 :=
    sub_lt_iff wc 0x10000#32 0x100000#32 (by decide)
  unfold wcrtomb
  simp only [hone, htwo, hthree, hprivate, hfour, if_neg h]

/-- A scalar value is stored as its encoding, whose length is returned. -/
theorem wcrtomb_wcharOf {mbCurMax : Nat} (h : mbCurMax ≠ 1) (s : Nat) (c : Char) :
    wcrtomb mbCurMax (some s) (wcharOf c) =
      ⟨BitVec.ofNat 64 (String.utf8EncodeChar c).length, storesAt s (String.utf8EncodeChar c),
        none⟩ := by
  have hscalar : IsScalar (wcharOf c) := (isScalar_iff _).mpr ⟨c, rfl⟩
  rw [utf8EncodeChar_eq, wcrtomb_eq h]
  generalize wcharOf c = wc at hscalar ⊢
  unfold IsScalar at hscalar
  have hmsb : wc.msb = false := by
    rw [BitVec.msb_eq_false_iff_two_mul_lt]
    omega
  have htail : ∀ s, toChar (0x80#32 ||| (wc.sshiftRight s &&& 0x3f#32)) =
      UInt8.ofNat (wc.toNat / 2 ^ s % 64 + 0x80) := toChar_tail hmsb
  by_cases h₁ : wc.toNat < 0x80
  · rw [if_pos h₁, if_pos (by omega), toChar_eq]
    rfl
  rw [if_neg h₁]
  by_cases h₂ : wc.toNat < 0x800
  · have hlead : toChar (0xc0#32 ||| wc.sshiftRight 6) =
        UInt8.ofNat (wc.toNat / 64 % 32 + 0xc0) := toChar_lead hmsb 6 5 6 rfl (by omega)
    rw [if_pos h₂, if_neg (by omega), if_pos (by omega), hlead, toChar_tail_zero hmsb]
    rfl
  rw [if_neg h₂]
  by_cases h₃ : wc.toNat < 0x10000
  · have hlead : toChar (0xe0#32 ||| wc.sshiftRight 12) =
        UInt8.ofNat (wc.toNat / 4096 % 16 + 0xe0) := toChar_lead hmsb 12 4 14 rfl (by omega)
    rw [if_pos (by omega), if_neg (by omega), if_neg (by omega), if_pos (by omega), hlead,
      htail 6, toChar_tail_zero hmsb]
    rfl
  · have hlead : toChar (0xf0#32 ||| wc.sshiftRight 18) =
        UInt8.ofNat (wc.toNat / 262144 % 8 + 0xf0) := toChar_lead hmsb 18 3 30 rfl (by omega)
    rw [if_neg (by omega), if_pos (by omega), if_neg (by omega), if_neg (by omega),
      if_neg (by omega), hlead, htail 12, htail 6, toChar_tail_zero hmsb]
    rfl

/-- Anything else is refused. -/
theorem wcrtomb_refused {mbCurMax : Nat} (h : mbCurMax ≠ 1) (s : Nat) {wc : BitVec 32}
    (hwc : ¬ IsScalar wc) : wcrtomb mbCurMax (some s) wc = ⟨-1, [], some .eilseq⟩ := by
  unfold IsScalar at hwc
  rw [wcrtomb_eq h, if_neg (by omega), if_neg (by omega), if_neg (by omega), if_neg (by omega)]

/-! ## Strings -/

/-- A caller that converts one after the other into the same buffer. -/
def convertAll (mbCurMax : Nat) : Nat → List (BitVec 32) → List Store
  | _, [] => []
  | s, wc :: wcs =>
    let r := wcrtomb mbCurMax (some s) wc
    r.stored ++ convertAll mbCurMax (s + r.ret.toNat) wcs

theorem storesAt_append : ∀ (as bs : List UInt8) (s : Nat),
    storesAt s (as ++ bs) = storesAt s as ++ storesAt (s + as.length) bs
  | [], _, _ => rfl
  | a :: as, bs, s => by
    have hlen : s + (a :: as).length = s + 1 + as.length := by
      rw [List.length_cons]
      omega
    rw [List.cons_append, storesAt, storesAt_append as bs (s + 1), hlen]
    rfl

theorem storesAt_bytes : ∀ (bs : List UInt8) (s : Nat), (storesAt s bs).map Store.byte = bs
  | [], _ => rfl
  | b :: bs, s => congrArg (b :: ·) (storesAt_bytes bs (s + 1))

theorem length_le_four (c : Char) : (String.utf8EncodeChar c).length ≤ 4 := by
  rw [String.length_utf8EncodeChar]
  exact Char.utf8Size_le_four c

/-- What they leave are the encodings, one behind the other. -/
theorem convertAll_wcharOf {mbCurMax : Nat} (h : mbCurMax ≠ 1) : ∀ (cs : List Char) (s : Nat),
    convertAll mbCurMax s (cs.map wcharOf) = storesAt s (cs.flatMap String.utf8EncodeChar)
  | [], _ => rfl
  | c :: cs, s => by
    have hret : (BitVec.ofNat 64 (String.utf8EncodeChar c).length).toNat =
        (String.utf8EncodeChar c).length := by
      rw [BitVec.toNat_ofNat, Nat.mod_eq_of_lt]
      exact Nat.lt_of_le_of_lt (length_le_four c) (by decide)
    rw [List.map_cons, convertAll, wcrtomb_wcharOf h]
    simp only [hret]
    rw [convertAll_wcharOf h cs, List.flatMap_cons, storesAt_append]

/-- A call stores the encoding of a scalar value and returns its length, and
refuses anything else. -/
structure Encodes {w : Nat} (s : Nat) (wc : BitVec 32) (r : Result w) : Prop where
  scalar : ∀ c, wc = wcharOf c →
    r = ⟨BitVec.ofNat w (String.utf8EncodeChar c).length, storesAt s (String.utf8EncodeChar c), none⟩
  refused : ¬ IsScalar wc → r = ⟨-1, [], some .eilseq⟩

/-- **UTF-8 output is exact.** Every `wchar_t` is encoded or refused, by both
functions, and what is stored for a string decodes to it. -/
theorem utf8_exact (mbCurMax : Nat) (h : mbCurMax ≠ 1) :
    (∀ (s : Nat) (wc : BitVec 32), Encodes s wc (wcrtomb mbCurMax (some s) wc) ∧
      Encodes s wc (wctomb mbCurMax (some s) wc)) ∧
    ∀ (s : Nat) (cs : List Char),
      convertAll mbCurMax s (cs.map wcharOf) = storesAt s (cs.flatMap String.utf8EncodeChar) ∧
      ((convertAll mbCurMax s (cs.map wcharOf)).map Store.byte).toByteArray.utf8Decode? =
        some cs.toArray := by
  refine ⟨fun s wc => ⟨⟨?_, wcrtomb_refused h s⟩, ?_, fun hwc => ?_⟩, fun s cs => ?_⟩
  · rintro c rfl
    exact wcrtomb_wcharOf h s c
  · rintro c rfl
    unfold wctomb
    simp only [wcrtomb_wcharOf h s c]
    rw [BitVec.setWidth_ofNat_of_le (by decide)]
  · unfold wctomb
    simp only [wcrtomb_refused h s hwc]
    rfl
  · rw [convertAll_wcharOf h, storesAt_bytes]
    exact ⟨rfl, List.utf8Decode?_utf8Encode⟩

/-- A character of three bytes. -/
theorem utf8_exact_three :
    ((convertAll 4 0 [0x20ac#32]).map Store.byte).toByteArray.utf8Decode? =
      some #[Char.ofNat 0x20ac] :=
  ((utf8_exact 4 (by decide)).2 0 [Char.ofNat 0x20ac]).2

end SalernOS.Libc.WideChar
