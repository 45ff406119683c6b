import SalernOS.Libc.FloatConstant

/-! # The floating conversions of `scanf`

`mlibc/jinx-working-patch.patch` adds `%a`, `%e`, `%f` and `%g` to `do_scanf`.
The handler of the input gives one byte of lookahead, and NUL at its end.
-/
namespace SalernOS.Libc.ScanFloat
open SalernOS.Lib SalernOS.Libc SalernOS.Libc.FloatConstant

/-- `strtof`, `strtod` or `strtold`: what it returns, and where `*endptr` stands.
It converts the longest prefix that is a constant. -/
structure Strto (V : Type) where
  value : Bytes → V
  convert : Bytes → V × Nat
  converts : ∀ s p, p <+: s → IsConstant p →
    (∀ p', p' <+: s → IsConstant p' → p'.length ≤ p.length) → convert s = (value p, p.length)
  rejects : ∀ s, (∀ p, p <+: s → ¬ IsConstant p) → (convert s).2 = 0

structure Library (V : Type) where
  strtof : Strto V
  strtod : Strto V
  strtold : Strto V

/-- `SCANF_TYPE_LL`, `SCANF_TYPE_L` or any other. -/
inductive ScanfType where
  | ll
  | l
  | other
deriving DecidableEq, Repr

/-- The function that converts what is stored to the destination. -/
def Library.strto {V : Type} (lib : Library V) : ScanfType → Strto V
  | .ll => lib.strtold
  | .l => lib.strtod
  | .other => lib.strtof

/-! ## The scanner -/

/-- `fbuf` and `count`, and what the handler has not consumed. -/
structure Scanner where
  fbuf : Bytes
  count : Nat
  rest : Bytes
deriving DecidableEq, Repr

namespace Scanner

def lookAhead (s : Scanner) : UInt8 := s.rest.headD nul

def take (s : Scanner) : Scanner := ⟨s.fbuf ++ [s.lookAhead], s.count + 1, s.rest.tail⟩

def room (width : Nat) (s : Scanner) : Bool := width == 0 || s.count < width

def takeIf (width : Nat) (test : UInt8 → Bool) (s : Scanner) : Scanner :=
  if test s.lookAhead && s.room width then s.take else s

/-- A loop, for as many rounds as there are bytes. -/
def takeWhile (width : Nat) (test : UInt8 → Bool) : Nat → Scanner → Scanner
  | 0, s => s
  | n + 1, s =>
    if s.room width && test s.lookAhead then takeWhile width test n s.take else s

end Scanner

/-- `c == '.' || (is_hex ? isxdigit(c) : isdigit(c))` -/
def mantissaByte (isHex : Bool) (c : UInt8) : Bool := c == point || isDigitOf isHex c

def scanExponent (width : Nat) (isHex : Bool) (s : Scanner) : Scanner :=
  if s.room width && isMarker isHex s.lookAhead then
    let s := s.take
    let s := s.takeIf width isSign
    s.takeWhile width isdigit s.rest.length
  else s

def scanMantissa (width : Nat) (isHex : Bool) (s : Scanner) : Scanner :=
  scanExponent width isHex (s.takeWhile width (mantissaByte isHex) s.rest.length)

def scanUnsigned (width : Nat) (s : Scanner) : Scanner :=
  if s.lookAhead == zeroDigit && s.room width then
    let s := s.take
    if isHexMark s.lookAhead && s.room width then scanMantissa width true s.take
    else scanMantissa width false s
  else scanMantissa width false s

/-- The text that is handed to `strtod`. -/
def scanItem (width : Nat) (s : Scanner) : Scanner := scanUnsigned width (s.takeIf width isSign)

/-- How the conversion ends: by `EOF_CHECK`, by `NOMATCH_CHECK`, or with a value. -/
inductive Code where
  | eof
  | nomatch
  | ok
deriving DecidableEq, Repr

/-- What is left of the input, and what `dest` points to, where `none` is `NULL`. -/
structure Result (V : Type) where
  code : Code
  rest : Bytes
  dest : Option V

variable {V : Type}

/-- What is done with the text. -/
def convertItem (strto : Strto V) (s : Scanner) (dest : Option V) : Result V :=
  if s.count = 0 then ⟨.nomatch, s.rest, dest⟩
  else
    let (v, fend) := strto.convert s.fbuf
    if fend = 0 then ⟨.nomatch, s.rest, dest⟩ else ⟨.ok, s.rest, dest.map fun _ => v⟩

def scanFloat (lib : Library V) (type : ScanfType) (width : Nat) (input : Bytes)
    (dest : Option V) : Result V :=
  let s : Scanner := ⟨[], 0, input⟩
  if s.lookAhead = nul then ⟨.eof, s.rest, dest⟩
  else convertItem (lib.strto type) (scanItem width s) dest

/-! ## The input item -/

def Fits (width : Nat) (p : Bytes) : Prop := width = 0 ∨ p.length ≤ width

/-- The longest prefix of the input, within the width, that begins a constant. -/
structure IsItem (width : Nat) (input item : Bytes) : Prop where
  isPrefix : item <+: input
  fits : Fits width item
  isPartial : IsPartial item
  longest : ∀ p, p <+: input → Fits width p → IsPartial p → p.length ≤ item.length

/-- The conversion consumes the input item, and succeeds when that is a constant,
whose value it stores. -/
def Scanned (strto : Strto V) (width : Nat) (input : Bytes) (dest : Option V) (r : Result V) :
    Prop :=
  ∃ item, IsItem width input item ∧ input = item ++ r.rest ∧ (r.code = .ok ↔ IsConstant item) ∧
    (r.code = .ok → r.dest = dest.map fun _ => strto.value item)

/-- The bytes that may be consumed. -/
def window (width : Nat) (input : Bytes) : Bytes := if width = 0 then input else input.take width

def inputItem (width : Nat) (input : Bytes) : Bytes := munch Phase.step .start (window width input)

/-- The scanner goes on over this byte, although the constant does not: a second
point, or an exponent behind no digits. -/
def overread : Phase → UInt8 → Bool
  | .start, c => isMarker false c
  | .signed, c => isMarker false c
  | .mantissa hex digits hasPoint, c => c == point && hasPoint || isMarker hex c && !digits
  | _, _ => false

/-- The scanner stops behind the input item. -/
def Stops (width : Nat) (input : Bytes) : Prop :=
  ∀ q c rest, window width input = inputItem width input ++ c :: rest →
    runAll Phase.step .start (inputItem width input) = some q → overread q c = false

/-- The input item is complete, or it has no digit yet. -/
def Settled (width : Nat) (input : Bytes) : Prop :=
  IsConstant (inputItem width input) ∨ ∀ c ∈ inputItem width input, isdigit c = false

/-! ## What the scanner accepts -/

/-- Where the scanner stands. -/
inductive Place where
  | start
  | signed
  | zero
  | mantissa (isHex : Bool)
  | marker
  | exponent
deriving DecidableEq, Repr

namespace Place

def inMantissa (isHex : Bool) (c : UInt8) : Option Place :=
  if mantissaByte isHex c then some (.mantissa isHex)
  else if isMarker isHex c then some .marker else none

def afterSign (c : UInt8) : Option Place :=
  if c = zeroDigit then some .zero else inMantissa false c

def step : Place → UInt8 → Option Place
  | .start, c => if isSign c then some .signed else afterSign c
  | .signed, c => afterSign c
  | .zero, c => if isHexMark c then some (.mantissa true) else inMantissa false c
  | .mantissa isHex, c => inMantissa isHex c
  | .marker, c => if isSign c || isdigit c then some .exponent else none
  | .exponent, c => if isdigit c then some .exponent else none

end Place

/-- Where the scanner stands when a constant is in a phase. -/
def place : Phase → Place
  | .start => .start
  | .signed => .signed
  | .zero => .zero
  | .mantissa hex _ _ => .mantissa hex
  | .marker _ => .marker
  | .exponentSign _ => .exponent
  | .exponent _ => .exponent

theorem mantissaByte_of_isDigitOf {hex : Bool} {c : UInt8} (h : isDigitOf hex c = true) :
    mantissaByte hex c = true := by
  unfold mantissaByte
  rw [h, Bool.or_true]

theorem inMantissa_place {q : Phase} {hex digits hasPoint : Bool} {c : UInt8}
    (hq : overread q c = overread (.mantissa hex digits hasPoint) c) :
    (∀ u, Phase.inMantissa hex digits hasPoint c = some u →
      Place.inMantissa hex c = some (place u)) ∧
    (Phase.inMantissa hex digits hasPoint c = none →
      (Place.inMantissa hex c = none ↔ overread q c = false)) := by
  rw [hq]
  by_cases hpoint : c = point
  · subst hpoint
    have hm : isMarker hex point = false := by cases hex <;> rfl
    cases hasPoint <;>
      simp [Phase.inMantissa, Place.inMantissa, mantissaByte, overread, place, hm]
  by_cases hdigit : isDigitOf hex c = true
  · rw [inMantissa_digit hdigit]
    refine ⟨fun u hu => ?_, fun h => absurd h (Option.some_ne_none _)⟩
    cases hu
    exact if_pos (mantissaByte_of_isDigitOf hdigit)
  · simp only [Bool.not_eq_true] at hdigit
    cases hm : isMarker hex c <;> cases digits <;>
      simp [Phase.inMantissa, Place.inMantissa, mantissaByte, overread, place, hm, hdigit, hpoint]

theorem afterSign_place {q : Phase} {c : UInt8}
    (hq : overread q c = overread (.mantissa false false false) c) :
    (∀ u, Phase.afterSign c = some u → Place.afterSign c = some (place u)) ∧
    (Phase.afterSign c = none → (Place.afterSign c = none ↔ overread q c = false)) := by
  unfold Phase.afterSign Place.afterSign
  by_cases hzero : c = zeroDigit
  · rw [if_pos hzero, if_pos hzero]
    exact ⟨fun u hu => Option.some.inj hu ▸ rfl, fun h => absurd h (Option.some_ne_none _)⟩
  · rw [if_neg hzero, if_neg hzero]
    exact inMantissa_place hq

/-- The scanner follows a constant, and overreads where it does not stop with it. -/
theorem step_place (q : Phase) (c : UInt8) :
    (∀ u, q.step c = some u → (place q).step c = some (place u)) ∧
    (q.step c = none → ((place q).step c = none ↔ overread q c = false)) := by
  cases q with
  | start =>
    rw [show place .start = .start from rfl]
    simp only [Phase.step, Place.step]
    split
    · exact ⟨fun u hu => Option.some.inj hu ▸ rfl, fun h => absurd h (Option.some_ne_none _)⟩
    · exact afterSign_place (by simp [overread])
  | signed => exact afterSign_place (by simp [overread])
  | zero =>
    rw [show place .zero = .zero from rfl]
    simp only [Phase.step, Place.step]
    split
    · exact ⟨fun u hu => Option.some.inj hu ▸ rfl, fun h => absurd h (Option.some_ne_none _)⟩
    · exact inMantissa_place (by simp [overread])
  | mantissa hex digits hasPoint => exact inMantissa_place rfl
  | marker hex =>
    simp only [Phase.step, Place.step, place]
    cases hs : isSign c <;> cases hd : isdigit c <;> simp [overread]
  | exponentSign hex =>
    simp only [Phase.step, Place.step, place]
    cases hd : isdigit c <;> simp [overread]
  | exponent hex =>
    simp only [Phase.step, Place.step, place]
    cases hd : isdigit c <;> simp [overread]

/-! ## What the scanner reads -/

/-- The bytes that it may still consume. -/
def Scanner.ahead (width : Nat) (s : Scanner) : Bytes :=
  if width = 0 then s.rest else s.rest.take (width - s.count)

/-- From one place to the end, the scanner consumes all that it accepts. -/
structure Reads (width : Nat) (q : Place) (s s' : Scanner) : Prop where
  fbuf : s'.fbuf = s.fbuf ++ munch Place.step q (s.ahead width)
  rest : s.rest = munch Place.step q (s.ahead width) ++ s'.rest
  count : s'.count = s.count + (munch Place.step q (s.ahead width)).length

/-- A byte is taken when it is there, there is room for it, and it passes the test. -/
theorem room_test {width : Nat} {s : Scanner} {test : UInt8 → Bool} (hnul : test nul = false) :
    (s.room width && test s.lookAhead) = (s.ahead width).head?.any test := by
  obtain ⟨fbuf, count, rest⟩ := s
  cases rest with
  | nil => simp [Scanner.room, Scanner.lookAhead, Scanner.ahead, hnul]
  | cons c rest =>
    by_cases hw : width = 0
    · simp [Scanner.room, Scanner.lookAhead, Scanner.ahead, hw]
    · by_cases hc : count < width
      · obtain ⟨n, hn⟩ := Nat.exists_eq_succ_of_ne_zero (Nat.sub_ne_zero_of_lt hc)
        simp [Scanner.room, Scanner.lookAhead, Scanner.ahead, hw, hc, hn]
      · have hn : width - count = 0 := by omega
        simp [Scanner.room, Scanner.lookAhead, Scanner.ahead, hw, hc, hn]

theorem ahead_cons {width : Nat} {s : Scanner} {c : UInt8} {w : Bytes}
    (h : s.ahead width = c :: w) :
    s.lookAhead = c ∧ s.rest = c :: s.take.rest ∧ s.take.ahead width = w := by
  obtain ⟨fbuf, count, rest⟩ := s
  unfold Scanner.ahead at h
  cases rest with
  | nil => split at h <;> simp at h
  | cons d rest =>
    by_cases hw : width = 0
    · simp only [hw, if_true] at h
      cases h
      exact ⟨rfl, rfl, by simp [Scanner.ahead, Scanner.take, hw]⟩
    · rw [if_neg hw] at h
      cases hn : width - count with
      | zero => simp [hn] at h
      | succ n =>
        simp only [hn, List.take_succ_cons] at h
        cases h
        have hn' : width - (count + 1) = n := by omega
        exact ⟨rfl, rfl, by simp [Scanner.ahead, Scanner.take, hw, hn']⟩

theorem Reads.take {width : Nat} {q q' : Place} {s s' : Scanner} {c : UInt8} {w : Bytes}
    (h : s.ahead width = c :: w) (hq : q.step c = some q') (hr : Reads width q' s.take s') :
    Reads width q s s' := by
  obtain ⟨hc, hrest, hahead⟩ := ahead_cons h
  have hmunch : munch Place.step q (s.ahead width) =
      c :: munch Place.step q' (s.take.ahead width) := by
    rw [h, hahead, munch_cons_some hq]
  constructor
  · rw [hr.fbuf, hmunch]
    simp [Scanner.take, hc]
  · rw [hmunch, List.cons_append, ← hr.rest]
    exact hrest
  · rw [hr.count, hmunch]
    simp [Scanner.take]
    omega

theorem Reads.skip {width : Nat} {q q' : Place} {s s' : Scanner}
    (h : ∀ c ∈ (s.ahead width).head?, q.step c = q'.step c) (hr : Reads width q' s s') :
    Reads width q s s' := by
  have hmunch : munch Place.step q (s.ahead width) = munch Place.step q' (s.ahead width) := by
    cases hw : s.ahead width with
    | nil => rfl
    | cons c w =>
      have hstep := h c (by rw [hw]; rfl)
      unfold munch
      rw [hstep]
  exact ⟨hmunch ▸ hr.fbuf, hmunch ▸ hr.rest, hmunch ▸ hr.count⟩

theorem Reads.stop {width : Nat} {q : Place} {s : Scanner}
    (h : ∀ c ∈ (s.ahead width).head?, q.step c = none) : Reads width q s s := by
  have hmunch : munch Place.step q (s.ahead width) = [] := by
    cases hw : s.ahead width with
    | nil => rfl
    | cons c w => exact munch_cons_none (h c (by rw [hw]; rfl)) w
  constructor <;> simp [hmunch]

/-- A test on the next byte, with the room for it. -/
theorem room_test_cases (width : Nat) (s : Scanner) (test : UInt8 → Bool)
    (hnul : test nul = false) :
    ((s.room width && test s.lookAhead) = true ∧
      ∃ c w, s.ahead width = c :: w ∧ test c = true) ∨
    ((s.room width && test s.lookAhead) = false ∧
      ∀ c ∈ (s.ahead width).head?, test c = false) := by
  rw [room_test hnul]
  cases s.ahead width with
  | nil => exact .inr ⟨rfl, nofun⟩
  | cons c w =>
    cases hc : test c with
    | true => exact .inl ⟨by simpa using hc, c, w, rfl, hc⟩
    | false => exact .inr ⟨by simpa using hc, fun d hd => Option.some.inj hd ▸ hc⟩

theorem reads_digits {width : Nat} : ∀ {n : Nat} {s : Scanner}, s.rest.length = n →
    Reads width .exponent s (s.takeWhile width isdigit n)
  | 0, s, hn => by
    have hahead : s.ahead width = [] := by
      simp [Scanner.ahead, List.eq_nil_of_length_eq_zero hn]
    exact .stop (by simp [hahead])
  | n + 1, s, hn => by
    unfold Scanner.takeWhile
    rcases room_test_cases width s isdigit rfl with
      ⟨htest, c, w, hcw, hc⟩ | ⟨htest, hstop⟩
    · rw [if_pos htest]
      refine .take hcw (if_pos hc) (reads_digits ?_)
      have hrest := (ahead_cons hcw).2.1
      rw [hrest] at hn
      exact Nat.succ.inj hn
    · rw [if_neg (by simp [htest])]
      refine .stop fun c hc => ?_
      simp [Place.step, hstop c hc]

/-- The sign of an exponent and its digits. -/
theorem reads_marker (width : Nat) (s : Scanner) : Reads width .marker s
    ((s.takeIf width isSign).takeWhile width isdigit (s.takeIf width isSign).rest.length) := by
  unfold Scanner.takeIf
  rw [Bool.and_comm]
  rcases room_test_cases width s isSign rfl with ⟨htest, c, w, hcw, hc⟩ | ⟨htest, hstop⟩
  · rw [if_pos htest]
    exact .take hcw (if_pos (by rw [hc]; rfl)) (reads_digits rfl)
  · rw [if_neg (by simp [htest])]
    refine .skip (fun c hc => ?_) (reads_digits rfl)
    simp [Place.step, hstop c hc]

/-- What comes behind the loop over the mantissa. -/
theorem reads_exponent {width : Nat} {isHex : Bool} {s : Scanner}
    (h : ∀ c ∈ (s.ahead width).head?, mantissaByte isHex c = false) :
    Reads width (.mantissa isHex) s (scanExponent width isHex s) := by
  unfold scanExponent
  rcases room_test_cases width s (isMarker isHex) (by cases isHex <;> rfl) with
    ⟨htest, c, w, hcw, hc⟩ | ⟨htest, hstop⟩
  · rw [if_pos htest]
    have hbyte : mantissaByte isHex c = false := h c (by rw [hcw]; rfl)
    refine .take hcw ?_ (reads_marker width s.take)
    simp [Place.step, Place.inMantissa, hbyte, hc]
  · rw [if_neg (by simp [htest])]
    refine .stop fun c hc => ?_
    simp [Place.step, Place.inMantissa, h c hc, hstop c hc]

theorem reads_mantissa {width : Nat} {isHex : Bool} : ∀ {n : Nat} {s : Scanner},
    s.rest.length = n → Reads width (.mantissa isHex) s
      (scanExponent width isHex (s.takeWhile width (mantissaByte isHex) n))
  | 0, s, hn => by
    have hahead : s.ahead width = [] := by
      simp [Scanner.ahead, List.eq_nil_of_length_eq_zero hn]
    exact reads_exponent (by simp [hahead])
  | n + 1, s, hn => by
    unfold Scanner.takeWhile
    rcases room_test_cases width s (mantissaByte isHex) (by cases isHex <;> rfl) with
      ⟨htest, c, w, hcw, hc⟩ | ⟨htest, hstop⟩
    · rw [if_pos htest]
      refine .take hcw (if_pos hc) (reads_mantissa ?_)
      have hrest := (ahead_cons hcw).2.1
      rw [hrest] at hn
      exact Nat.succ.inj hn
    · rw [if_neg (by simp [htest])]
      exact reads_exponent hstop

theorem reads_zero (width : Nat) (s : Scanner) : Reads width .zero s
    (if isHexMark s.lookAhead && s.room width then scanMantissa width true s.take
      else scanMantissa width false s) := by
  rw [Bool.and_comm]
  rcases room_test_cases width s isHexMark rfl with ⟨htest, c, w, hcw, hc⟩ | ⟨htest, hstop⟩
  · rw [if_pos htest]
    exact .take hcw (if_pos hc) (reads_mantissa rfl)
  · rw [if_neg (by simp [htest])]
    refine .skip (fun c hc => ?_) (reads_mantissa rfl)
    simp [Place.step, hstop c hc]

theorem reads_signed (width : Nat) (s : Scanner) :
    Reads width .signed s (scanUnsigned width s) := by
  unfold scanUnsigned
  rw [Bool.and_comm (s.lookAhead == zeroDigit)]
  rcases room_test_cases width s (· == zeroDigit) rfl with ⟨htest, c, w, hcw, hc⟩ | ⟨htest, hstop⟩
  · rw [if_pos htest]
    exact .take hcw (if_pos (by simpa using hc)) (reads_zero width s.take)
  · rw [if_neg (by simp only [htest]; nofun)]
    refine .skip (fun c hc => ?_) (reads_mantissa rfl)
    have hne : c ≠ zeroDigit := by simpa using hstop c hc
    exact if_neg hne

/-- The scanner consumes all that it accepts from the start. -/
theorem reads_item (width : Nat) (s : Scanner) : Reads width .start s (scanItem width s) := by
  unfold scanItem Scanner.takeIf
  rw [Bool.and_comm]
  rcases room_test_cases width s isSign rfl with ⟨htest, c, w, hcw, hc⟩ | ⟨htest, hstop⟩
  · rw [if_pos htest]
    exact .take hcw (if_pos hc) (reads_signed width s.take)
  · rw [if_neg (by simp only [htest]; nofun)]
    refine .skip (fun c hc => ?_) (reads_signed width s)
    simp [Place.step, hstop c hc]

/-! ## The input item is what is scanned -/

theorem prefix_window_iff {width : Nat} {input p : Bytes} :
    p <+: window width input ↔ p <+: input ∧ Fits width p := by
  unfold window Fits
  by_cases hw : width = 0
  · simp [hw]
  · rw [if_neg hw, List.prefix_take_iff]
    simp [hw]

theorem isItem_inputItem (width : Nat) (input : Bytes) :
    IsItem width input (inputItem width input) := by
  obtain ⟨rest, q, -, hrun, -⟩ := munch_spec Phase.step .start (window width input)
  obtain ⟨hpre, hfits⟩ := prefix_window_iff.mp (munch_isPrefix Phase.start (window width input))
  exact ⟨hpre, hfits, isPartial_iff.mpr (Option.isSome_of_mem hrun), fun p hp hf hpart =>
    length_le_munch (prefix_window_iff.mpr ⟨hp, hf⟩) (isPartial_iff.mp hpart)⟩

theorem IsItem.eq {width : Nat} {input item : Bytes} (h : IsItem width input item) :
    item = inputItem width input := by
  have h' := isItem_inputItem width input
  have hle := h'.longest item h.isPrefix h.fits h.isPartial
  have hge := h.longest _ h'.isPrefix h'.fits h'.isPartial
  exact (List.prefix_of_prefix_length_le h.isPrefix h'.isPrefix hle).eq_of_length
    (Nat.le_antisymm hle hge)

/-- What the scanner consumes of the input. -/
def scanned (width : Nat) (input : Bytes) : Bytes := munch Place.step .start (window width input)

theorem stops_iff {width : Nat} {input : Bytes} :
    Stops width input ↔ scanned width input = inputItem width input := by
  obtain ⟨rest, q, hw, hrun, hstop⟩ := munch_spec Phase.step .start (window width input)
  have hsim := munch_simulation (fun q c u => (step_place q c).1 u) hrun hstop
  rw [← hw] at hsim
  refine Iff.trans ?_ hsim.symm
  constructor
  · intro h c hc
    obtain ⟨rest, rfl⟩ := List.head?_eq_some_iff.mp hc
    exact ((step_place q c).2 (hstop c rfl)).mpr (h q c rest hw hrun)
  · intro h q' c rest' hw' hrun'
    cases hrun.symm.trans hrun'
    have hrest : rest = c :: rest' := List.append_cancel_left (hw.symm.trans hw')
    subst hrest
    exact ((step_place q c).2 (hstop c rfl)).mp (h c rfl)

/-- What `strtod` makes of a text: it finds a constant, if the text begins with one. -/
theorem convert_iff (strto : Strto V) (s : Bytes) :
    (strto.convert s).2 ≠ 0 ↔ ∃ p, p <+: s ∧ IsConstant p := by
  constructor
  · intro h
    by_contra hnone
    exact h (strto.rejects s fun p hp hconst => hnone ⟨p, hp, hconst⟩)
  · rintro ⟨p, hp, hconst⟩
    obtain ⟨q, hq, hmax⟩ : ∃ q, (q <+: s ∧ IsConstant q) ∧
        ∀ p', p' <+: s → IsConstant p' → p'.length ≤ q.length := by
      cases hlong : longestPrefix IsConstant s s.length with
      | none => exact absurd hconst (longestPrefix_none hlong p hp hp.length_le)
      | some q =>
        obtain ⟨hq, hqc, hmax⟩ := longestPrefix_some hlong
        exact ⟨q, ⟨hq, hqc⟩, fun p' hp' => hmax p' hp' hp'.length_le⟩
    rw [strto.converts s q hq.1 hq.2 hmax]
    obtain ⟨c, hc, -⟩ := hq.2.exists_digit
    exact Nat.ne_of_gt (List.length_pos_of_mem hc)

theorem convertItem_spec (strto : Strto V) {s : Scanner} (dest : Option V)
    (hcount : s.count = s.fbuf.length) :
    (convertItem strto s dest).rest = s.rest ∧
      ((convertItem strto s dest).code = .ok ↔ ∃ p, p <+: s.fbuf ∧ IsConstant p) ∧
      ((convertItem strto s dest).code = .ok →
        (convertItem strto s dest).dest = dest.map fun _ => (strto.convert s.fbuf).1) := by
  rw [← convert_iff strto]
  unfold convertItem
  by_cases hzero : s.count = 0
  · have hempty : s.fbuf = [] := List.eq_nil_of_length_eq_zero (hcount ▸ hzero)
    have hnone : (strto.convert s.fbuf).2 = 0 := by
      rw [hempty]
      exact strto.rejects [] fun p hp hconst => not_isConstant_nil (List.prefix_nil.mp hp ▸ hconst)
    rw [if_pos hzero]
    exact ⟨rfl, iff_of_false nofun (not_not.mpr hnone), nofun⟩
  · rw [if_neg hzero]
    by_cases hend : (strto.convert s.fbuf).2 = 0
    · simp [hend]
    · simp [hend]

/-- What a call comes to, by the bytes that it consumes. -/
theorem scanFloat_spec (lib : Library V) (type : ScanfType) (width : Nat) (input : Bytes)
    (dest : Option V) :
    input = scanned width input ++ (scanFloat lib type width input dest).rest ∧
      ((scanFloat lib type width input dest).code = .ok ↔
        ∃ p, p <+: scanned width input ∧ IsConstant p) ∧
      ((scanFloat lib type width input dest).code = .ok →
        (scanFloat lib type width input dest).dest =
          dest.map fun _ => ((lib.strto type).convert (scanned width input)).1) := by
  have hahead : (Scanner.mk [] 0 input).ahead width = window width input := by
    simp [Scanner.ahead, window]
  by_cases hnul : input.headD nul = nul
  · have hr : scanFloat lib type width input dest = ⟨.eof, input, dest⟩ := if_pos hnul
    have htext : scanned width input = [] := by
      unfold scanned
      cases hw : window width input with
      | nil => rfl
      | cons c w =>
        have hc : c = nul := (ahead_cons (hahead.trans hw)).1.symm.trans hnul
        rw [hc]
        exact munch_cons_none rfl w
    rw [hr, htext]
    refine ⟨rfl, iff_of_false nofun ?_, nofun⟩
    exact fun ⟨p, hp, hconst⟩ => not_isConstant_nil (List.prefix_nil.mp hp ▸ hconst)
  · obtain ⟨hfbuf, hrest, hcount⟩ := reads_item width ⟨[], 0, input⟩
    rw [hahead] at hfbuf hrest hcount
    have hr : scanFloat lib type width input dest =
        convertItem (lib.strto type) (scanItem width ⟨[], 0, input⟩) dest := if_neg hnul
    have hspec := convertItem_spec (lib.strto type) dest (hcount.trans (by rw [hfbuf]; simp))
    rw [hr, hspec.1]
    rw [show (scanItem width ⟨[], 0, input⟩).fbuf = scanned width input from hfbuf] at hspec
    exact ⟨hrest, hspec.2⟩

section

variable {lib : Library V} {type : ScanfType} {width : Nat} {input : Bytes} {dest : Option V}

theorem Scanned.stops_settled
    (h : Scanned (lib.strto type) width input dest (scanFloat lib type width input dest)) :
    Stops width input ∧ Settled width input := by
  obtain ⟨item, hisItem, hconsumed, hcode, -⟩ := h
  obtain ⟨hinput, hok, -⟩ := scanFloat_spec lib type width input dest
  have htext : scanned width input = item :=
    List.append_cancel_right (hinput.symm.trans hconsumed)
  rw [htext, hisItem.eq] at hok
  rw [hisItem.eq] at htext hcode
  refine ⟨stops_iff.mpr htext, ?_⟩
  by_cases hdigit : ∃ c ∈ inputItem width input, isdigit c = true
  · have hpart := (isItem_inputItem width input).isPartial
    exact .inl (hcode.mp (hok.mpr (hpart.exists_constant_iff.mpr hdigit)))
  · exact .inr fun c hc => eq_false_of_ne_true fun hd => hdigit ⟨c, hc, hd⟩

theorem Scanned.of_stops (hstops : Stops width input) (hsettled : Settled width input) :
    Scanned (lib.strto type) width input dest (scanFloat lib type width input dest) := by
  have hitem := isItem_inputItem width input
  obtain ⟨hinput, hok, hdest⟩ := scanFloat_spec lib type width input dest
  rw [stops_iff.mp hstops] at hinput hok hdest
  have hcode : (scanFloat lib type width input dest).code = .ok ↔
      IsConstant (inputItem width input) := by
    rw [hok]
    constructor
    · intro h
      obtain ⟨c, hc, hd⟩ := hitem.isPartial.exists_constant_iff.mp h
      exact hsettled.resolve_right fun hnone => absurd (hd.symm.trans (hnone c hc)) nofun
    · exact fun h => ⟨_, List.prefix_rfl, h⟩
  refine ⟨_, hitem, hinput, hcode, fun h => ?_⟩
  have hconvert := (lib.strto type).converts _ _ List.prefix_rfl (hcode.mp h)
    fun p hp _ => hp.length_le
  rw [hdest h, hconvert]

end

/-- **When the conversion scans its item.** Exactly when nothing behind the item
leads the scanner on, and the item is complete or has no digit. -/
theorem scanned_iff (lib : Library V) (type : ScanfType) (width : Nat) (input : Bytes)
    (dest : Option V) :
    Scanned (lib.strto type) width input dest (scanFloat lib type width input dest) ↔
      Stops width input ∧ Settled width input :=
  ⟨Scanned.stops_settled, fun h => .of_stops h.1 h.2⟩

/-! ## An exponent that is cut off -/

/-- A conversion to the text of the constant. -/
def textStrto : Strto Bytes where
  value := id
  convert s :=
    match longestPrefix IsConstant s s.length with
    | none => ([], 0)
    | some p => (p, p.length)
  converts s p hp hconst hmax := by
    cases hlong : longestPrefix IsConstant s s.length with
    | none => exact absurd hconst (longestPrefix_none hlong p hp hp.length_le)
    | some q =>
      obtain ⟨hq, hqc, hqmax⟩ := longestPrefix_some hlong
      have hle := hmax q hq hqc
      have hpq : q = p := (List.prefix_of_prefix_length_le hq hp hle).eq_of_length
        (Nat.le_antisymm hle (hqmax p hp hp.length_le hconst))
      exact hpq ▸ rfl
  rejects s h := by
    cases hlong : longestPrefix IsConstant s s.length with
    | none => rfl
    | some q =>
      obtain ⟨hq, hqc, -⟩ := longestPrefix_some hlong
      exact absurd hqc (h q hq)

def textLibrary : Library Bytes := ⟨textStrto, textStrto, textStrto⟩

/-- `1e` is stored as `1`. -/
theorem cutExponent_not_scanned : ¬ Scanned textStrto 0 (ascii "1e") (some [])
    (scanFloat textLibrary .l 0 (ascii "1e") (some [])) := by
  intro h
  rcases (Scanned.stops_settled h).2 with hconst | hnone
  · exact absurd hconst (by decide)
  · exact absurd (hnone 49 (by decide)) nofun

end SalernOS.Libc.ScanFloat
