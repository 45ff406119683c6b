import SalernOS.Lib.Munch
import SalernOS.Libc.Text

/-! # Floating constants

What a decimal or hexadecimal floating constant is, and a machine that reads
one byte by byte. Infinities and NaNs are left aside.
-/
namespace SalernOS.Libc.FloatConstant
open SalernOS.Lib SalernOS.Libc

def point : UInt8 := 46
def zeroDigit : UInt8 := 48

def isdigit (c : UInt8) : Bool := 48 ≤ c && c ≤ 57

def isxdigit (c : UInt8) : Bool := isdigit c || (65 ≤ c && c ≤ 70) || (97 ≤ c && c ≤ 102)

/-- `+` or `-`. -/
def isSign (c : UInt8) : Bool := c == 43 || c == 45

/-- `x` or `X`. -/
def isHexMark (c : UInt8) : Bool := c == 120 || c == 88

/-- The digits of a mantissa. -/
def isDigitOf (hex : Bool) (c : UInt8) : Bool := if hex then isxdigit c else isdigit c

/-- What an exponent begins with: `p` or `P`, and otherwise `e` or `E`. -/
def isMarker (hex : Bool) (c : UInt8) : Bool :=
  if hex then c == 112 || c == 80 else c == 101 || c == 69

/-! ## The grammar -/

def Sign (s : Bytes) : Prop := s = [] ∨ ∃ c, isSign c = true ∧ s = [c]

/-- Digits with at most one point, and at least one digit. -/
def Mantissa (hex : Bool) (s : Bytes) : Prop :=
  (∀ c ∈ s, isDigitOf hex c = true) ∧ s ≠ [] ∨
    ∃ whole frac, s = whole ++ point :: frac ∧ (∀ c ∈ whole ++ frac, isDigitOf hex c = true) ∧
      whole ++ frac ≠ []

def Exponent (hex : Bool) (s : Bytes) : Prop :=
  s = [] ∨ ∃ c sign digits, s = c :: (sign ++ digits) ∧ isMarker hex c = true ∧ Sign sign ∧
    (∀ d ∈ digits, isdigit d = true) ∧ digits ≠ []

/-- What stands in front of a mantissa. -/
def Lead (hex : Bool) (s : Bytes) : Prop :=
  ∃ sign, Sign sign ∧
    if hex then ∃ x, isHexMark x = true ∧ s = sign ++ [zeroDigit, x] else s = sign

/-- A decimal or a hexadecimal floating constant. -/
def IsConstant (s : Bytes) : Prop :=
  ∃ hex lead mantissa exponent, s = lead ++ mantissa ++ exponent ∧ Lead hex lead ∧
    Mantissa hex mantissa ∧ Exponent hex exponent

/-- The beginning of some constant. -/
def IsPartial (s : Bytes) : Prop := ∃ t, IsConstant (s ++ t)

/-! ## The machine -/

inductive Phase where
  | start
  | signed
  | zero
  | mantissa (hex digits point : Bool)
  | marker (hex : Bool)
  | exponentSign (hex : Bool)
  | exponent (hex : Bool)
deriving DecidableEq, Repr

namespace Phase

/-- A byte of the mantissa or the marker behind it. -/
def inMantissa (hex digits hasPoint : Bool) (c : UInt8) : Option Phase :=
  if c = point then if hasPoint then none else some (.mantissa hex digits true)
  else if isDigitOf hex c then some (.mantissa hex true hasPoint)
  else if isMarker hex c then if digits then some (.marker hex) else none
  else none

/-- The byte behind the sign. -/
def afterSign (c : UInt8) : Option Phase :=
  if c = zeroDigit then some .zero else inMantissa false false false c

def step : Phase → UInt8 → Option Phase
  | .start, c => if isSign c then some .signed else afterSign c
  | .signed, c => afterSign c
  | .zero, c =>
    if isHexMark c then some (.mantissa true false false) else inMantissa false true false c
  | .mantissa hex digits hasPoint, c => inMantissa hex digits hasPoint c
  | .marker hex, c =>
    if isSign c then some (.exponentSign hex)
    else if isdigit c then some (.exponent hex) else none
  | .exponentSign hex, c => if isdigit c then some (.exponent hex) else none
  | .exponent hex, c => if isdigit c then some (.exponent hex) else none

/-- Whether what was read is a constant. -/
def final : Phase → Bool
  | .zero => true
  | .mantissa _ digits _ => digits
  | .exponent _ => true
  | _ => false

end Phase

/-! ## What was read in each phase -/

/-- The part of a mantissa that was read. -/
def Digits (hex digits hasPoint : Bool) (s : Bytes) : Prop :=
  if hasPoint then
    ∃ whole frac, s = whole ++ point :: frac ∧ (∀ c ∈ whole ++ frac, isDigitOf hex c = true) ∧
      (digits = true ↔ whole ++ frac ≠ [])
  else (∀ c ∈ s, isDigitOf hex c = true) ∧ (digits = true ↔ s ≠ [])

/-- What a machine has read when it is in a phase. -/
def Read : Phase → Bytes → Prop
  | .start, s => s = []
  | .signed, s => ∃ c, isSign c = true ∧ s = [c]
  | .zero, s => ∃ sign, Sign sign ∧ s = sign ++ [zeroDigit]
  | .mantissa hex digits hasPoint, s =>
    ∃ lead m, s = lead ++ m ∧ Lead hex lead ∧ Digits hex digits hasPoint m
  | .marker hex, s =>
    ∃ lead m c, s = lead ++ m ++ [c] ∧ Lead hex lead ∧ Mantissa hex m ∧ isMarker hex c = true
  | .exponentSign hex, s =>
    ∃ lead m c sign, s = lead ++ m ++ c :: [sign] ∧ Lead hex lead ∧ Mantissa hex m ∧
      isMarker hex c = true ∧ isSign sign = true
  | .exponent hex, s =>
    ∃ lead m c sign ds, s = lead ++ m ++ c :: (sign ++ ds) ∧ Lead hex lead ∧ Mantissa hex m ∧
      isMarker hex c = true ∧ Sign sign ∧ (∀ d ∈ ds, isdigit d = true) ∧ ds ≠ []

theorem Digits.mantissa {hex hasPoint : Bool} {s : Bytes} (h : Digits hex true hasPoint s) :
    Mantissa hex s := by
  cases hasPoint with
  | false => exact .inl ⟨h.1, h.2.mp rfl⟩
  | true =>
    obtain ⟨whole, frac, rfl, hall, hne⟩ := h
    exact .inr ⟨whole, frac, rfl, hall, hne.mp rfl⟩

theorem Digits.snoc {hex digits hasPoint : Bool} {s : Bytes} (h : Digits hex digits hasPoint s)
    {c : UInt8} (hc : isDigitOf hex c = true) : Digits hex true hasPoint (s ++ [c]) := by
  cases hasPoint with
  | false =>
    refine ⟨fun d hd => ?_, by simp⟩
    rcases List.mem_append.mp hd with hd | hd
    · exact h.1 d hd
    · exact List.mem_singleton.mp hd ▸ hc
  | true =>
    obtain ⟨whole, frac, rfl, hall, -⟩ := h
    refine ⟨whole, frac ++ [c], by simp, fun d hd => ?_, by simp⟩
    rw [← List.append_assoc] at hd
    rcases List.mem_append.mp hd with hd | hd
    · exact hall d hd
    · exact List.mem_singleton.mp hd ▸ hc

theorem Digits.point {hex digits : Bool} {s : Bytes} (h : Digits hex digits false s) :
    Digits hex digits true (s ++ [FloatConstant.point]) :=
  ⟨s, [], rfl, by simpa using h.1, by simpa using h.2⟩

theorem Read.inMantissa {hex digits hasPoint : Bool} {s : Bytes} {c : UInt8} {q : Phase}
    (h : Read (.mantissa hex digits hasPoint) s)
    (hstep : Phase.inMantissa hex digits hasPoint c = some q) : Read q (s ++ [c]) := by
  obtain ⟨lead, m, rfl, hlead, hm⟩ := h
  unfold Phase.inMantissa at hstep
  split at hstep
  · next hc =>
    cases hasPoint with
    | true => cases hstep
    | false =>
      cases hstep
      exact ⟨lead, m ++ [c], List.append_assoc _ _ _, hlead, hc ▸ hm.point⟩
  split at hstep
  · next hc =>
    cases hstep
    exact ⟨lead, m ++ [c], List.append_assoc _ _ _, hlead, hm.snoc hc⟩
  split at hstep
  · next hc =>
    cases digits with
    | false => cases hstep
    | true =>
      cases hstep
      exact ⟨lead, m, c, rfl, hlead, hm.mantissa, hc⟩
  · cases hstep

theorem Read.afterSign {s : Bytes} {c : UInt8} {q : Phase} (h : Sign s)
    (hstep : Phase.afterSign c = some q) : Read q (s ++ [c]) := by
  have hread : Read (.mantissa false false false) s :=
    ⟨s, [], (List.append_nil s).symm, ⟨s, h, rfl⟩, by simp [Digits]⟩
  unfold Phase.afterSign at hstep
  split at hstep
  · next hc =>
    cases hstep
    exact ⟨s, h, hc ▸ rfl⟩
  · exact hread.inMantissa hstep

/-- What one byte does. -/
theorem Read.step {q q' : Phase} {s : Bytes} {c : UInt8} (h : Read q s)
    (hstep : q.step c = some q') : Read q' (s ++ [c]) := by
  cases q with
  | start =>
    cases h
    simp only [Phase.step] at hstep
    split at hstep
    · next hc => cases hstep; exact ⟨c, hc, rfl⟩
    · exact Read.afterSign (.inl rfl) hstep
  | signed =>
    obtain ⟨d, hd, rfl⟩ := h
    exact Read.afterSign (.inr ⟨d, hd, rfl⟩) hstep
  | zero =>
    obtain ⟨sign, hsign, rfl⟩ := h
    simp only [Phase.step] at hstep
    split at hstep
    · next hc =>
      cases hstep
      exact ⟨sign ++ [zeroDigit, c], [], by simp, ⟨sign, hsign, c, hc, rfl⟩, by simp [Digits]⟩
    · have hread : Read (.mantissa false true false) (sign ++ [zeroDigit]) :=
        ⟨sign, [zeroDigit], rfl, ⟨sign, hsign, rfl⟩, by simp [Digits, isDigitOf]; rfl⟩
      exact hread.inMantissa hstep
  | mantissa hex digits hasPoint => exact h.inMantissa hstep
  | marker hex =>
    obtain ⟨lead, m, d, rfl, hlead, hm, hd⟩ := h
    simp only [Phase.step] at hstep
    split at hstep
    · next hc =>
      cases hstep
      exact ⟨lead, m, d, c, by simp, hlead, hm, hd, hc⟩
    split at hstep
    · next hc =>
      cases hstep
      exact ⟨lead, m, d, [], [c], by simp, hlead, hm, hd, .inl rfl, by simpa using hc, by simp⟩
    · cases hstep
  | exponentSign hex =>
    obtain ⟨lead, m, d, sign, rfl, hlead, hm, hd, hsign⟩ := h
    simp only [Phase.step] at hstep
    split at hstep
    · next hc =>
      cases hstep
      exact ⟨lead, m, d, [sign], [c], by simp, hlead, hm, hd, .inr ⟨sign, hsign, rfl⟩,
        by simpa using hc, by simp⟩
    · cases hstep
  | exponent hex =>
    obtain ⟨lead, m, d, sign, ds, rfl, hlead, hm, hd, hsign, hds, -⟩ := h
    simp only [Phase.step] at hstep
    split at hstep
    · next hc =>
      cases hstep
      refine ⟨lead, m, d, sign, ds ++ [c], by simp, hlead, hm, hd, hsign, fun e he => ?_, by simp⟩
      rcases List.mem_append.mp he with he | he
      · exact hds e he
      · exact List.mem_singleton.mp he ▸ hc
    · cases hstep

theorem Read.run : ∀ {q q' : Phase} {s t : Bytes}, Read q s → runAll Phase.step q t = some q' →
    Read q' (s ++ t)
  | _, _, s, [], h, hrun => by cases hrun; simpa using h
  | q, q', s, c :: t, h, hrun => by
    obtain ⟨u, hu, hrun⟩ := Option.bind_eq_some_iff.mp hrun
    simpa using (h.step hu).run hrun

theorem Read.final {q : Phase} {s : Bytes} (h : Read q s) (hq : q.final = true) :
    IsConstant s := by
  cases q with
  | zero =>
    obtain ⟨sign, hsign, rfl⟩ := h
    refine ⟨false, sign, [zeroDigit], [], by simp, ⟨sign, hsign, rfl⟩, .inl ⟨?_, by simp⟩, .inl rfl⟩
    simp [isDigitOf]
    rfl
  | mantissa hex digits hasPoint =>
    obtain ⟨lead, m, rfl, hlead, hm⟩ := h
    cases hq
    exact ⟨hex, lead, m, [], by simp, hlead, hm.mantissa, .inl rfl⟩
  | exponent hex =>
    obtain ⟨lead, m, c, sign, ds, rfl, hlead, hm, hc, hsign, hds, hne⟩ := h
    exact ⟨hex, lead, m, c :: (sign ++ ds), rfl, hlead, hm,
      .inr ⟨c, sign, ds, rfl, hc, hsign, hds, hne⟩⟩
  | _ => cases hq

/-! ## The classes of bytes -/

theorem isSign_not {c : UInt8} (h : isSign c = true) :
    (∀ hex, isDigitOf hex c = false ∧ isMarker hex c = false) ∧ c ≠ point ∧ c ≠ zeroDigit := by
  simp only [isSign, Bool.or_eq_true, beq_iff_eq] at h
  rcases h with rfl | rfl
  · exact ⟨fun hex => by cases hex <;> exact ⟨rfl, rfl⟩, nofun, nofun⟩
  · exact ⟨fun hex => by cases hex <;> exact ⟨rfl, rfl⟩, nofun, nofun⟩

theorem isMarker_not {hex : Bool} {c : UInt8} (h : isMarker hex c = true) :
    isDigitOf hex c = false ∧ c ≠ point := by
  cases hex <;> simp only [isMarker, if_true, if_false, Bool.or_eq_true, beq_iff_eq,
    Bool.false_eq_true] at h <;> rcases h with rfl | rfl <;> exact ⟨rfl, nofun⟩

theorem isHexMark_not {c : UInt8} (h : isHexMark c = true) :
    isDigitOf false c = false ∧ isMarker false c = false ∧ c ≠ point := by
  simp only [isHexMark, Bool.or_eq_true, beq_iff_eq] at h
  rcases h with rfl | rfl <;> exact ⟨rfl, rfl, nofun⟩

theorem isDigitOf_ne_point {hex : Bool} {c : UInt8} (h : isDigitOf hex c = true) : c ≠ point := by
  rintro rfl
  cases hex <;> cases h

theorem isDigitOf_zeroDigit (hex : Bool) : isDigitOf hex zeroDigit = true := by
  cases hex <;> rfl

theorem isdigit_not_isSign {c : UInt8} (h : isdigit c = true) : isSign c = false := by
  by_contra hc
  have hsign := ((isSign_not (eq_true_of_ne_false hc)).1 false).1
  exact absurd (hsign.symm.trans h) nofun

/-! ## Constants are accepted -/

def Accepts (q : Phase) (s : Bytes) : Prop :=
  ∃ q', runAll Phase.step q s = some q' ∧ q'.final = true

theorem accepts_nil {q : Phase} : Accepts q [] ↔ q.final = true :=
  ⟨fun ⟨_, h, hq⟩ => Option.some.inj h ▸ hq, fun h => ⟨q, rfl, h⟩⟩

theorem accepts_cons {q : Phase} {c : UInt8} {s : Bytes} :
    Accepts q (c :: s) ↔ ∃ u, q.step c = some u ∧ Accepts u s := by
  constructor
  · rintro ⟨q', h, hq⟩
    obtain ⟨u, hu, h⟩ := Option.bind_eq_some_iff.mp h
    exact ⟨u, hu, q', h, hq⟩
  · rintro ⟨u, hu, q', h, hq⟩
    exact ⟨q', Option.bind_eq_some_iff.mpr ⟨u, hu, h⟩, hq⟩

theorem accepts_exponent {hex : Bool} : ∀ {ds : Bytes}, (∀ d ∈ ds, isdigit d = true) →
    Accepts (.exponent hex) ds
  | [], _ => accepts_nil.mpr rfl
  | d :: ds, h => by
    obtain ⟨hd, hds⟩ := List.forall_mem_cons.mp h
    exact accepts_cons.mpr ⟨_, if_pos hd, accepts_exponent hds⟩

theorem inMantissa_digit {hex digits hasPoint : Bool} {c : UInt8} (h : isDigitOf hex c = true) :
    Phase.inMantissa hex digits hasPoint c = some (.mantissa hex true hasPoint) := by
  unfold Phase.inMantissa
  rw [if_neg (isDigitOf_ne_point h), if_pos h]

theorem inMantissa_marker {hex digits hasPoint : Bool} {c : UInt8} (h : isMarker hex c = true) :
    Phase.inMantissa hex digits hasPoint c = if digits then some (.marker hex) else none := by
  obtain ⟨hdigit, hpoint⟩ := isMarker_not h
  unfold Phase.inMantissa
  rw [if_neg hpoint, if_neg (by rw [hdigit]; nofun), if_pos h]

theorem Exponent.accepts {hex hasPoint : Bool} {e : Bytes} (h : Exponent hex e) :
    Accepts (.mantissa hex true hasPoint) e := by
  rcases h with rfl | ⟨c, sign, ds, rfl, hc, hsign, hds, hne⟩
  · exact accepts_nil.mpr rfl
  · refine accepts_cons.mpr ⟨_, inMantissa_marker hc, ?_⟩
    obtain ⟨d, ds, rfl⟩ := List.exists_cons_of_ne_nil hne
    obtain ⟨hd, hds⟩ := List.forall_mem_cons.mp hds
    rcases hsign with rfl | ⟨g, hg, rfl⟩
    · refine accepts_cons.mpr ⟨.exponent hex, ?_, accepts_exponent hds⟩
      simp only [Phase.step, isdigit_not_isSign hd, hd, if_true, Bool.false_eq_true, if_false]
    · refine accepts_cons.mpr ⟨.exponentSign hex, if_pos hg, ?_⟩
      exact accepts_cons.mpr ⟨.exponent hex, if_pos hd, accepts_exponent hds⟩

/-- Digits in front of something that is accepted. -/
theorem Accepts.digits {hex hasPoint : Bool} {e : Bytes} : ∀ {digits : Bool} {ds : Bytes},
    (∀ c ∈ ds, isDigitOf hex c = true) →
      Accepts (.mantissa hex (digits || !ds.isEmpty) hasPoint) e →
        Accepts (.mantissa hex digits hasPoint) (ds ++ e)
  | digits, [], _, h => by simpa using h
  | digits, d :: ds, hall, h => by
    obtain ⟨hd, hds⟩ := List.forall_mem_cons.mp hall
    exact accepts_cons.mpr ⟨_, inMantissa_digit hd, Accepts.digits hds (by simpa using h)⟩

theorem Mantissa.accepts {hex : Bool} {m e : Bytes} (hm : Mantissa hex m) (he : Exponent hex e) :
    Accepts (.mantissa hex false false) (m ++ e) := by
  rcases hm with ⟨hall, hne⟩ | ⟨whole, frac, rfl, hall, hne⟩
  · refine Accepts.digits hall ?_
    rw [List.isEmpty_eq_false_iff.mpr hne]
    exact he.accepts
  · obtain ⟨hwhole, hfrac⟩ := List.forall_mem_append.mp hall
    rw [List.append_assoc]
    refine Accepts.digits hwhole (accepts_cons.mpr ⟨_, rfl, Accepts.digits hfrac ?_⟩)
    have hdigits : (false || !whole.isEmpty || !frac.isEmpty) = true := by
      cases whole with
      | nil => simpa using hne
      | cons c whole => rfl
    rw [hdigits]
    exact he.accepts

theorem Accepts.zero {s : Bytes} (h : Accepts (.mantissa false true false) s) :
    Accepts .zero s := by
  cases s with
  | nil => exact accepts_nil.mpr rfl
  | cons c s =>
    obtain ⟨u, hu, hs⟩ := accepts_cons.mp h
    refine accepts_cons.mpr ⟨u, (if_neg fun hc => ?_).trans hu, hs⟩
    obtain ⟨hdigit, hmarker, hpoint⟩ := isHexMark_not hc
    simp [Phase.step, Phase.inMantissa, hdigit, hmarker, hpoint] at hu

theorem Accepts.signed {s : Bytes} (h : Accepts (.mantissa false false false) s) :
    Accepts .signed s := by
  cases s with
  | nil => exact absurd (accepts_nil.mp h) nofun
  | cons c s =>
    obtain ⟨u, hu, hs⟩ := accepts_cons.mp h
    by_cases hc : c = zeroDigit
    · subst hc
      have hdigit : Phase.step (.mantissa false false false) zeroDigit =
          some (.mantissa false true false) := inMantissa_digit (isDigitOf_zeroDigit false)
      cases hdigit.symm.trans hu
      exact accepts_cons.mpr ⟨.zero, rfl, hs.zero⟩
    · exact accepts_cons.mpr ⟨u, (if_neg hc).trans hu, hs⟩

theorem Accepts.start {s : Bytes} (h : Accepts .signed s) : Accepts .start s := by
  cases s with
  | nil => exact absurd (accepts_nil.mp h) nofun
  | cons c s =>
    obtain ⟨u, hu, hs⟩ := accepts_cons.mp h
    refine accepts_cons.mpr ⟨u, (if_neg fun hc => ?_).trans hu, hs⟩
    obtain ⟨hclass, hpoint, hzero⟩ := isSign_not hc
    simp [Phase.step, Phase.afterSign, Phase.inMantissa, hclass, hpoint, hzero] at hu

theorem Sign.accepts {sign s : Bytes} (h : Sign sign) (hs : Accepts .signed s) :
    Accepts .start (sign ++ s) := by
  rcases h with rfl | ⟨c, hc, rfl⟩
  · exact hs.start
  · exact accepts_cons.mpr ⟨.signed, if_pos hc, hs⟩

/-- **The machine recognises the constants.** -/
theorem isConstant_iff {s : Bytes} : IsConstant s ↔ Accepts .start s := by
  constructor
  · rintro ⟨hex, lead, m, e, rfl, ⟨sign, hsign, hlead⟩, hm, he⟩
    have hme := hm.accepts he
    rw [List.append_assoc]
    cases hex with
    | false => exact hlead ▸ hsign.accepts hme.signed
    | true =>
      obtain ⟨x, hx, rfl⟩ := hlead
      rw [List.append_assoc]
      refine hsign.accepts (accepts_cons.mpr ⟨.zero, rfl, ?_⟩)
      exact accepts_cons.mpr ⟨_, if_pos hx, hme⟩
  · rintro ⟨q, hrun, hq⟩
    exact (Read.run (q := .start) (s := []) rfl hrun).final hq

instance : DecidablePred IsConstant := fun s =>
  decidable_of_iff ((runAll Phase.step .start s).any Phase.final = true) <| by
    rw [isConstant_iff, Option.any_eq_true]
    rfl

/-- Each phase is one digit away from a constant. -/
theorem step_zeroDigit (q : Phase) : ∃ u, q.step zeroDigit = some u ∧ u.final = true := by
  rcases q with _ | _ | _ | ⟨_ | _, digits, hasPoint⟩ | _ | _ | _ <;> exact ⟨_, rfl, rfl⟩

theorem isPartial_iff {s : Bytes} : IsPartial s ↔ (runAll Phase.step .start s).isSome := by
  constructor
  · rintro ⟨t, h⟩
    obtain ⟨q, hrun, -⟩ := isConstant_iff.mp h
    rw [runAll_append] at hrun
    obtain ⟨u, hu, -⟩ := Option.bind_eq_some_iff.mp hrun
    exact Option.isSome_of_mem hu
  · intro h
    obtain ⟨q, hq⟩ := Option.isSome_iff_exists.mp h
    obtain ⟨u, hu, hfinal⟩ := step_zeroDigit q
    refine ⟨[zeroDigit], isConstant_iff.mpr ⟨u, ?_, hfinal⟩⟩
    rw [runAll_append, hq]
    exact Option.bind_eq_some_iff.mpr ⟨q, rfl, Option.bind_eq_some_iff.mpr ⟨u, hu, rfl⟩⟩

/-! ## Where the first digit is -/

theorem IsConstant.exists_digit {s : Bytes} (h : IsConstant s) : ∃ c ∈ s, isdigit c = true := by
  obtain ⟨hex, lead, m, e, rfl, ⟨sign, -, hlead⟩, hm, -⟩ := h
  cases hex with
  | true =>
    obtain ⟨x, -, rfl⟩ := hlead
    exact ⟨zeroDigit, by simp, rfl⟩
  | false =>
    rcases hm with ⟨hall, hne⟩ | ⟨whole, frac, rfl, hall, hne⟩
    · obtain ⟨c, m, rfl⟩ := List.exists_cons_of_ne_nil hne
      exact ⟨c, by simp, hall c List.mem_cons_self⟩
    · obtain ⟨c, hc⟩ := List.exists_mem_of_ne_nil _ hne
      refine ⟨c, ?_, hall c hc⟩
      rcases List.mem_append.mp hc with hc | hc <;> simp [hc]

theorem not_isConstant_nil : ¬ IsConstant [] := fun h =>
  let ⟨_, hc, _⟩ := h.exists_digit
  List.not_mem_nil hc

/-- No digit was read yet. -/
def Phase.bare : Phase → Bool
  | .start => true
  | .signed => true
  | .mantissa false false true => true
  | _ => false

theorem step_bare {q u : Phase} {c : UInt8} (hq : q.bare = true) (h : q.step c = some u) :
    if isdigit c then u.final = true else u.bare = true := by
  have hmantissa : ∀ hasPoint, Phase.inMantissa false false hasPoint c = some u →
      if isdigit c then u.final = true else u.bare = true := by
    intro hasPoint h
    cases hc : isdigit c with
    | true =>
      have hdigit : isDigitOf false c = true := hc
      cases (inMantissa_digit hdigit).symm.trans h
      rfl
    | false =>
      have hdigit : isDigitOf false c = false := hc
      cases hm : isMarker false c with
      | true => cases (inMantissa_marker hm).symm.trans h
      | false =>
        simp only [Phase.inMantissa, hdigit, hm] at h
        split at h
        · cases hasPoint <;> cases h
          rfl
        · cases h
  have hafter : Phase.afterSign c = some u →
      if isdigit c then u.final = true else u.bare = true := by
    intro h
    unfold Phase.afterSign at h
    split at h
    · next hc => cases h; exact hc ▸ rfl
    · exact hmantissa false h
  match q, hq with
  | .start, _ =>
    simp only [Phase.step] at h
    split at h
    · next hc =>
      cases h
      rw [show isdigit c = false from ((isSign_not hc).1 false).1]
      rfl
    · exact hafter h
  | .signed, _ => exact hafter h
  | .mantissa false false true, _ => exact hmantissa true h

/-- What was read up to the first digit is a constant. -/
theorem exists_accepted_prefix : ∀ {q : Phase} {s : Bytes}, q.bare = true →
    (runAll Phase.step q s).isSome → (∃ c ∈ s, isdigit c = true) → ∃ p, p <+: s ∧ Accepts q p
  | q, [], _, _, hdigit => by simp at hdigit
  | q, c :: s, hq, hrun, hdigit => by
    cases hu : q.step c with
    | none => simp [runAll, hu] at hrun
    | some u =>
      have hstep := step_bare hq hu
      cases hc : isdigit c with
      | true =>
        rw [if_pos hc] at hstep
        exact ⟨[c], ⟨s, rfl⟩, accepts_cons.mpr ⟨u, hu, accepts_nil.mpr hstep⟩⟩
      | false =>
        rw [hc] at hstep
        have hrest : (runAll Phase.step u s).isSome := by simpa [runAll, hu] using hrun
        have hdigit' : ∃ d ∈ s, isdigit d = true := by simpa [hc] using hdigit
        obtain ⟨p, hp, hacc⟩ := exists_accepted_prefix hstep hrest hdigit'
        exact ⟨c :: p, List.cons_prefix_cons.mpr ⟨rfl, hp⟩, accepts_cons.mpr ⟨u, hu, hacc⟩⟩

/-- A beginning of a constant begins with a constant as soon as it has a digit. -/
theorem IsPartial.exists_constant_iff {s : Bytes} (h : IsPartial s) :
    (∃ p, p <+: s ∧ IsConstant p) ↔ ∃ c ∈ s, isdigit c = true := by
  constructor
  · rintro ⟨p, hp, hconst⟩
    obtain ⟨c, hc, hdigit⟩ := hconst.exists_digit
    exact ⟨c, hp.subset hc, hdigit⟩
  · intro hdigit
    obtain ⟨p, hp, hacc⟩ := exists_accepted_prefix (q := .start) rfl (isPartial_iff.mp h) hdigit
    exact ⟨p, hp, isConstant_iff.mpr hacc⟩

end SalernOS.Libc.FloatConstant
