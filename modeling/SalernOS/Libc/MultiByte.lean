import Mathlib.Data.BitVec
import SalernOS.Lib.Machine

/-! # `mblen` and `mbtowc` of `mlibc-salernos/stdlib.patched.cpp`

Each of the two has a conversion state of its own, in which the decoder may keep
what it has read of a character. A call without a string is to start afresh.
-/
namespace SalernOS.Libc.MultiByte
open SalernOS.Lib

/-! ## The decoder -/

/-- What stands at a `const char *` and behind it. -/
abbrev Chars := Nat → UInt8

/-- `code_seq<const char>{mb, mb + n}`. -/
def codeSeq (mb : Chars) (n : Nat) : List UInt8 := (List.range n).map mb

inductive CharcodeError where
  | null
  | dirty
  | illegalInput
  | inputUnderflow
  | outputOverflow
deriving DecidableEq, Repr

/-- What `decode_wtranscode` comes to: its error, how far it got in the input,
the character it stored, if any, and the state. -/
structure Decoded (σ : Type) where
  error : CharcodeError
  consumed : Nat
  stored : Option (BitVec 32)
  state : σ

/-- `current_charcode()`, whose decoder depends on its input and on the state
only, with `__MLIBC_MBSTATE_INITIALIZER` and `MB_CUR_MAX`. -/
structure Charcode (σ : Type) where
  initial : σ
  mbCurMax : Nat
  hasShiftStates : Bool
  decodeWtranscode : List UInt8 → σ → Decoded σ

/-! ## The functions -/

/-- `mblen_state` and `mbtowc_state`, which are thread-local. -/
structure Thread (σ : Type) where
  mblenState : σ
  mbtowcState : σ
deriving DecidableEq, Repr

/-- What a call returns, what it stores through `wc`, and what it sets `errno` to. -/
structure Result where
  ret : BitVec 32
  stored : Option (Nat × BitVec 32)
  errno : Option Int
deriving DecidableEq, Repr

/-- How the process ends. -/
inductive Abort where
  | ensure (msg : String)
  | panic (msg : String)
deriving DecidableEq, Repr

def eilseq : Int := 84

/-- The conversion from `bool` to `int`. -/
def intOfBool (b : Bool) : BitVec 32 := if b then 1 else 0

/-- A store to `*wc`, or to `tmp_wc` when `wc` is `NULL`. -/
def storeAt (wc : Option Nat) (stored : Option (BitVec 32)) : Option (Nat × BitVec 32) :=
  wc.bind fun addr => stored.map fun c => (addr, c)

section
variable {σ : Type} (cc : Charcode σ)

def Thread.fresh : Thread σ := ⟨cc.initial, cc.initial⟩

def mblen (mbs : Option Chars) (mbLimit : Nat) (t : Thread σ) : Except Abort (Result × Thread σ) :=
  match mbs with
  | none => .ok (⟨intOfBool cc.hasShiftStates, none, none⟩, { t with mblenState := cc.initial })
  | some mbs =>
    let d := cc.decodeWtranscode (codeSeq mbs mbLimit) t.mblenState
    if d.error ≠ .null then .error (.ensure "decode_wtranscode() errors are not handled")
    else .ok (⟨BitVec.ofNat 32 d.consumed, none, none⟩, { t with mblenState := d.state })

def mbtowc (wc : Option Nat) (mb : Option Chars) (maxSize : Nat) (t : Thread σ) :
    Except Abort (Result × Thread σ) :=
  if maxSize = 0 then .ok (⟨-1, none, some (-eilseq)⟩, t)
  else
    match mb with
    | some mb =>
      if mb 0 ≠ 0 then
        let d := cc.decodeWtranscode (codeSeq mb (min maxSize cc.mbCurMax)) t.mbtowcState
        let t := { t with mbtowcState := d.state }
        match d.error with
        | .inputUnderflow | .null =>
          .ok (⟨BitVec.ofNat 32 d.consumed, storeAt wc d.stored, none⟩, t)
        | .illegalInput => .ok (⟨-1, storeAt wc d.stored, some (-eilseq)⟩, t)
        | .dirty => .error (.panic
            "decode_wtranscode() charcode_error::dirty errors are not handled")
        | .outputOverflow => .error (.panic
            "decode_wtranscode() charcode_error::output_overflow errors are not handled")
      else .ok (⟨0, storeAt wc (some 0), none⟩, t)
    | none => .ok (⟨intOfBool cc.hasShiftStates, none, none⟩, { t with mblenState := cc.initial })

/-! ## Histories -/

inductive Call where
  | mblen (mbs : Option Chars) (mbLimit : Nat)
  | mbtowc (wc : Option Nat) (mb : Option Chars) (maxSize : Nat)

def Call.perform (t : Thread σ) : Call → Except Abort (Result × Thread σ)
  | .mblen mbs mbLimit => MultiByte.mblen cc mbs mbLimit t
  | .mbtowc wc mb maxSize => MultiByte.mbtowc cc wc mb maxSize t

/-- A call that returns leads to another state. -/
def Thread.step (t : Thread σ) (c : Call) : Option (Thread σ) :=
  (c.perform cc t).toOption.map Prod.snd

/-- Calls that a thread has made from its start on, and what they have led to. -/
structure History where
  calls : List Call
  thread : Thread σ
  ran : runAll (Thread.step cc) (Thread.fresh cc) calls = some thread

/-- What a call should do to reset `mbtowc`. -/
structure Resets (t : Thread σ) (r : Result) (t' : Thread σ) : Prop where
  ret : r.ret = intOfBool cc.hasShiftStates
  own : t'.mbtowcState = cc.initial
  next : ∀ wc mb maxSize, (mbtowc cc wc mb maxSize t').map Prod.fst =
    (mbtowc cc wc mb maxSize (Thread.fresh cc)).map Prod.fst
  other : t'.mblenState = t.mblenState

/-- A call of `mbtowc` without a string returns, and is a reset. -/
def ResetsAt (t : Thread σ) (wc : Option Nat) (maxSize : Nat) : Prop :=
  ∃ r t', mbtowc cc wc none maxSize t = .ok (r, t') ∧ Resets cc t r t'

/-! ## What is left of the strings -/

/-- What a call makes of the state of `mblen`. -/
def feedMblen (st : σ) : Call → σ
  | .mblen none _ => cc.initial
  | .mblen (some mbs) mbLimit => (cc.decodeWtranscode (codeSeq mbs mbLimit) st).state
  | .mbtowc _ none maxSize => if maxSize = 0 then st else cc.initial
  | .mbtowc _ (some _) _ => st

/-- What a call makes of the state of `mbtowc`. No call puts it back. -/
def feedMbtowc (st : σ) : Call → σ
  | .mbtowc _ (some mb) maxSize =>
    if maxSize = 0 ∨ mb 0 = 0 then st
    else (cc.decodeWtranscode (codeSeq mb (min maxSize cc.mbCurMax)) st).state
  | _ => st

def pendingMblen (calls : List Call) : σ := calls.foldl (feedMblen cc) cc.initial

def pendingMbtowc (calls : List Call) : σ := calls.foldl (feedMbtowc cc) cc.initial

end

/-! ## One call -/

section
variable {σ : Type} {cc : Charcode σ}

theorem mblen_thread {mbs : Option Chars} {mbLimit : Nat} {r : Result} {s t : Thread σ}
    (h : mblen cc mbs mbLimit s = .ok (r, t)) :
    t = ⟨feedMblen cc s.mblenState (.mblen mbs mbLimit), s.mbtowcState⟩ := by
  unfold mblen at h
  cases mbs with
  | none =>
    cases h
    rfl
  | some mbs =>
    simp only at h
    split at h
    · cases h
    · cases h
      rfl

theorem mbtowc_thread {wc : Option Nat} {mb : Option Chars} {maxSize : Nat} {r : Result}
    {s t : Thread σ} (h : mbtowc cc wc mb maxSize s = .ok (r, t)) :
    t = ⟨feedMblen cc s.mblenState (.mbtowc wc mb maxSize),
      feedMbtowc cc s.mbtowcState (.mbtowc wc mb maxSize)⟩ := by
  unfold mbtowc at h
  by_cases hsize : maxSize = 0
  · rw [if_pos hsize] at h
    cases h
    cases mb with
    | none => simp only [feedMblen, feedMbtowc, hsize, if_true]
    | some mb => simp only [feedMblen, feedMbtowc, hsize, true_or, if_true]
  rw [if_neg hsize] at h
  cases mb with
  | none =>
    cases h
    simp only [feedMblen, feedMbtowc, hsize, if_false]
  | some mb =>
    simp only at h
    by_cases hfirst : mb 0 = 0
    · rw [if_neg (not_not.mpr hfirst)] at h
      cases h
      simp only [feedMblen, feedMbtowc, hfirst, or_true, if_true]
    · rw [if_pos hfirst] at h
      simp only [feedMblen, feedMbtowc, hsize, hfirst, or_self, if_false]
      -- the state is kept with each error that is handled
      split at h <;> cases h <;> rfl

/-- What a call that returns leaves of both states. -/
theorem perform_thread {c : Call} {r : Result} {s t : Thread σ} (h : c.perform cc s = .ok (r, t)) :
    t = ⟨feedMblen cc s.mblenState c, feedMbtowc cc s.mbtowcState c⟩ := by
  cases c with
  | mblen mbs mbLimit => exact mblen_thread h
  | mbtowc wc mb maxSize => exact mbtowc_thread h

theorem step_thread {c : Call} {s t : Thread σ} (h : s.step cc c = some t) :
    t = ⟨feedMblen cc s.mblenState c, feedMbtowc cc s.mbtowcState c⟩ := by
  unfold Thread.step at h
  cases hcall : c.perform cc s with
  | error e =>
    rw [hcall] at h
    cases h
  | ok result =>
    rw [hcall] at h
    cases h
    exact perform_thread hcall

/-- A call of `mbtowc` knows of its own state only. -/
theorem mbtowc_fst (wc : Option Nat) (mb : Option Chars) (maxSize : Nat) {s t : Thread σ}
    (h : s.mbtowcState = t.mbtowcState) :
    (mbtowc cc wc mb maxSize s).map Prod.fst = (mbtowc cc wc mb maxSize t).map Prod.fst := by
  unfold mbtowc
  by_cases hsize : maxSize = 0
  · rw [if_pos hsize, if_pos hsize]
    rfl
  rw [if_neg hsize, if_neg hsize]
  cases mb with
  | none => rfl
  | some mb =>
    simp only
    by_cases hfirst : mb 0 ≠ 0
    · rw [if_pos hfirst, if_pos hfirst, h]
      split <;> rfl
    · rw [if_neg hfirst, if_neg hfirst]
      rfl

/-- Without a string it resets the state of `mblen`, unless the size is zero. -/
theorem mbtowc_null (wc : Option Nat) (maxSize : Nat) (t : Thread σ) :
    mbtowc cc wc none maxSize t =
      if maxSize = 0 then .ok (⟨-1, none, some (-eilseq)⟩, t)
      else .ok (⟨intOfBool cc.hasShiftStates, none, none⟩, { t with mblenState := cc.initial }) :=
  rfl

theorem intOfBool_ne (b : Bool) : intOfBool b ≠ -1 := by
  cases b <;> decide

/-- It is a reset of `mbtowc` where there is nothing to reset. -/
theorem resetsAt_iff (t : Thread σ) (wc : Option Nat) (maxSize : Nat) :
    ResetsAt cc t wc maxSize ↔
      maxSize ≠ 0 ∧ t.mblenState = cc.initial ∧ t.mbtowcState = cc.initial := by
  unfold ResetsAt
  rw [mbtowc_null]
  constructor
  · rintro ⟨r, t', hcall, hreset⟩
    by_cases hsize : maxSize = 0
    · rw [if_pos hsize] at hcall
      cases hcall
      exact absurd hreset.ret.symm (intOfBool_ne _)
    · rw [if_neg hsize] at hcall
      cases hcall
      exact ⟨hsize, hreset.other.symm, hreset.own⟩
  · rintro ⟨hsize, hmblen, hmbtowc⟩
    rw [if_neg hsize]
    exact ⟨_, _, rfl, rfl, hmbtowc, fun wc mb maxSize => mbtowc_fst wc mb maxSize hmbtowc,
      hmblen.symm⟩

/-! ## Runs -/

theorem History.thread_eq (h : History cc) :
    h.thread = ⟨pendingMblen cc h.calls, pendingMbtowc cc h.calls⟩ := by
  have hmblen : h.thread.mblenState = pendingMblen cc h.calls :=
    runAll_foldl (f := Thread.mblenState) (fun s c t hs => by rw [step_thread hs]) h.calls _ h.ran
  have hmbtowc : h.thread.mbtowcState = pendingMbtowc cc h.calls :=
    runAll_foldl (f := Thread.mbtowcState) (fun s c t hs => by rw [step_thread hs]) h.calls _ h.ran
  rw [← hmblen, ← hmbtowc]

/-- **When `mbtowc` is reset.** Exactly when the size is not zero and the strings
that were given to each of the two functions leave nothing of a character. -/
theorem mbtowc_resets_iff (cc : Charcode σ) (h : History cc) (wc : Option Nat) (maxSize : Nat) :
    ResetsAt cc h.thread wc maxSize ↔
      maxSize ≠ 0 ∧ pendingMblen cc h.calls = cc.initial ∧
        pendingMbtowc cc h.calls = cc.initial := by
  rw [resetsAt_iff, h.thread_eq]

end

/-! ## An incomplete character -/

/-- `__mlibc_mbstate` of a decoder that keeps what it has read. -/
structure Mbstate where
  progress : Nat
  cpoint : BitVec 32
deriving DecidableEq, Repr

def utf8Byte (st : Mbstate) (b : UInt8) : Option Mbstate :=
  let bits (mask : UInt8) : BitVec 32 := (b &&& mask).toBitVec.setWidth 32
  if st.progress = 0 then
    if b < 0x80 then some ⟨0, bits 0x7f⟩
    else if b < 0xc0 then none
    else if b < 0xe0 then some ⟨1, bits 0x1f⟩
    else if b < 0xf0 then some ⟨2, bits 0x0f⟩
    else if b < 0xf8 then some ⟨3, bits 0x07⟩
    else none
  else if b &&& 0xc0 = 0x80 then some ⟨st.progress - 1, st.cpoint <<< 6 ||| bits 0x3f⟩
  else none

/-- The bytes up to the end of a character. -/
def utf8Decode (consumed : Nat) (st : Mbstate) : List UInt8 → Decoded Mbstate
  | [] => ⟨if st.progress = 0 then .null else .inputUnderflow, consumed, none, st⟩
  | b :: bs =>
    match utf8Byte st b with
    | none => ⟨.illegalInput, consumed, none, st⟩
    | some st =>
      if st.progress = 0 then ⟨.null, consumed + 1, some st.cpoint, ⟨0, 0⟩⟩
      else utf8Decode (consumed + 1) st bs

def utf8 : Charcode Mbstate where
  initial := ⟨0, 0⟩
  mbCurMax := 4
  hasShiftStates := false
  decodeWtranscode := fun bytes st => utf8Decode 0 st bytes

/-- The first of the two bytes of a character, and no more. -/
def firstByte : History utf8 where
  calls := [.mbtowc (some 0x1000) (some fun i => if i = 0 then 0xc3 else 0) 1]
  thread := ⟨⟨0, 0⟩, ⟨1, 3⟩⟩
  ran := rfl

def noCalls : History utf8 := ⟨[], Thread.fresh utf8, rfl⟩

/-- The state stays behind `mbtowc(NULL, NULL, 1)`, and `mbtowc(NULL, NULL, 0)` is
refused on any thread. -/
theorem firstByte_not_reset :
    ¬ ResetsAt utf8 firstByte.thread none 1 ∧ ¬ ResetsAt utf8 noCalls.thread none 0 := by
  constructor
  · intro hreset
    have hstate := ((resetsAt_iff _ none 1).mp hreset).2.2
    cases hstate
  · intro hreset
    exact ((resetsAt_iff _ none 0).mp hreset).1 rfl

end SalernOS.Libc.MultiByte
