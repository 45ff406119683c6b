import Mathlib.Data.List.DropRight
import SalernOS.Lib.Words
import SalernOS.Libc.FloatConstant

/-! # Lines and conversions of stdio

`getline`, `fgets`, and as much of `scanf` as a table of words and numbers
needs. A number that does not fit an `int` wraps around.
-/
namespace SalernOS.Libc.Stdio
open SalernOS.Lib SalernOS.Libc.FloatConstant

/-- A `FILE` that is read: what is still to come, and whether its end-of-file or
its error indicator is set. -/
structure Stream where
  rest : Bytes
  ended : Bool
deriving DecidableEq, Repr

/-- A line, of at most `room` bytes if there is a bound: its bytes, what is
left, and whether the end of the file was met. -/
def takeLine : Option Nat → Bytes → Bytes × Bytes × Bool
  | some 0, s => ([], s, false)
  | _, [] => ([], [], true)
  | room, c :: s =>
    if c = newline then ([c], s, false)
    else
      let (line, rest, ended) := takeLine (room.map (· - 1)) s
      (c :: line, rest, ended)

/-- There is room for more than this many bytes. -/
def Below (room : Option Nat) (n : Nat) : Prop := ∀ r ∈ room, n < r

instance (room : Option Nat) (n : Nat) : Decidable (Below room n) := by
  unfold Below
  infer_instance

/-- The buffer behind a call: the line as a C string. -/
def readLine (room : Option Nat) (f : Stream) : Bytes × Stream :=
  let (line, rest, ended) := takeLine room f.rest
  (line ++ [nul], ⟨rest, f.ended || ended⟩)

def getline (f : Stream) : Bytes × Stream := readLine none f

/-- `fgets` with a buffer of `room + 1` bytes. -/
def fgets (room : Nat) (f : Stream) : Bytes × Stream := readLine (some room) f

/-- `fscanf(f, "%*[^\n]%*[\n]")`: nothing is read where no byte matches. -/
def skipLine (f : Stream) : Stream :=
  let t := f.rest.dropWhile (· != newline)
  let rest := if t = f.rest then f.rest else t.dropWhile (· == newline)
  ⟨rest, f.ended || rest.isEmpty⟩

/-! ## Conversions -/

def digitValue (c : UInt8) : Nat := c.toNat - 48

def minus : UInt8 := 45
def plus : UInt8 := 43

/-- Whether there is a minus sign, and what is behind the sign. -/
def sign : Bytes → Bool × Bytes
  | [] => (false, [])
  | c :: s => if c = minus then (true, s) else if c = plus then (false, s) else (false, c :: s)

/-- The decimal number that a text begins with, behind white space. -/
def scanInt (s : Bytes) : Option (Int × Bytes) :=
  let (negative, t) := sign (s.dropWhile isspace)
  let digits := t.takeWhile isdigit
  if digits = [] then none
  else
    let n : Int := digits.foldl (fun n c => 10 * n + digitValue c) 0
    some (if negative then -n else n, t.dropWhile isdigit)

inductive IntSlot where
  | first
  | second
deriving DecidableEq, Repr

/-- Two integers that a format stores. -/
structure Ints where
  first : BitVec 32
  second : BitVec 32
deriving DecidableEq, Repr

def Ints.set (ints : Ints) : IntSlot → BitVec 32 → Ints
  | .first, v => { ints with first := v }
  | .second, v => { ints with second := v }

/-- A part of a format, with the place that it stores to. -/
inductive Conv where
  /-- A blank. -/
  | space
  /-- `%n` -/
  | count (slot : Fin 8)
  /-- `%*s` -/
  | skipWord
  /-- `%d` -/
  | int (slot : IntSlot)
deriving DecidableEq, Repr

/-- Where a scan stands, and what it has stored. -/
structure Scan where
  pos : Nat
  rest : Bytes
  counts : Vector Nat 8
  ints : Ints
deriving DecidableEq

/-- What one part of a format does; `none` is a failure, behind which nothing
is converted any more. -/
def Scan.conv (s : Scan) : Conv → Option Scan
  | .space => some { s with pos := s.pos + (s.rest.takeWhile isspace).length,
                            rest := s.rest.dropWhile isspace }
  | .count slot => some { s with counts := s.counts.set slot s.pos }
  | .skipWord =>
    if word isspace s.rest = [] then none
    else some { s with pos := s.pos + (s.rest.length - (afterWord isspace s.rest).length),
                       rest := afterWord isspace s.rest }
  | .int slot =>
    (scanInt s.rest).map fun (n, rest) =>
      { s with pos := s.pos + (s.rest.length - rest.length), rest := rest,
               ints := s.ints.set slot (BitVec.ofInt 32 n) }

/-- `sscanf`: what has been stored. -/
def sscanf : List Conv → Scan → Scan
  | [], s => s
  | c :: format, s =>
    match s.conv c with
    | some s => sscanf format s
    | none => s

/-! ## Words -/

/-- The marks go to their places. -/
def store : Vector Nat 8 → List (Fin 8 × Fin 8) → List (Nat × Nat) → Vector Nat 8
  | c, (p, q) :: slots, m :: ms => store ((c.set p m.1).set q m.2) slots ms
  | c, _, _ => c

/-- No two words have a place in common. -/
def Apart (a b : Fin 8 × Fin 8) : Prop := a.1 ≠ b.1 ∧ a.1 ≠ b.2 ∧ a.2 ≠ b.1 ∧ a.2 ≠ b.2

instance (a b : Fin 8 × Fin 8) : Decidable (Apart a b) := by
  unfold Apart
  infer_instance

/-- The numbers that a text begins with; one that is missing is as it was. -/
def numbers (old : Ints) (s : Bytes) : Ints :=
  match scanInt s with
  | none => old
  | some (a, s) =>
    match scanInt s with
    | none => { old with first := BitVec.ofInt 32 a }
    | some (b, _) => ⟨BitVec.ofInt 32 a, BitVec.ofInt 32 b⟩

/-- The digits of a number, as `%d` prints them. -/
def decimal (n : Nat) : Bytes := (Nat.toDigits 10 n).map fun c => c.toNat.toUInt8

theorem toNat_digit {c : Char} (h : c.isDigit = true) :
    48 ≤ c.toNat ∧ c.toNat ≤ 57 ∧ c.toNat.toUInt8.toNat = c.toNat := by
  simp only [Char.isDigit, Bool.and_eq_true, decide_eq_true_eq] at h
  have h1 : 48 ≤ c.toNat := h.1
  have h2 : c.toNat ≤ 57 := h.2
  refine ⟨h1, h2, ?_⟩
  rw [Nat.toUInt8, UInt8.toNat_ofNat']
  omega

theorem isdigit_decimal (n : Nat) : ∀ c ∈ decimal n, isdigit c = true := by
  intro b hb
  obtain ⟨c, hc, rfl⟩ := List.mem_map.mp hb
  obtain ⟨h1, h2, h3⟩ := toNat_digit (Nat.isDigit_of_mem_toDigits (by omega) (by omega) hc)
  simp only [isdigit, Bool.and_eq_true, decide_eq_true_eq, UInt8.le_iff_toNat_le, h3]
  exact ⟨h1, h2⟩

theorem ascii_toString (i : Int) :
    ascii (toString i) = if 0 ≤ i then decimal i.toNat else minus :: decimal (-i).toNat := by
  rw [Int.toString_eq_repr, Int.repr_eq_if]
  split
  · rw [ascii, Nat.toList_repr, decimal]
  · rw [ascii, String.toList_append, Nat.toList_repr]
    rfl

theorem mem_ascii_toString {i : Int} {c : UInt8} (h : c ∈ ascii (toString i)) :
    c = minus ∨ isdigit c = true := by
  rw [ascii_toString] at h
  split at h
  · exact .inr (isdigit_decimal _ c h)
  · rcases List.mem_cons.mp h with rfl | h
    · exact .inl rfl
    · exact .inr (isdigit_decimal _ c h)

end SalernOS.Libc.Stdio
