import SalernOS.Lib.Cursor

/-! # Bytes and C strings

`char *` is a cursor into a block of bytes. A C string is named by its bytes
before the terminator, none of which is NUL.
-/
namespace SalernOS.Libc
open SalernOS.Lib

abbrev Bytes := List UInt8
abbrev Ptr := Cursor UInt8

def nul : UInt8 := 0
def newline : UInt8 := 10
def quote : UInt8 := 34
def dollar : UInt8 := 36
def equals : UInt8 := 61

/-- `isspace` in the C locale: space, `\t`, `\n`, `\v`, `\f`, `\r`. -/
def isspace (c : UInt8) : Bool := c == 32 || (9 ≤ c && c ≤ 13)

/-- The white space that does not end a line. -/
def isBlank (c : UInt8) : Bool := isspace c && c != newline

@[simp] theorem isspace_nul : isspace nul = false := rfl
@[simp] theorem isspace_newline : isspace newline = true := rfl
@[simp] theorem isspace_quote : isspace quote = false := rfl
@[simp] theorem newline_ne_nul : newline ≠ nul := by decide
@[simp] theorem quote_ne_nul : quote ≠ nul := by decide
@[simp] theorem quote_ne_newline : quote ≠ newline := by decide

theorem isspace_of_isBlank {c : UInt8} (h : isBlank c = true) : isspace c = true := by
  simp only [isBlank, Bool.and_eq_true] at h; exact h.1

theorem ne_newline_of_isBlank {c : UInt8} (h : isBlank c = true) : c ≠ newline := by
  simp only [isBlank, Bool.and_eq_true, bne_iff_ne] at h; exact h.2

/-- A string without its terminator. -/
structure CString where
  bytes : Bytes
  noNul : nul ∉ bytes

/-- The block that holds the string, and nothing behind it. -/
def CString.block (s : CString) : Bytes := s.bytes ++ [nul]

/-- `a`, a line end, `b`. -/
def CString.joinLine (a b : CString) : CString where
  bytes := a.bytes ++ newline :: b.bytes
  noNul := by
    have := newline_ne_nul
    simp [a.noNul, b.noNul, Ne.symm this]

/-- The bytes of a literal. -/
def ascii (s : String) : Bytes := s.toList.map fun c => c.toNat.toUInt8

/-- `strncmp`. A list that has run out stands at its terminator. -/
def strncmp : Nat → Bytes → Bytes → Int
  | 0, _, _ => 0
  | n + 1, a, b =>
    let x := a.headD nul
    let y := b.headD nul
    if x ≠ y then (x.toNat : Int) - y.toNat
    else if x = nul then 0
    else strncmp n a.tail b.tail

/-- `strncmp` looks at no more than `n` bytes. -/
theorem strncmp_take (n : Nat) : ∀ a b : Bytes, strncmp n (a.take n) b = strncmp n a b := by
  induction n with
  | zero => intro a b; rfl
  | succ n ih =>
    intro a b
    cases a with
    | nil => rfl
    | cons c a =>
      unfold strncmp
      simp only [List.take_succ_cons, List.headD_cons, List.tail_cons, ih]
      rfl

/-- `n - 1` in `size_t`. -/
def sizePred (n : Nat) : Nat := if n = 0 then UInt64.size - 1 else n - 1

end SalernOS.Libc
