import Mathlib.Data.List.TakeWhile

/-! # The words of a text

Words are the longest parts without blanks. A scanner finds them by their
offsets, and a text that is cut in place has a terminator written behind each
word, over a blank or over its own terminator.
-/
namespace SalernOS.Lib

variable {α : Type} (blank : α → Bool)

/-- The first word; empty when there is none. -/
def word (s : List α) : List α := (s.dropWhile blank).takeWhile fun c => !blank c

def afterWord (s : List α) : List α := (s.dropWhile blank).dropWhile fun c => !blank c

/-- The first `k` words; those that are missing are empty. -/
def words : Nat → List α → List (List α)
  | 0, _ => []
  | k + 1, s => word blank s :: words k (afterWord blank s)

def afterWords : Nat → List α → List α
  | 0, s => s
  | k + 1, s => afterWords k (afterWord blank s)

/-- A terminator is written at each of these offsets. -/
def terminate (z : α) (buf : List α) (qs : List Nat) : List α :=
  qs.foldl (fun b q => b.set q z) buf

section
variable [DecidableEq α] (z : α)

/-- The elements from an offset on, up to the first terminator. -/
def stringAt (buf : List α) (p : Nat) : List α := (buf.drop p).takeWhile (· != z)

end

end SalernOS.Lib
