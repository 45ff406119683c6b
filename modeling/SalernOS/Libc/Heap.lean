import SalernOS.Libc.Text

/-! # Allocation

The heap as the allocations and frees of a run, in order, together with the
error messages the run printed. Which calls of `realloc` succeed is a function
of the number of the call.
-/
namespace SalernOS.Libc

/-- A block is named by the `realloc` call that returned it. -/
abbrev Block := Nat

inductive HeapEvent where
  /-- `realloc(old, size)` and what it returned. A success takes `old` over, a
  failure leaves it allocated. -/
  | realloc (old : Option Block) (size : Nat) (new : Option Block)
  | free (block : Option Block)
  | ierr (msg : String)
deriving DecidableEq, Repr

structure Heap where
  calls : Nat
  trace : List HeapEvent
deriving DecidableEq, Repr

def Heap.empty : Heap := ⟨0, []⟩

namespace Heap

def realloc (ok : Nat → Bool) (h : Heap) (old : Option Block) (size : Nat) :
    Option Block × Heap :=
  let new := if ok h.calls then some h.calls else none
  (new, ⟨h.calls + 1, h.trace ++ [.realloc old size new]⟩)

def free (h : Heap) (block : Option Block) : Heap := { h with trace := h.trace ++ [.free block] }

def ierr (h : Heap) (msg : String) : Heap := { h with trace := h.trace ++ [.ierr msg] }

end Heap

/-- An array grown with `realloc`: its block, `NULL` before the first growth,
and the elements stored so far. -/
structure Growable (α : Type) where
  block : Option Block
  elems : List α
deriving DecidableEq, Repr

end SalernOS.Libc
