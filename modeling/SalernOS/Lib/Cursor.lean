import Mathlib.Data.List.Basic

/-! # Bounds-checked cursors

A pointer into a block of memory, with what the block holds from there on. A
read with nothing left is a fault, so a scan that returns has stayed inside
its block. Scans over a block whose text is closed by an element that stops
them are `takeWhile` and `dropWhile` of that text.
-/
namespace SalernOS.Lib

/-- Why a run has no result: it left a block, it used a value at a type it
does not have, or a bounded loop was given too few rounds. -/
inductive Fault where
  | outOfBounds
  | badCast
  | outOfFuel
deriving DecidableEq, Repr

/-- A run that comes to a result has come to one at every step. -/
theorem ok_of_bind {ε α β : Type} {x : Except ε α} {f : α → Except ε β} {b : β}
    (h : x.bind f = .ok b) : ∃ a, x = .ok a ∧ f a = .ok b := by
  cases x with
  | error e => cases h
  | ok a => exact ⟨a, rfl, h⟩

/-- The offset of a pointer in its block, and the elements from there on. -/
structure Cursor (α : Type) where
  pos : Nat
  rest : List α
deriving DecidableEq, Repr

namespace Cursor

variable {α : Type}

def deref (p : Cursor α) : Except Fault α :=
  match p.rest with
  | [] => .error .outOfBounds
  | a :: _ => .ok a

def next (p : Cursor α) : Cursor α := ⟨p.pos + 1, p.rest.tail⟩

/-- `while (f(*p)) p++;` -/
def scan (f : α → Bool) : Nat → List α → Except Fault (Cursor α)
  | _, [] => .error .outOfBounds
  | pos, a :: l => if f a then scan f (pos + 1) l else .ok ⟨pos, a :: l⟩

def scanWhile (f : α → Bool) (p : Cursor α) : Except Fault (Cursor α) := scan f p.pos p.rest

/-- `while (p < end && f(*p)) p++;`, where `end` is an offset in the block. -/
def scanUpTo (f : α → Bool) (stop : Nat) : Nat → List α → Except Fault (Cursor α)
  | pos, [] => if pos < stop then .error .outOfBounds else .ok ⟨pos, []⟩
  | pos, a :: l =>
    if pos < stop then if f a then scanUpTo f stop (pos + 1) l else .ok ⟨pos, a :: l⟩
    else .ok ⟨pos, a :: l⟩

def scanWhileBelow (f : α → Bool) (stop : Nat) (p : Cursor α) : Except Fault (Cursor α) :=
  scanUpTo f stop p.pos p.rest

@[simp] theorem deref_cons (pos : Nat) (a : α) (l : List α) :
    deref ⟨pos, a :: l⟩ = .ok a := rfl

@[simp] theorem next_cons (pos : Nat) (a : α) (l : List α) :
    next ⟨pos, a :: l⟩ = ⟨pos + 1, l⟩ := rfl

/-- A scan stops at the closing element at the latest. Before it, `f` may be
replaced by any test that agrees with it there. -/
theorem scan_closed {f g : α → Bool} {z : α} (hz : f z = false) (junk : List α) :
    ∀ (s : List α) (pos : Nat), (∀ a ∈ s, f a = g a) → scan f pos (s ++ z :: junk) =
      .ok ⟨pos + (s.takeWhile g).length, s.dropWhile g ++ z :: junk⟩
  | [], pos, _ => by simp [scan, hz]
  | a :: s, pos, h => by
    have hfg := h a (by simp)
    by_cases ha : g a = true
    · have ih := scan_closed hz junk s (pos + 1) (fun b hb => h b (by simp [hb]))
      simp only [List.cons_append, scan, hfg, ha, if_true, ih, List.takeWhile_cons,
        List.dropWhile_cons, List.length_cons]
      congr 2; omega
    · simp [scan, hfg, ha]

theorem scanWhile_closed {f g : α → Bool} {z : α} (hz : f z = false) (junk s : List α)
    (pos : Nat) (h : ∀ a ∈ s, f a = g a) : scanWhile f ⟨pos, s ++ z :: junk⟩ =
      .ok ⟨pos + (s.takeWhile g).length, s.dropWhile g ++ z :: junk⟩ :=
  scan_closed hz junk s pos h

/-- A bounded scan inside a prefix of the text looks at that prefix only. -/
theorem scanUpTo_append {f : α → Bool} (post : List α) :
    ∀ (s : List α) (pos : Nat), scanUpTo f (pos + s.length) pos (s ++ post) =
      .ok ⟨pos + (s.takeWhile f).length, s.dropWhile f ++ post⟩
  | [], pos => by cases post <;> simp [scanUpTo]
  | a :: s, pos => by
    have ih := scanUpTo_append (f := f) post s (pos + 1)
    rw [show pos + 1 + s.length = pos + (s.length + 1) by omega] at ih
    by_cases ha : f a = true
    · simp only [List.cons_append, List.length_cons, scanUpTo, ha, if_true, ih,
        List.takeWhile_cons, List.dropWhile_cons]
      rw [if_pos (by omega)]
      congr 2; omega
    · simp [scanUpTo, ha]

theorem scanWhileBelow_append {f : α → Bool} (s post : List α) (pos : Nat) :
    scanWhileBelow f (pos + s.length) ⟨pos, s ++ post⟩ =
      .ok ⟨pos + (s.takeWhile f).length, s.dropWhile f ++ post⟩ :=
  scanUpTo_append post s pos

/-! ## A larger block

What a run reads of a block, it reads of every block that begins with it.
-/

/-- The same pointer into a block with more behind. -/
def extend (more : List α) (p : Cursor α) : Cursor α := ⟨p.pos, p.rest ++ more⟩

theorem deref_extend {p : Cursor α} {a : α} (more : List α) (h : p.deref = .ok a) :
    (p.extend more).deref = .ok a ∧ (p.extend more).next = p.next.extend more := by
  obtain ⟨pos, rest⟩ := p
  cases rest with
  | nil => cases h
  | cons b l => exact ⟨h, rfl⟩

theorem scan_extend {f : α → Bool} (more : List α) : ∀ (l : List α) (pos : Nat) {q : Cursor α},
    scan f pos l = .ok q → scan f pos (l ++ more) = .ok (q.extend more)
  | [], _, _, h => by cases h
  | a :: l, pos, q, h => by
    unfold scan at h
    rw [List.cons_append, scan]
    split at h
    · next ha =>
      rw [if_pos ha]
      exact scan_extend more l (pos + 1) h
    · next ha =>
      rw [if_neg ha]
      cases h
      rfl

theorem scanWhile_extend {f : α → Bool} (more : List α) {p q : Cursor α}
    (h : p.scanWhile f = .ok q) : (p.extend more).scanWhile f = .ok (q.extend more) :=
  scan_extend more p.rest p.pos h

theorem scanUpTo_extend {f : α → Bool} {stop : Nat} (more : List α) :
    ∀ (l : List α) (pos : Nat) {q : Cursor α},
      scanUpTo f stop pos l = .ok q → scanUpTo f stop pos (l ++ more) = .ok (q.extend more)
  | [], pos, q, h => by
    unfold scanUpTo at h
    split at h
    · cases h
    · next hstop =>
      cases h
      rw [List.nil_append]
      cases more with
      | nil => exact if_neg hstop
      | cons a l => exact if_neg hstop
  | a :: l, pos, q, h => by
    unfold scanUpTo at h
    rw [List.cons_append, scanUpTo]
    split at h
    · next hstop =>
      rw [if_pos hstop]
      split at h
      · next ha =>
        rw [if_pos ha]
        exact scanUpTo_extend more l (pos + 1) h
      · next ha =>
        rw [if_neg ha]
        cases h
        rfl
    · next hstop =>
      rw [if_neg hstop]
      cases h
      rfl

theorem scanWhileBelow_extend {f : α → Bool} {stop : Nat} (more : List α) {p q : Cursor α}
    (h : p.scanWhileBelow f stop = .ok q) :
    (p.extend more).scanWhileBelow f stop = .ok (q.extend more) :=
  scanUpTo_extend more p.rest p.pos h

end Cursor

end SalernOS.Lib
