import Mathlib.Data.List.Basic

/-! # Files of fixed-size chunks

A file without framing is read chunk by chunk, and what is left at its end and
is shorter than a chunk is not one.
-/
namespace SalernOS.Lib

/-- `n` elements in a row. -/
structure Chunk (α : Type) (n : Nat) where
  elems : List α
  size : elems.length = n
deriving DecidableEq

variable {α : Type} {n : Nat}

@[ext] theorem Chunk.ext {a b : Chunk α n} (h : a.elems = b.elems) : a = b := by
  cases a; cases b; cases h; rfl

/-- The elements of the chunks, one behind the other. -/
def flattenChunks (cs : List (Chunk α n)) : List α := (cs.map Chunk.elems).flatten

@[simp] theorem flattenChunks_nil : flattenChunks ([] : List (Chunk α n)) = [] := rfl

@[simp] theorem flattenChunks_cons (c : Chunk α n) (cs : List (Chunk α n)) :
    flattenChunks (c :: cs) = c.elems ++ flattenChunks cs := rfl

theorem flattenChunks_append (cs ds : List (Chunk α n)) :
    flattenChunks (cs ++ ds) = flattenChunks cs ++ flattenChunks ds := by
  simp [flattenChunks]

/-- The chunk at the head of the elements, if there are enough of them. -/
def takeChunk (n : Nat) (l : List α) : Option (Chunk α n) :=
  if h : n ≤ l.length then some ⟨l.take n, List.length_take_of_le h⟩ else none

theorem takeChunk_append (c : Chunk α n) (l : List α) : takeChunk n (c.elems ++ l) = some c := by
  have h : n ≤ (c.elems ++ l).length := by
    rw [List.length_append, c.size]
    exact Nat.le_add_right _ _
  unfold takeChunk
  rw [dif_pos h]
  exact congrArg some (Chunk.ext (List.take_left' c.size))

theorem takeChunk_eq_some_iff {l : List α} {c : Chunk α n} :
    takeChunk n l = some c ↔ l = c.elems ++ l.drop n := by
  constructor
  · intro h
    unfold takeChunk at h
    split at h
    · cases h
      exact (List.take_append_drop n l).symm
    · cases h
  · intro h
    rw [h]
    exact takeChunk_append c _

theorem takeChunk_eq_none_iff {l : List α} : takeChunk n l = none ↔ l.length < n := by
  unfold takeChunk
  split
  · next h => exact iff_of_false nofun (Nat.not_lt.mpr h)
  · next h => exact iff_of_true rfl (Nat.lt_of_not_le h)

/-- What a number of reads return. -/
def readChunks (n : Nat) : Nat → List α → List (Option (Chunk α n))
  | 0, _ => []
  | k + 1, l => takeChunk n l :: readChunks n k (l.drop n)

/-- **What reading to the end enumerates.** Exactly the chunks that the file
begins with, where less than a chunk is left behind them. -/
theorem readChunks_eq_iff : ∀ {cs : List (Chunk α n)} {l : List α},
    readChunks n (cs.length + 1) l = cs.map some ++ [none] ↔
      ∃ tail, l = flattenChunks cs ++ tail ∧ tail.length < n
  | [], l => by simp [readChunks, takeChunk_eq_none_iff]
  | c :: cs, l => by
    change takeChunk n l :: readChunks n (cs.length + 1) (l.drop n) =
      some c :: (cs.map some ++ [none]) ↔ _
    rw [List.cons.injEq, takeChunk_eq_some_iff, readChunks_eq_iff, flattenChunks_cons]
    constructor
    · rintro ⟨hl, tail, ht, hlt⟩
      exact ⟨tail, by rw [List.append_assoc, ← ht]; exact hl, hlt⟩
    · rintro ⟨tail, rfl, hlt⟩
      have hdrop : (c.elems ++ flattenChunks cs ++ tail).drop n = flattenChunks cs ++ tail := by
        rw [List.append_assoc, List.drop_left' c.size]
      exact ⟨by rw [hdrop, List.append_assoc], tail, hdrop, hlt⟩

end SalernOS.Lib
