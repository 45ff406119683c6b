import Mathlib.Data.BitVec

/-! # Words within a word

Two words can share a third one, bit by bit. A layout says where the bits of
each stand. When they leave no bit of it over, the two words and the third
determine each other.
-/
namespace SalernOS.Lib

variable {m n w : Nat}

/-- The places of the bits of two words, which leave none over. -/
structure BitLayout (m n w : Nat) where
  left : Nat → Nat
  right : Nat → Nat
  covers : ∀ j < w, (∃ i < m, left i = j) ∨ ∃ i < n, right i = j

/-- The bits of `x` and `y` stand in `z` at their places. -/
structure BitLayout.Holds (l : BitLayout m n w) (x : BitVec m) (y : BitVec n) (z : BitVec w) :
    Prop where
  left : ∀ i < m, z.getLsbD (l.left i) = x.getLsbD i
  right : ∀ i < n, z.getLsbD (l.right i) = y.getLsbD i

namespace BitLayout.Holds

variable {l : BitLayout m n w} {x x' : BitVec m} {y y' : BitVec n} {z z' : BitVec w}

theorem left_unique (h : l.Holds x y z) (h' : l.Holds x' y' z) : x = x' := by
  apply BitVec.eq_of_getLsbD_eq
  intro i hi
  rw [← h.left i hi, h'.left i hi]

theorem right_unique (h : l.Holds x y z) (h' : l.Holds x' y' z) : y = y' := by
  apply BitVec.eq_of_getLsbD_eq
  intro i hi
  rw [← h.right i hi, h'.right i hi]

/-- Every bit of the third word is at the place of one of theirs. -/
theorem word_unique (h : l.Holds x y z) (h' : l.Holds x y z') : z = z' := by
  apply BitVec.eq_of_getLsbD_eq
  intro j hj
  rcases l.covers j hj with ⟨i, hi, rfl⟩ | ⟨i, hi, rfl⟩
  · rw [h.left i hi, h'.left i hi]
  · rw [h.right i hi, h'.right i hi]

end BitLayout.Holds

/-! ## Masks -/

/-- The `k` lowest bits of a word. -/
theorem getLsbD_and_mask (x : BitVec w) (k i : Nat) :
    (x &&& BitVec.ofNat w (2 ^ k - 1)).getLsbD i = (decide (i < k) && x.getLsbD i) := by
  rw [BitVec.getLsbD_and, BitVec.getLsbD_ofNat, Nat.testBit_two_pow_sub_one]
  by_cases hi : i < w
  · rw [decide_eq_true hi, Bool.true_and, Bool.and_comm]
  · rw [x.getLsbD_of_ge i (Nat.le_of_not_lt hi), Bool.false_and, Bool.and_false]

/-- The other bits. -/
theorem getLsbD_and_not_mask (x : BitVec w) (k i : Nat) :
    (x &&& ~~~BitVec.ofNat w (2 ^ k - 1)).getLsbD i = (decide (k ≤ i) && x.getLsbD i) := by
  rw [BitVec.getLsbD_and, BitVec.getLsbD_not, BitVec.getLsbD_ofNat, Nat.testBit_two_pow_sub_one]
  by_cases hi : i < w
  · have hk : (!decide (i < k)) = decide (k ≤ i) := by
      rw [← decide_not, decide_eq_decide]
      exact Nat.not_lt
    rw [decide_eq_true hi, Bool.true_and, Bool.true_and, hk, Bool.and_comm]
  · rw [x.getLsbD_of_ge i (Nat.le_of_not_lt hi), Bool.false_and, Bool.and_false]

end SalernOS.Lib
