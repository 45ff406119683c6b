import Mathlib.Data.BitVec

/-! # Sets of small numbers as bit vectors

A loop that sets bits one after the other, the number of bits that are set,
and what separates the elements of some lists from their occurrences.
-/
namespace SalernOS.Lib

variable {w : Nat}

/-- Sets the bits below `n` that pass the test. -/
def setBits (p : Nat → Bool) (n : Nat) (s : BitVec w) : BitVec w :=
  (List.range n).foldl (fun s i => if p i then s ||| BitVec.twoPow w i else s) s

theorem getLsbD_setBits (p : Nat → Bool) (n : Nat) (s : BitVec w) (j : Nat) :
    (setBits p n s).getLsbD j = (s.getLsbD j || (decide (j < n) && decide (j < w) && p j)) := by
  induction n with
  | zero => simp [setBits]
  | succ n ih =>
    have hstep : setBits p (n + 1) s =
        if p n then setBits p n s ||| BitVec.twoPow w n else setBits p n s := by
      simp [setBits, List.range_succ]
    rw [hstep]
    rcases Nat.lt_trichotomy j n with hj | rfl | hj
    · have : n ≠ j := by omega
      split <;> simp [ih, hj, Nat.lt_succ_of_lt hj, this]
    · split <;> next hp => simp [ih, hp]
    · have h₁ : ¬ j < n := by omega
      have h₂ : ¬ j < n + 1 := by omega
      have : n ≠ j := by omega
      split <;> simp [ih, h₁, h₂, this]

/-- How many bits are set. -/
def bitCount (s : BitVec w) : Nat := (List.range w).countP s.getLsbD

theorem countP_range_lt (q : Nat → Bool) {n : Nat} : ∀ {w : Nat}, n ≤ w →
    (List.range w).countP (fun j => decide (j < n) && q j) = (List.range n).countP q
  | 0, h => by rw [Nat.le_zero.mp h]; rfl
  | w + 1, h => by
    rcases Nat.lt_or_ge w n with hw | hw
    · obtain rfl : n = w + 1 := by omega
      exact List.countP_congr fun j hj => by simp [List.mem_range.mp hj]
    · have : ¬ w < n := by omega
      rw [List.range_succ, List.countP_append, countP_range_lt q hw]
      simp [this]

/-- The bits that are set are those below `n` that pass the test. -/
theorem bitCount_eq {s : BitVec w} {n : Nat} {q : Nat → Bool} (hn : n ≤ w)
    (h : ∀ j < w, s.getLsbD j = (decide (j < n) && q j)) : bitCount s = (List.range n).countP q := by
  rw [← countP_range_lt q hn, bitCount]
  exact List.countP_congr fun j hj => by rw [h j (List.mem_range.mp hj)]

/-- Elements against occurrences, for elements that occur at most three times:
an element that does not occur is missed, further occurrences are too many. -/
theorem sum_occurrences {ι : Type} (f : ι → Nat) (q : ι → Bool) : ∀ l : List ι,
    (∀ i ∈ l, f i ≤ 3 ∧ (0 < f i → q i = true)) →
    (l.map f).sum + l.countP (fun i => q i && f i == 0) =
      l.countP q + l.countP (fun i => f i == 2) + 2 * l.countP (fun i => f i == 3)
  | [], _ => rfl
  | i :: l, h => by
    have ih := sum_occurrences f q l fun i hi => h i (List.mem_cons_of_mem _ hi)
    obtain ⟨hle, hq⟩ := h i List.mem_cons_self
    simp only [List.map_cons, List.sum_cons, List.countP_cons]
    have hf : f i = 0 ∨ f i = 1 ∨ f i = 2 ∨ f i = 3 := by omega
    rcases hf with hf | hf | hf | hf
    · cases hqi : q i <;> simp [hf] <;> omega
    all_goals simp [hf, hq (by omega)]; omega

theorem sum_toNat {ι : Type} (p : ι → Bool) (l : List ι) :
    (l.map fun i => (p i).toNat).sum = l.countP p := by
  induction l with
  | nil => rfl
  | cons i l ih =>
    rw [List.map_cons, List.sum_cons, ih, List.countP_cons, Nat.add_comm]
    cases p i <;> rfl

end SalernOS.Lib
