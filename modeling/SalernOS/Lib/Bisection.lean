import Mathlib.Data.Nat.Size

/-! # Bisection

A probe says of an index whether what is looked for lies in front of it, there,
or behind it. A search halves an interval until it has found it.
-/
namespace SalernOS.Lib

variable (probe : Nat → Int)

/-- Where the search of `[i, j)` ends, and the indices it has looked at. -/
def bisect (i j : Nat) : Option Nat × List Nat :=
  if i < j then
    let m := i + (j - i) / 2
    if probe m < 0 then ((bisect i m).1, m :: (bisect i m).2)
    else if 0 < probe m then ((bisect (m + 1) j).1, m :: (bisect (m + 1) j).2)
    else (some m, [m])
  else (none, [])
termination_by j - i

/-- What is found is what is looked for, inside the interval. -/
theorem bisect_found (i j : Nat) : ∀ m ∈ (bisect probe i j).1, i ≤ m ∧ m < j ∧ probe m = 0 := by
  fun_induction bisect probe i j with
  | case1 i j hij m hneg ih =>
    intro p hp
    have := ih p hp
    omega
  | case2 i j hij m hneg hpos ih =>
    intro p hp
    have := ih p hp
    omega
  | case3 i j hij m hneg hpos =>
    intro p hp
    obtain rfl : m = p := Option.some.inj hp
    omega
  | case4 => exact fun p hp => nomatch hp

theorem bisect_probes (i j : Nat) : ∀ m ∈ (bisect probe i j).2, i ≤ m ∧ m < j := by
  fun_induction bisect probe i j with
  | case1 i j hij m hneg ih =>
    intro p hp
    rcases List.mem_cons.mp hp with rfl | hp
    · omega
    · have := ih p hp
      omega
  | case2 i j hij m hneg hpos ih =>
    intro p hp
    rcases List.mem_cons.mp hp with rfl | hp
    · omega
    · have := ih p hp
      omega
  | case3 i j hij m hneg hpos =>
    intro p hp
    obtain rfl := List.mem_singleton.mp hp
    omega
  | case4 => exact fun p hp => nomatch hp

/-- There are no more probes than binary digits in the number of indices. -/
theorem bisect_length (i j : Nat) : (bisect probe i j).2.length ≤ (j - i).size := by
  have hhalf (a b : Nat) (hb : 0 < b) (ha : a ≤ b / 2) : a.size + 1 ≤ b.size := by
    have hlt := Nat.lt_size_self b
    have hpos := Nat.size_pos.mpr hb
    obtain ⟨n, hn⟩ := Nat.exists_eq_succ_of_ne_zero (Nat.ne_of_gt hpos)
    rw [hn] at hlt ⊢
    have hle : a.size ≤ n := Nat.size_le.mpr (by rw [Nat.pow_succ] at hlt; omega)
    omega
  fun_induction bisect probe i j with
  | case1 i j hij m hneg ih =>
    have := hhalf (m - i) (j - i) (by omega) (by omega)
    rw [List.length_cons]
    omega
  | case2 i j hij m hneg hpos ih =>
    have := hhalf (j - (m + 1)) (j - i) (by omega) (by omega)
    rw [List.length_cons]
    omega
  | case3 i j hij m hneg hpos =>
    exact Nat.size_pos.mpr (by omega)
  | case4 => exact Nat.zero_le _

/-- Behind an index that is too large all are, and in front of one that is too
small all are. -/
structure Falling (n : Nat) : Prop where
  neg : ∀ a b, a ≤ b → b < n → probe a < 0 → probe b < 0
  pos : ∀ a b, a ≤ b → b < n → 0 < probe b → 0 < probe a

variable {probe}

/-- **Nothing is missed.** -/
theorem Falling.bisect {n : Nat} (h : Falling probe n) (i j : Nat) (hj : j ≤ n)
    (hnone : (bisect probe i j).1 = none) : ∀ m, i ≤ m → m < j → probe m ≠ 0 := by
  fun_induction SalernOS.Lib.bisect probe i j with
  | case1 i j hij m hneg ih =>
    intro p hi hp
    by_cases hlt : p < m
    · exact ih (by omega) hnone p hi hlt
    · have := h.neg m p (by omega) (by omega) hneg
      omega
  | case2 i j hij m hneg hpos ih =>
    intro p hi hp
    by_cases hlt : m < p
    · exact ih hj hnone p (by omega) hp
    · have := h.pos p m (by omega) (by omega) hpos
      omega
  | case3 => cases hnone
  | case4 i j hij => exact fun p hi hp => absurd (Nat.lt_of_le_of_lt hi hp) hij

end SalernOS.Lib
