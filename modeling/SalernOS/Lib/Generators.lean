import Mathlib.Algebra.Ring.Parity
import Mathlib.Dynamics.PeriodicPts.Lemmas
import Mathlib.Tactic.Ring

/-! # Generators of words

A map `x ↦ a x + c` of words of `w` bits goes through all of them before it
comes back, when `a` leaves the remainder one by four and `c` is odd. A word
that is combined with a shift of itself can be got back.
-/
namespace SalernOS.Lib
open Function

/-! ## Steps of integers -/

def lcg (a c x : ℤ) : ℤ := a * x + c

variable (a c : ℤ)

theorem lcg_iterate_sub (n : ℕ) (x y : ℤ) :
    (lcg a c)^[n] x - (lcg a c)^[n] y = a ^ n * (x - y) := by
  induction n with
  | zero => simp
  | succ n ih =>
    rw [iterate_succ_apply', iterate_succ_apply', lcg, lcg, pow_succ']
    calc a * (lcg a c)^[n] x + c - (a * (lcg a c)^[n] y + c)
        = a * ((lcg a c)^[n] x - (lcg a c)^[n] y) := by ring
      _ = a * a ^ n * (x - y) := by rw [ih]; ring

/-- Going twice as far moves a number by so much more. -/
theorem lcg_iterate_double (n : ℕ) (x : ℤ) :
    (lcg a c)^[n + n] x - x = ((lcg a c)^[n] x - x) * (a ^ n + 1) := by
  have h := lcg_iterate_sub a c n ((lcg a c)^[n] x) x
  rw [iterate_add_apply]
  calc (lcg a c)^[n] ((lcg a c)^[n] x) - x
      = ((lcg a c)^[n] ((lcg a c)^[n] x) - (lcg a c)^[n] x) +
          ((lcg a c)^[n] x - x) := by ring
    _ = ((lcg a c)^[n] x - x) * (a ^ n + 1) := by rw [h]; ring

variable {a c}

/-- One more than a power of `a` is twice an odd number. -/
theorem pow_add_one (ha : a % 4 = 1) (n : ℕ) : ∃ r, Odd r ∧ a ^ n + 1 = 2 * r := by
  have hpow : a ^ n % 4 = 1 := by
    induction n with
    | zero => rw [pow_zero]; rfl
    | succ n ih => rw [pow_succ, Int.mul_emod, ih, ha]; rfl
  refine ⟨(a ^ n + 1) / 2, Int.odd_iff.mpr ?_, ?_⟩ <;> omega

/-- After `2 ^ k` steps a number has moved by an odd multiple of `2 ^ k`. -/
theorem lcg_moves (ha : a % 4 = 1) (hc : Odd c) (k : ℕ) (x : ℤ) :
    ∃ r, Odd r ∧ (lcg a c)^[2 ^ k] x - x = 2 ^ k * r := by
  induction k with
  | zero =>
    have heven : Even (a - 1) := by rw [Int.even_iff]; omega
    refine ⟨(a - 1) * x + c, (heven.mul_right x).add_odd hc, ?_⟩
    simp only [pow_zero, iterate_one, lcg]
    ring
  | succ k ih =>
    obtain ⟨r, hr, hmove⟩ := ih
    obtain ⟨q, hq, hpow⟩ := pow_add_one ha (2 ^ k)
    refine ⟨r * q, hr.mul hq, ?_⟩
    rw [pow_succ, mul_two, lcg_iterate_double, hmove, hpow]
    ring

/-! ## Steps of words -/

variable {w : ℕ}

def lcgWord (a c x : BitVec w) : BitVec w := x * a + c

theorem ofInt_eq_iff (x y : ℤ) : BitVec.ofInt w x = BitVec.ofInt w y ↔ (2 ^ w : ℤ) ∣ x - y := by
  have hne : (2 ^ w : ℤ) ≠ 0 := pow_ne_zero w (by decide)
  have hx := Int.emod_nonneg x hne
  have hy := Int.emod_nonneg y hne
  rw [← BitVec.toNat_inj, BitVec.toNat_ofInt, BitVec.toNat_ofInt, Int.dvd_iff_emod_eq_zero,
    ← Int.emod_eq_emod_iff_emod_sub_eq_zero]
  push_cast
  omega

/-- Words step as integers do. -/
theorem lcgWord_iterate (a c : ℤ) (n : ℕ) (x : ℤ) :
    (lcgWord (BitVec.ofInt w a) (BitVec.ofInt w c))^[n] (BitVec.ofInt w x) =
      BitVec.ofInt w ((lcg a c)^[n] x) := by
  have h : Semiconj (BitVec.ofInt w) (lcg a c) (lcgWord (BitVec.ofInt w a) (BitVec.ofInt w c)) := by
    intro x
    rw [lcg, lcgWord, BitVec.ofInt_add, BitVec.ofInt_mul, BitVec.mul_comm]
  exact (h.iterate_right n x).symm

/-- **The period is full.** -/
theorem lcgWord_period {a c : ℤ} (ha : a % 4 = 1) (hc : Odd c) (x : BitVec (w + 1)) :
    minimalPeriod (lcgWord (BitVec.ofInt (w + 1) a) (BitVec.ofInt (w + 1) c)) x = 2 ^ (w + 1) := by
  have hx : BitVec.ofInt (w + 1) x.toInt = x := BitVec.ofInt_toInt
  have hperiodic (n : ℕ) : IsPeriodicPt (lcgWord (BitVec.ofInt (w + 1) a)
      (BitVec.ofInt (w + 1) c)) n x ↔ (2 ^ (w + 1) : ℤ) ∣ (lcg a c)^[n] x.toInt - x.toInt := by
    rw [← ofInt_eq_iff, ← lcgWord_iterate, hx]
    rfl
  refine minimalPeriod_eq_prime_pow ?_ ?_
  · rw [hperiodic]
    obtain ⟨r, hr, hmove⟩ := lcg_moves ha hc w x.toInt
    rw [hmove, pow_succ]
    intro hdvd
    have h2 : (2 : ℤ) ∣ r := Int.dvd_of_mul_dvd_mul_left (pow_ne_zero w (by decide)) hdvd
    exact (Int.not_even_iff_odd.mpr hr) (even_iff_two_dvd.mpr h2)
  · rw [hperiodic]
    obtain ⟨r, -, hmove⟩ := lcg_moves ha hc (w + 1) x.toInt
    exact ⟨r, hmove⟩

theorem lcgWord_returns {a c : ℤ} (ha : a % 4 = 1) (hc : Odd c) (n : ℕ) (x : BitVec (w + 1)) :
    (lcgWord (BitVec.ofInt (w + 1) a) (BitVec.ofInt (w + 1) c))^[n + 2 ^ (w + 1)] x =
      (lcgWord (BitVec.ofInt (w + 1) a) (BitVec.ofInt (w + 1) c))^[n] x := by
  have h := isPeriodicPt_minimalPeriod (lcgWord (BitVec.ofInt (w + 1) a)
    (BitVec.ofInt (w + 1) c)) x
  rw [lcgWord_period ha hc] at h
  rw [iterate_add_apply, h.eq]

/-- Each word comes up once in a period. -/
theorem lcgWord_meets {a c : ℤ} (ha : a % 4 = 1) (hc : Odd c) (x y : BitVec (w + 1)) :
    ∃ n < 2 ^ (w + 1), ∀ m < 2 ^ (w + 1),
      (lcgWord (BitVec.ofInt (w + 1) a) (BitVec.ofInt (w + 1) c))^[m] x = y ↔ m = n := by
  have hperiod := lcgWord_period ha hc x
  generalize lcgWord (BitVec.ofInt (w + 1) a) (BitVec.ofInt (w + 1) c) = f at *
  have hinj : Set.InjOn (f^[·] x) (Set.Iio (2 ^ (w + 1))) := hperiod ▸ iterate_injOn_Iio_minimalPeriod
  have hsurj : Surjective fun n : Fin (2 ^ (w + 1)) => (f^[n] x).toFin := by
    refine Finite.surjective_of_injective fun m n hmn => Fin.ext ?_
    exact hinj m.isLt n.isLt (BitVec.toFin_inj.mp hmn)
  obtain ⟨n, hn⟩ := hsurj y.toFin
  have hn : f^[n] x = y := BitVec.toFin_inj.mp hn
  refine ⟨n, n.isLt, fun m hm => ⟨fun h => hinj hm n.isLt (h.trans hn.symm), ?_⟩⟩
  rintro rfl
  exact hn

/-! ## Words combined with shifts of themselves -/

/-- Each bit is the one of the result and one that is known already. -/
theorem xorShiftRight_injective {s : ℕ} (hs : 0 < s) :
    Injective fun x : BitVec w => x ^^^ (x >>> s) := by
  intro x y h
  have hbit (i : ℕ) : (x.getLsbD i ^^ x.getLsbD (s + i)) = (y.getLsbD i ^^ y.getLsbD (s + i)) := by
    have := congrArg (fun z : BitVec w => z.getLsbD i) h
    simpa only [BitVec.getLsbD_xor, BitVec.getLsbD_ushiftRight] using this
  -- from the top downwards
  have hdown : ∀ k i, w ≤ i + k → x.getLsbD i = y.getLsbD i := by
    intro k
    induction k with
    | zero => exact fun i hi => by rw [BitVec.getLsbD_of_ge x i hi, BitVec.getLsbD_of_ge y i hi]
    | succ k ih =>
      intro i hi
      have hnext := ih (s + i) (by omega)
      have := hbit i
      rw [hnext] at this
      exact Bool.xor_left_inj.mp this
  exact BitVec.eq_of_getLsbD_eq fun i _ => hdown w i (by omega)

theorem xorShiftLeft_injective {s : ℕ} (hs : 0 < s) (mask : BitVec w) :
    Injective fun x : BitVec w => x ^^^ ((x <<< s) &&& mask) := by
  intro x y h
  have hbit (i : ℕ) (hi : i < w) :
      (x.getLsbD i ^^ (x <<< s).getLsbD i && mask.getLsbD i) =
        (y.getLsbD i ^^ (y <<< s).getLsbD i && mask.getLsbD i) := by
    have := congrArg (fun z : BitVec w => z.getLsbD i) h
    simpa only [BitVec.getLsbD_xor, BitVec.getLsbD_and] using this
  -- from the bottom upwards
  have hup : ∀ i, i < w → x.getLsbD i = y.getLsbD i := by
    intro i
    induction i using Nat.strong_induction_on with
    | _ i ih =>
      intro hi
      have hshift : (x <<< s).getLsbD i = (y <<< s).getLsbD i := by
        rw [BitVec.getLsbD_shiftLeft, BitVec.getLsbD_shiftLeft]
        by_cases his : i < s
        · simp [his]
        · rw [ih (i - s) (by omega) (by omega)]
      have := hbit i hi
      rw [hshift] at this
      exact Bool.xor_left_inj.mp this
  exact BitVec.eq_of_getLsbD_eq hup

end SalernOS.Lib
