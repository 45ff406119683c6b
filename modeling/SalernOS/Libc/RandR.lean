import SalernOS.Lib.Generators

/-! # `rand_r` of `stdlib.patched.cpp`

A congruential generator whose words are stirred, and shifted to the right by
one so that they are not negative.
-/
namespace SalernOS.Libc.RandR
open SalernOS.Lib Function

def temper (x : BitVec 32) : BitVec 32 :=
  let x := x ^^^ (x >>> 11)
  let x := x ^^^ ((x <<< 7) &&& 0x9D2C5680)
  let x := x ^^^ ((x <<< 15) &&& 0xEFC60000)
  let x := x ^^^ (x >>> 18)
  x

/-- `rand_r`, with `*seed`. -/
def randR (seed : BitVec 32) : Int × BitVec 32 :=
  let seed := seed * 1103515245 + 12345
  (((temper seed).toNat / 2 : Nat), seed)

/-- `*seed` behind `n` calls. -/
def seedAfter (seed : BitVec 32) (n : Nat) : BitVec 32 := (fun s => (randR s).2)^[n] seed

/-- What the call behind `n` others returns. -/
def drawn (seed : BitVec 32) (n : Nat) : Int := (randR (seedAfter seed n)).1

theorem temper_injective : Injective temper := by
  intro x y h
  have h := xorShiftRight_injective (by decide) h
  have h := xorShiftLeft_injective (by decide) _ h
  have h := xorShiftLeft_injective (by decide) _ h
  exact xorShiftRight_injective (by decide) h

theorem temper_surjective : Surjective temper := by
  have hfin : Surjective fun x : Fin (2 ^ 32) => (temper ⟨x⟩).toFin := by
    refine Finite.surjective_of_injective fun x y h => ?_
    exact congrArg BitVec.toFin (temper_injective (BitVec.toFin_inj.mp h))
  intro y
  obtain ⟨x, hx⟩ := hfin y.toFin
  exact ⟨⟨x⟩, BitVec.toFin_inj.mp hx⟩

/-- The stirred words that the calls return the halves of. -/
theorem drawn_eq (seed : BitVec 32) (n : Nat) :
    drawn seed n = ((temper (seedAfter seed (n + 1))).toNat / 2 : Nat) := by
  rw [drawn, seedAfter, seedAfter, iterate_succ_apply']
  rfl

theorem seedAfter_eq (seed : BitVec 32) (n : Nat) : seedAfter seed n =
    (lcgWord (BitVec.ofInt 32 1103515245) (BitVec.ofInt 32 12345))^[n] seed := rfl

/-- Each word is met once in a period, from whichever seed on. -/
theorem word_met (seed y : BitVec 32) :
    ∃ n < 2 ^ 32, ∀ m < 2 ^ 32, temper (seedAfter seed (m + 1)) = y ↔ m = n := by
  obtain ⟨x, rfl⟩ := temper_surjective y
  obtain ⟨n, hn, hmeets⟩ := lcgWord_meets (w := 31) (a := 1103515245) (c := 12345) (by decide)
    (by decide) (seedAfter seed 1) x
  refine ⟨n, hn, fun m hm => ?_⟩
  rw [temper_injective.eq_iff, ← hmeets m hm, seedAfter_eq, iterate_succ_apply]
  rfl

theorem drawn_iff (seed : BitVec 32) {v : Nat} (hv : v < 2 ^ 31) (n : Nat) :
    drawn seed n = v ↔ temper (seedAfter seed (n + 1)) = BitVec.ofNat 32 (2 * v) ∨
      temper (seedAfter seed (n + 1)) = BitVec.ofNat 32 (2 * v + 1) := by
  rw [drawn_eq]
  generalize temper (seedAfter seed (n + 1)) = x
  rw [← BitVec.toNat_inj, ← BitVec.toNat_inj, BitVec.toNat_ofNat, BitVec.toNat_ofNat,
    Nat.mod_eq_of_lt (by omega), Nat.mod_eq_of_lt (by omega)]
  omega

/-- **`rand_r` is fair.** Among `2 ^ 32` calls, from whichever seed on, each
number from zero to `RAND_MAX` comes up exactly twice, no other number comes up,
and then all repeats. -/
theorem randR_fair (seed : BitVec 32) :
    (∀ n, 0 ≤ drawn seed n ∧ drawn seed n < 2 ^ 31 ∧ drawn seed (n + 2 ^ 32) = drawn seed n) ∧
      ∀ v : Nat, v < 2 ^ 31 → ∃ i j, i < 2 ^ 32 ∧ j < 2 ^ 32 ∧ i ≠ j ∧
        ∀ n < 2 ^ 32, drawn seed n = v ↔ n = i ∨ n = j := by
  refine ⟨fun n => ⟨?_, ?_, ?_⟩, fun v hv => ?_⟩
  · rw [drawn_eq]
    omega
  · rw [drawn_eq]
    have := (temper (seedAfter seed (n + 1))).isLt
    omega
  · have hreturns := lcgWord_returns (w := 31) (a := 1103515245) (c := 12345) (by decide)
      (by decide) (n + 1) seed
    rw [drawn_eq, drawn_eq, seedAfter_eq, seedAfter_eq, ← hreturns,
      Nat.add_right_comm n (2 ^ 32) 1]
  · obtain ⟨i, hi, hmeti⟩ := word_met seed (BitVec.ofNat 32 (2 * v))
    obtain ⟨j, hj, hmetj⟩ := word_met seed (BitVec.ofNat 32 (2 * v + 1))
    refine ⟨i, j, hi, hj, fun he => ?_, fun n hn => ?_⟩
    · have h1 := (hmeti i hi).mpr rfl
      have h2 := (hmetj i hi).mpr he
      have h := congrArg BitVec.toNat (h1.symm.trans h2)
      rw [BitVec.toNat_ofNat, BitVec.toNat_ofNat, Nat.mod_eq_of_lt (by omega),
        Nat.mod_eq_of_lt (by omega)] at h
      omega
    · rw [drawn_iff seed hv, hmeti n hn, hmetj n hn]

theorem seven_twice : ∃ i j, i < 2 ^ 32 ∧ j < 2 ^ 32 ∧ i ≠ j ∧
    ∀ n < 2 ^ 32, drawn 1 n = (7 : Nat) ↔ n = i ∨ n = j :=
  (randR_fair 1).2 7 (by decide)

end SalernOS.Libc.RandR
