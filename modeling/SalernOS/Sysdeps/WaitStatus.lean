import Mathlib.Data.BitVec
import Mathlib.Data.Nat.Bitwise

/-! # `mlibc-salernos/abi/wait.h`

What `waitpid` stores is an `int` that says how a child has changed: it has
exited, a signal has ended it, or it has been stopped or continued.
-/
namespace SalernOS.Sysdeps.WaitStatus

abbrev Status := BitVec 32

def wcoreflag : BitVec 32 := 0x80

def wexitstatus (x : Status) : BitVec 32 := (x &&& 0xff00) >>> 8
def wtermsig (x : Status) : BitVec 32 := x &&& 0x7f
def wstopsig (x : Status) : BitVec 32 := wexitstatus x
def wifexited (x : Status) : Bool := wtermsig x == 0

/-- The conversion to `signed char` makes 128 negative. -/
def wifsignaled (x : Status) : Bool := (((x &&& 0x7f) + 1).setWidth 8).toInt >>> (1 : Nat) > 0

def wifstopped (x : Status) : Bool := x &&& 0xff == 0x7f
def wifcontinued (x : Status) : Bool := x == 0xffff
def wcoredump (x : Status) : BitVec 32 := x &&& wcoreflag

/-- `W_EXITCODE`. -/
def wExitcode (ret sig : BitVec 32) : Status := ret <<< 8 ||| sig

inductive Change where
  | exited
  | signaled
  | stopped
  | continued
deriving DecidableEq, Repr

/-- The changes that the macros find in a status. -/
def changes (x : Status) : List Change :=
  (if wifexited x then [.exited] else []) ++ (if wifsignaled x then [.signaled] else []) ++
    (if wifstopped x then [.stopped] else []) ++ (if wifcontinued x then [.continued] else [])

/-! ## The macros as numbers -/

theorem toNat_and_mask (x : Status) (k : Nat) (h : k < 32) :
    (x &&& BitVec.ofNat 32 (2 ^ k - 1)).toNat = x.toNat % 2 ^ k := by
  have hlt : 2 ^ k - 1 < 2 ^ 32 := by
    have := Nat.pow_lt_pow_right (by decide : 1 < 2) h
    omega
  rw [BitVec.toNat_and, BitVec.toNat_ofNat, Nat.mod_eq_of_lt hlt, Nat.and_two_pow_sub_one_eq_mod]

theorem toNat_wtermsig (x : Status) : (wtermsig x).toNat = x.toNat % 128 :=
  toNat_and_mask x 7 (by decide)

theorem toNat_wexitstatus (x : Status) : (wexitstatus x).toNat = x.toNat / 256 % 256 := by
  have hmask : (0xff00 : BitVec 32).toNat >>> 8 = 2 ^ 8 - 1 := rfl
  rw [wexitstatus, BitVec.toNat_ushiftRight, BitVec.toNat_and, Nat.shiftRight_and_distrib, hmask,
    Nat.and_two_pow_sub_one_eq_mod, Nat.shiftRight_eq_div_pow]

theorem wifexited_iff (x : Status) : wifexited x = true ↔ x.toNat % 128 = 0 := by
  rw [wifexited, beq_iff_eq, ← BitVec.toNat_inj, toNat_wtermsig]
  rfl

theorem wifstopped_iff (x : Status) : wifstopped x = true ↔ x.toNat % 256 = 127 := by
  have hnum : (x &&& 0xff).toNat = x.toNat % 256 := toNat_and_mask x 8 (by decide)
  rw [wifstopped, beq_iff_eq, ← BitVec.toNat_inj, hnum]
  rfl

theorem wifcontinued_iff (x : Status) : wifcontinued x = true ↔ x.toNat = 65535 := by
  rw [wifcontinued, beq_iff_eq, ← BitVec.toNat_inj]
  rfl

theorem wcoredump_iff (x : Status) : wcoredump x ≠ 0 ↔ x.toNat / 128 % 2 = 1 := by
  have hnum : (wcoredump x).toNat = (x.toNat.testBit 7).toNat * 2 ^ 7 := by
    rw [wcoredump, BitVec.toNat_and]
    exact Nat.and_two_pow x.toNat 7
  rw [ne_eq, ← BitVec.toNat_inj, hnum, Nat.testBit_eq_decide_div_mod_eq]
  simp

theorem wifsignaled_iff (x : Status) :
    wifsignaled x = true ↔ x.toNat % 128 ≠ 0 ∧ x.toNat % 128 ≠ 127 := by
  have hnum : (((x &&& 0x7f) + 1).setWidth 8).toNat = x.toNat % 128 + 1 := by
    have hterm : (x &&& 0x7f).toNat = x.toNat % 128 := toNat_wtermsig x
    have hone : (1 : BitVec 32).toNat = 1 := rfl
    rw [BitVec.toNat_setWidth, BitVec.toNat_add, hterm, hone]
    omega
  rw [wifsignaled, decide_eq_true_iff, Int.shiftRight_eq_div_pow, BitVec.toInt_eq_toNat_cond, hnum]
  split <;> omega

/-- Only the lower 24 bits of the code have room. -/
theorem toNat_wExitcode (ret : BitVec 32) {sig : BitVec 32} (h : sig.toNat < 2 ^ 8) :
    (wExitcode ret sig).toNat = ret.toNat % 2 ^ 24 * 2 ^ 8 + sig.toNat := by
  have hshift : (ret <<< 8).toNat = ret.toNat % 2 ^ 24 * 2 ^ 8 := by
    rw [BitVec.toNat_shiftLeft, Nat.shiftLeft_eq]
    omega
  rw [wExitcode, BitVec.toNat_or, hshift, ← Nat.shiftLeft_eq, Nat.shiftLeft_add_eq_or_of_lt h]

/-! ## Which change a status tells -/

theorem changes_eq (x : Status) : changes x =
    if x.toNat % 128 = 0 then [.exited]
    else if x.toNat % 128 = 127 then
      if x.toNat % 256 = 127 then [.stopped] else if x.toNat = 65535 then [.continued] else []
    else [.signaled] := by
  simp only [changes, wifexited_iff, wifsignaled_iff, wifstopped_iff, wifcontinued_iff]
  by_cases hzero : x.toNat % 128 = 0
  · have hstop : ¬ x.toNat % 256 = 127 := by omega
    have hcont : ¬ x.toNat = 65535 := by omega
    simp [hzero, hstop, hcont]
  by_cases hlast : x.toNat % 128 = 127
  · by_cases hstop : x.toNat % 256 = 127
    · have hcont : ¬ x.toNat = 65535 := by omega
      simp [hlast, hstop, hcont]
    · simp [hlast, hstop]
  · have hstop : ¬ x.toNat % 256 = 127 := by omega
    have hcont : ¬ x.toNat = 65535 := by omega
    simp [hzero, hlast, hstop, hcont]

/-- The signal, and whether a core has been dumped. -/
def killed (sig : BitVec 32) (core : Bool) : BitVec 32 := if core then sig ||| wcoreflag else sig

theorem toNat_killed {sig : BitVec 32} (h : sig.toNat < 127) (core : Bool) :
    (killed sig core).toNat = sig.toNat + if core then 128 else 0 := by
  cases core with
  | false => rfl
  | true =>
    have hor : (sig ||| wcoreflag).toNat = sig.toNat ||| 1 <<< 7 := BitVec.toNat_or ..
    have hadd := Nat.shiftLeft_add_eq_or_of_lt (a := 1) (b := sig.toNat) (i := 7) (by omega)
    show (sig ||| wcoreflag).toNat = _
    rw [hor, Nat.or_comm, ← hadd]
    show 128 + sig.toNat = sig.toNat + 128
    omega

theorem changes_exited_iff (x : Status) : changes x = [.exited] ↔ wifexited x = true := by
  rw [changes_eq, wifexited_iff]
  split
  case isTrue hzero => exact iff_of_true rfl hzero
  case isFalse hzero =>
    refine iff_of_false (fun h => ?_) hzero
    split at h
    · split at h
      · cases h
      · split at h <;> cases h
    · cases h

theorem changes_exit (ret : BitVec 32) : changes (wExitcode ret 0) = [.exited] ∧
    (wexitstatus (wExitcode ret 0)).toNat = ret.toNat % 256 := by
  have hnum : (wExitcode ret 0).toNat = ret.toNat % 2 ^ 24 * 2 ^ 8 + 0 :=
    toNat_wExitcode ret (by decide)
  rw [changes_eq, toNat_wexitstatus, hnum]
  exact ⟨if_pos (by omega), by omega⟩

theorem changes_stop (sig : BitVec 32) : changes (wExitcode sig 0x7f) = [.stopped] ∧
    (wstopsig (wExitcode sig 0x7f)).toNat = sig.toNat % 256 := by
  have hnum : (wExitcode sig 0x7f).toNat = sig.toNat % 2 ^ 24 * 2 ^ 8 + 127 :=
    toNat_wExitcode sig (by decide)
  rw [changes_eq, wstopsig, toNat_wexitstatus, hnum]
  refine ⟨?_, by omega⟩
  rw [if_neg (by omega), if_pos (by omega), if_pos (by omega)]

theorem changes_kill {sig : BitVec 32} (core : Bool) (hpos : 0 < sig.toNat)
    (hlt : sig.toNat < 127) : changes (wExitcode 0 (killed sig core)) = [.signaled] ∧
      wtermsig (wExitcode 0 (killed sig core)) = sig ∧
      (wcoredump (wExitcode 0 (killed sig core)) ≠ 0 ↔ core = true) := by
  have hkilled := toNat_killed hlt core
  have hsmall : (killed sig core).toNat < 2 ^ 8 := by
    rw [hkilled]
    split <;> omega
  have hnum : (wExitcode 0 (killed sig core)).toNat = sig.toNat + if core then 128 else 0 := by
    rw [toNat_wExitcode 0 hsmall, hkilled]
    exact Nat.zero_add _
  have hdump : wcoredump (wExitcode 0 (killed sig core)) ≠ 0 ↔
      (wExitcode 0 (killed sig core)).toNat / 128 % 2 = 1 := wcoredump_iff _
  refine ⟨?_, BitVec.eq_of_toNat_eq ?_, hdump.trans ?_⟩
  · rw [changes_eq, hnum]
    cases core with
    | false => rw [if_neg (by simp; omega), if_neg (by simp; omega)]
    | true => rw [if_neg (by simp; omega), if_neg (by simp; omega)]
  · rw [toNat_wtermsig, hnum]
    cases core <;> simp <;> omega
  · rw [hnum]
    cases core <;> simp <;> omega

theorem changes_length (x : Status) : (changes x).length ≤ 1 := by
  rw [changes_eq]
  split
  · exact Nat.le_refl 1
  · split
    · split
      · exact Nat.le_refl 1
      · split
        · exact Nat.le_refl 1
        · exact Nat.zero_le 1
    · exact Nat.le_refl 1

theorem changes_eq_nil_iff (x : Status) : changes x = [] ↔ x.toNat % 256 = 255 ∧ x ≠ 0xffff := by
  have hcont : x = 0xffff ↔ x.toNat = 65535 := by
    rw [← BitVec.toNat_inj]
    rfl
  rw [changes_eq, Ne, hcont]
  split
  · exact ⟨nofun, fun h => by omega⟩
  · split
    · split
      · exact ⟨nofun, fun h => by omega⟩
      · split
        · exact ⟨nofun, fun h => by omega⟩
        · exact ⟨fun _ => by omega, fun _ => rfl⟩
    · exact ⟨nofun, fun h => by omega⟩

/-- What the X server's `System` and `Pclose` return behind `waitpid`, which has
returned `p`. -/
def systemReturn (p : Int) (status : Status) : Int :=
  if p = -1 then -1 else if !wifexited status || wexitstatus status != 0 then 1 else 0

theorem systemReturn_zero_iff (p : Int) (status : Status) : systemReturn p status = 0 ↔
    p ≠ -1 ∧ changes status = [.exited] ∧ wexitstatus status = 0 := by
  rw [changes_exited_iff, systemReturn]
  by_cases hp : p = -1
  · simp [hp]
  · cases wifexited status <;> simp [hp]

/-- **A status tells one change.** The macros never find two changes in a
status, and they find none exactly in those whose lowest byte is 255, but for
one; and what is put together for an exit, a signal or a stop is taken apart
again. -/
theorem statuses_told :
    (∀ x : Status, (changes x).length ≤ 1 ∧
      (changes x = [] ↔ x.toNat % 256 = 255 ∧ x ≠ 0xffff)) ∧
    (∀ ret : BitVec 32, changes (wExitcode ret 0) = [.exited] ∧
      (wexitstatus (wExitcode ret 0)).toNat = ret.toNat % 256) ∧
    (∀ (sig : BitVec 32) (core : Bool), 0 < sig.toNat → sig.toNat < 127 →
      changes (wExitcode 0 (killed sig core)) = [.signaled] ∧
      wtermsig (wExitcode 0 (killed sig core)) = sig ∧
      (wcoredump (wExitcode 0 (killed sig core)) ≠ 0 ↔ core = true)) ∧
    (∀ sig : BitVec 32, changes (wExitcode sig 0x7f) = [.stopped] ∧
      (wstopsig (wExitcode sig 0x7f)).toNat = sig.toNat % 256) ∧
    ∀ (p : Int) (status : Status), systemReturn p status = 0 ↔
      p ≠ -1 ∧ changes status = [.exited] ∧ wexitstatus status = 0 := by
  exact ⟨fun x => ⟨changes_length x, changes_eq_nil_iff x⟩, changes_exit,
    fun sig core => changes_kill core, changes_stop, systemReturn_zero_iff⟩

theorem sigsegv_told : changes (wExitcode 0 (killed 11 true)) = [.signaled] ∧
    wtermsig (wExitcode 0 (killed 11 true)) = 11 ∧
    (wcoredump (wExitcode 0 (killed 11 true)) ≠ 0 ↔ true = true) :=
  statuses_told.2.2.1 11 true (by decide) (by decide)

end SalernOS.Sysdeps.WaitStatus
