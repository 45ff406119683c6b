import SalernOS.Sysdeps.Select

/-! # `sys_sleep`

A duration goes from seconds and nanoseconds to milliseconds in `unsigned
long`, to the `int` that `poll` takes, and back to a `timespec` for `PPOLL`.
-/
namespace SalernOS.Sysdeps.Sleep
open SalernOS.Sysdeps SalernOS.Sysdeps.Select

structure Timespec where
  tvSec : BitVec 64
  tvNsec : BitVec 64
deriving DecidableEq, Repr

/-- `sys_poll`: the timeout that reaches `PPOLL`, where `none` is `NULL`, and
what `sys_ppoll` makes of the call. -/
def sysPoll (kernel : Option Timespec → Kernel) (fds : List PollFd) (timeout : BitVec 32)
    (numEvents : Int) : Option Timespec × Int × Int × (Nat → BitVec 16) :=
  let ts : Timespec :=
    { tvSec := (timeout.sdiv 1000).signExtend 64
      tvNsec := (timeout.srem 1000 * 1000000).signExtend 64 }
  let ts := if timeout.slt 0 then none else some ts
  (ts, sysPpoll (kernel ts) fds numEvents)

/-- `sys_sleep`: the timeout that reaches `PPOLL`, and the result. The sum is
formed in `unsigned long`, and its low half is passed on. -/
def sysSleep (kernel : Option Timespec → Kernel) (secs nanos : Option (BitVec 64)) :
    Option Timespec × Int :=
  let s := secs.getD 0
  let n := nanos.getD 0
  let tot := s * 1000 + n / 1000000
  ((sysPoll kernel [] (tot.setWidth 32) 0).1, 0)

/-! ## Durations -/

/-- The time that a `timespec` denotes, in nanoseconds. -/
def Timespec.duration (ts : Timespec) : Int := ts.tvSec.toInt * 1000000000 + ts.tvNsec.toInt

def Timespec.Normal (ts : Timespec) : Prop :=
  0 ≤ ts.tvNsec.toInt ∧ ts.tvNsec.toInt < 1000000000

/-- A duration that can be asked for. -/
structure Duration where
  secs : Nat
  nanos : Nat
  nanosLt : nanos < 1000000000
  fits : secs * 1000000000 < 2 ^ 63

def Duration.total (d : Duration) : Nat := d.secs * 1000000000 + d.nanos

/-- The duration in whole milliseconds. -/
def Duration.millis (d : Duration) : Nat := d.secs * 1000 + d.nanos / 1000000

/-- `PPOLL` is given a time, a normal one, that is not shorter than `d`. -/
def LongEnough (d : Duration) (timeout : Option Timespec) : Prop :=
  ∃ ts, timeout = some ts ∧ ts.Normal ∧ (d.total : Int) ≤ ts.duration

/-! ## From milliseconds to a `timespec` -/

/-- A timeout that is negative as an `int` waits for ever. -/
theorem sysPoll_forever (kernel : Option Timespec → Kernel) (fds : List PollFd)
    {timeout : BitVec 32} (numEvents : Int) (h : 2 ^ 31 ≤ timeout.toNat) :
    (sysPoll kernel fds timeout numEvents).1 = none := by
  have hneg : timeout.toInt < 0 := BitVec.toInt_neg_iff.mpr (by omega)
  have hslt : timeout.slt 0 = true := BitVec.slt_iff_toInt_lt.mpr hneg
  exact if_pos hslt

/-- Any other is passed on to the nanosecond. -/
theorem sysPoll_timed (kernel : Option Timespec → Kernel) (fds : List PollFd)
    {timeout : BitVec 32} (numEvents : Int) (h : timeout.toNat < 2 ^ 31) :
    ∃ ts, (sysPoll kernel fds timeout numEvents).1 = some ts ∧ ts.Normal ∧
      ts.duration = timeout.toNat * 1000000 := by
  have hint : timeout.toInt = timeout.toNat := BitVec.toInt_eq_toNat_of_lt (by omega)
  have hslt : ¬ timeout.slt 0 = true := by
    rw [BitVec.slt_iff_toInt_lt, hint]
    exact Int.not_lt.mpr (Int.natCast_nonneg _)
  have hsec : (timeout.sdiv 1000).toInt = timeout.toNat / 1000 := by
    rw [BitVec.toInt_sdiv_of_ne_or_ne _ _ (.inr (by simp)), hint]
    exact Int.tdiv_eq_ediv_of_nonneg (Int.natCast_nonneg _)
  have hrem : (timeout.srem 1000).toInt = timeout.toNat % 1000 := by
    rw [BitVec.toInt_srem, hint]
    exact Int.tmod_eq_emod_of_nonneg (Int.natCast_nonneg _)
  have hnsec : (timeout.srem 1000 * 1000000).toInt = timeout.toNat % 1000 * 1000000 := by
    rw [BitVec.toInt_mul, hrem]
    change Int.bmod (_ * 1000000) _ = _
    rw [Int.bmod_eq_of_le (by omega) (by omega)]
  refine ⟨_, if_neg hslt, ⟨?_, ?_⟩, ?_⟩ <;>
    simp only [Timespec.duration, BitVec.toInt_signExtend_of_le (show 32 ≤ 64 by omega), hsec, hnsec]
  · omega
  · omega
  · omega

/-! ## The sum -/

theorem sysSleep_timeout (kernel : Option Timespec → Kernel) (d : Duration) :
    ∃ timeout : BitVec 32, timeout.toNat = d.millis % 2 ^ 32 ∧
      (sysSleep kernel (some (.ofNat 64 d.secs)) (some (.ofNat 64 d.nanos))).1 =
        (sysPoll kernel [] timeout 0).1 := by
  refine ⟨_, ?_, rfl⟩
  have hfits := d.fits
  have hnanos := d.nanosLt
  simp only [Option.getD_some, BitVec.toNat_setWidth, BitVec.toNat_add, BitVec.toNat_mul,
    BitVec.toNat_udiv, BitVec.ofNat_eq_ofNat, BitVec.toNat_ofNat, Duration.millis,
    Nat.reducePow, Nat.reduceMod]
  omega

/-- **When `sys_sleep` sleeps long enough.** Exactly when the duration is a whole
number of milliseconds, and that number fits an `int`. -/
theorem longEnough_iff (kernel : Option Timespec → Kernel) (d : Duration) :
    LongEnough d (sysSleep kernel (some (.ofNat 64 d.secs)) (some (.ofNat 64 d.nanos))).1 ↔
      d.nanos % 1000000 = 0 ∧ d.millis < 2 ^ 31 := by
  obtain ⟨timeout, hms, hcall⟩ := sysSleep_timeout kernel d
  rw [hcall]
  have htotal : d.total = d.millis * 1000000 + d.nanos % 1000000 := by
    unfold Duration.total Duration.millis
    omega
  have hle : timeout.toNat ≤ d.millis := hms ▸ Nat.mod_le _ _
  rcases Nat.lt_or_ge timeout.toNat (2 ^ 31) with hlt | hge
  · obtain ⟨ts, hts, hnormal, hdur⟩ := sysPoll_timed kernel [] 0 hlt
    rw [hts]
    constructor
    · rintro ⟨us, hus, -, hlong⟩
      rw [← Option.some.inj hus, hdur] at hlong
      omega
    · rintro ⟨hwhole, hint⟩
      have hsame : timeout.toNat = d.millis := hms.trans (Nat.mod_eq_of_lt (by omega))
      refine ⟨ts, rfl, hnormal, ?_⟩
      rw [hdur, htotal, hwhole, hsame]
      omega
  · rw [sysPoll_forever kernel [] 0 hge]
    refine iff_of_false (fun ⟨_, h, _⟩ => nomatch h) ?_
    rintro ⟨-, hint⟩
    exact absurd hint (Nat.not_lt.mpr (Nat.le_trans hge hle))

/-- A sleep of one nanosecond does not wait at all. -/
theorem nanosecond_too_short : ∃ kernel : Option Timespec → Kernel,
    ¬ LongEnough ⟨0, 1, by omega, by omega⟩ (sysSleep kernel (some 0) (some 1)).1 := by
  refine ⟨fun _ _ => .success 0 fun _ => 0, ?_⟩
  rintro ⟨ts, hts, -, hlong⟩
  cases hts
  exact absurd hlong (by decide)

end SalernOS.Sysdeps.Sleep
