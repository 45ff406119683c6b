import Mathlib.Algebra.BigOperators.Group.List.Basic
import SalernOS.Sysdeps.Select

/-! # The number that `select` reports

`PPOLL` counts descriptors, and its count is passed on. The number of bits in
the sets that are returned is another one when a descriptor comes back in two
sets, or is reported for an event that no set takes.
-/
namespace SalernOS.Sysdeps.SelectCount
open SalernOS.Lib SalernOS.Sysdeps.Select

/-- What `PPOLL` may report: the events asked for and the three that need not
be, and nothing for an entry that is ignored. -/
structure Polled (fds : List PollFd) where
  revents : Nat → BitVec 16
  within : ∀ (i : Nat) (fd : PollFd), fds[i]? = some fd →
    revents i &&& (fd.events ||| pollerr ||| pollhup ||| pollnval) = revents i
  ignored : ∀ (i : Nat) (fd : PollFd), fds[i]? = some fd → fd.fd = -1 → revents i = 0

/-- `PPOLL` fails, or it returns how many entries it reports something for. -/
inductive Answer (fds : List PollFd) where
  | failure (ret : BitVec 64) (errno : Errno)
  | polled (p : Polled fds)

def Polled.reported {fds : List PollFd} (p : Polled fds) (i : Nat) : Bool := p.revents i != 0

def Polled.count {fds : List PollFd} (p : Polled fds) : Nat :=
  (List.range fds.length).countP p.reported

def Answer.reply {fds : List PollFd} : Answer fds → Reply (Nat → BitVec 16)
  | .failure ret errno => .failure ret errno
  | .polled p => .success (BitVec.ofNat 64 p.count) p.revents

/-- The number of bits in a set, if there is one. -/
def size : Option FdSet → Nat
  | none => 0
  | some s => bitCount s

/-- A `select` that succeeds has counted the bits that it returns. -/
def CountMatches (call : Call) : Prop :=
  call.ret = 0 → call.caller.numEvents =
    size call.caller.readSet + size call.caller.writeSet + size call.caller.exceptSet

/-- How many sets a descriptor is returned in. -/
def occurrences (c : Caller) (revents : Nat → BitVec 16) (i : Nat) : Nat :=
  (readable c revents i).toNat + (writable c revents i).toNat + (exceptional c revents i).toNat

/-- The descriptors that are reported and are returned in no set make up for
those that are returned in two sets, or in three. -/
def Balanced (nfds : Nfds) (c : Caller) : Answer (requests nfds c) → Prop
  | .failure _ _ => True
  | .polled p =>
    let occur := occurrences c p.revents
    (List.range nfds).countP (fun i => p.reported i && occur i == 0) =
      (List.range nfds).countP (fun i => occur i == 2) +
        2 * (List.range nfds).countP (fun i => occur i == 3)

/-! ## Counting -/

theorem size_setBits (nfds : Nfds) {old : Option FdSet} {p : Nat → Bool}
    (hp : ∀ i, p i = true → wants old i = true) :
    size (old.map fun _ => setBits p nfds 0) = (List.range nfds).countP p := by
  cases old with
  | none =>
    refine (List.countP_eq_zero.mpr fun i _ hi => ?_).symm
    cases hp i hi
  | some s =>
    refine bitCount_eq (Nat.le_of_lt_succ nfds.isLt) fun j hj => ?_
    rw [getLsbD_setBits, show (0 : FdSet).getLsbD j = false from BitVec.getLsbD_zero,
      decide_eq_true hj]
    simp

theorem reported_of_meets {revents mask : BitVec 16} (h : (revents &&& mask != 0) = true) :
    (revents != 0) = true := by
  rw [bne_iff_ne] at h ⊢
  intro h0
  rw [h0] at h
  exact h BitVec.zero_and

theorem occurrences_le (c : Caller) (revents : Nat → BitVec 16) (i : Nat) :
    occurrences c revents i ≤ 3 ∧ (0 < occurrences c revents i → (revents i != 0) = true) := by
  unfold occurrences
  refine ⟨?_, fun hpos => ?_⟩
  · cases readable c revents i <;> cases writable c revents i <;>
      cases exceptional c revents i <;> decide
  · by_cases hr : readable c revents i = true
    · exact reported_of_meets (Bool.and_eq_true _ _ ▸ hr).2
    by_cases hw : writable c revents i = true
    · exact reported_of_meets (Bool.and_eq_true _ _ ▸ hw).2
    by_cases he : exceptional c revents i = true
    · exact reported_of_meets (Bool.and_eq_true _ _ ▸ he).2
    · simp [hr, hw, he] at hpos

/-- The bits that are returned, descriptor by descriptor. -/
theorem sum_occurrences_eq (c : Caller) (revents : Nat → BitVec 16) (l : List Nat) :
    (l.map (occurrences c revents)).sum = l.countP (readable c revents) +
      l.countP (writable c revents) + l.countP (exceptional c revents) := by
  rw [← sum_toNat, ← sum_toNat, ← sum_toNat, ← List.sum_map_add, ← List.sum_map_add]
  rfl

theorem Polled.count_eq {nfds : Nfds} {c : Caller} (p : Polled (requests nfds c)) :
    p.count = (List.range nfds).countP p.reported := by
  rw [Polled.count, (requests_asks nfds c).length]

/-- The count comes through the registers as it is. -/
theorem Polled.cint_count {nfds : Nfds} {c : Caller} (p : Polled (requests nfds c)) :
    cint (BitVec.ofNat 64 p.count) = p.count := by
  have hle : p.count ≤ fdSetsize := by
    rw [p.count_eq]
    refine Nat.le_trans List.countP_le_length ?_
    rw [List.length_range]
    exact Nat.le_of_lt_succ nfds.isLt
  have hnat : (BitVec.ofNat 64 p.count).toNat = p.count := by
    rw [BitVec.toNat_ofNat]
    exact Nat.mod_eq_of_lt (Nat.lt_of_le_of_lt hle (by decide))
  rw [cint_small, hnat]
  rw [hnat]
  exact Nat.lt_of_le_of_lt hle (by decide)

/-- The descriptors that are reported against the bits that are returned. -/
theorem countMatches_polled {nfds : Nfds} {c : Caller} (p : Polled (requests nfds c)) :
    CountMatches (sysPselect true (fun _ => (Answer.polled p).reply) nfds c) ↔
      (List.range nfds).countP p.reported =
        ((List.range nfds).map (occurrences c p.revents)).sum := by
  have hk : (fun _ => (Answer.polled p).reply : Kernel) (requests nfds c) =
      .success (BitVec.ofNat 64 p.count) p.revents := rfl
  have hread : size (c.readSet.map fun _ => setBits (readable c p.revents) nfds 0) = _ :=
    size_setBits nfds fun i hi => (Bool.and_eq_true _ _ ▸ hi).1
  have hwrite : size (c.writeSet.map fun _ => setBits (writable c p.revents) nfds 0) = _ :=
    size_setBits nfds fun i hi => (Bool.and_eq_true _ _ ▸ hi).1
  have hexcept : size (c.exceptSet.map fun _ => setBits (exceptional c p.revents) nfds 0) = _ :=
    size_setBits nfds fun i hi => (Bool.and_eq_true _ _ ▸ hi).1
  rw [sysPselect_success hk, CountMatches, hread, hwrite, hexcept, p.cint_count, p.count_eq,
    sum_occurrences_eq]
  simp only [forall_const]
  exact_mod_cast Iff.rfl

/-- **When the count is right.** Exactly when `select` fails, or the descriptors
that are missed and those that are returned more than once balance. -/
theorem countMatches_iff (callocOk : Bool) (nfds : Nfds) (c : Caller)
    (a : Answer (requests nfds c)) :
    CountMatches (sysPselect callocOk (fun _ => a.reply) nfds c) ↔
      callocOk = false ∨ Balanced nfds c a := by
  cases callocOk with
  | false => exact iff_of_true (fun h : enomem = 0 => absurd h (by decide)) (.inl rfl)
  | true =>
    rw [or_iff_right (by simp)]
    cases a with
    | failure ret e =>
      have hk : (fun _ => (Answer.failure ret e : Answer (requests nfds c)).reply : Kernel)
          (requests nfds c) = .failure ret e := rfl
      rw [sysPselect_failure hk]
      refine iff_of_true (fun h => ?_) trivial
      have := e.pos
      simp only at h
      omega
    | polled p =>
      have htally := sum_occurrences (occurrences c p.revents) p.reported (List.range nfds)
        fun i _ => occurrences_le c p.revents i
      rw [countMatches_polled]
      unfold Balanced
      simp only
      omega

/-- Descriptor 0, to be read and to be written. -/
def readWrite : Caller := ⟨some (fdSet 0 0), some (fdSet 0 0), none, 0⟩

theorem wants_readWrite : wants readWrite.readSet 0 = true ∧ wants readWrite.writeSet 0 = true := by
  have h : fdIsset 0 (fdSet 0 0) = true := fdIsset_fdSet (by decide) 0
  simp only [wants, readWrite, Option.any_some, h, and_self]

theorem request_readWrite {i : Nat} {fd : PollFd} (h : (requests 1 readWrite)[i]? = some fd) :
    i = 0 ∧ fd = ⟨0, pollin ||| pollout, 0⟩ := by
  obtain ⟨hi, -⟩ := List.getElem?_eq_some_iff.mp h
  rw [(requests_asks 1 readWrite).length] at hi
  obtain rfl : i = 0 := Nat.lt_one_iff.mp hi
  refine ⟨rfl, ?_⟩
  rw [requests_getElem? h, request_eq, wants_readWrite.1, wants_readWrite.2]
  rfl

/-- Descriptor 0 can be read and can be written. -/
def bothReady : Polled (requests 1 readWrite) where
  revents := fun _ => pollin ||| pollout
  within := by
    intro i fd h
    rw [(request_readWrite h).2]
    decide
  ignored := by
    intro i fd h hfd
    rw [(request_readWrite h).2] at hfd
    cases hfd

/-- One descriptor is counted, and two bits are returned. -/
theorem bothReady_miscounted : ¬ CountMatches
    (sysPselect true (fun _ => (Answer.polled bothReady).reply) 1 readWrite) := by
  intro h
  have hread : readable readWrite bothReady.revents 0 = true := by
    rw [readable, wants_readWrite.1]; rfl
  have hwrite : writable readWrite bothReady.revents 0 = true := by
    rw [writable, wants_readWrite.2]; rfl
  have hreported : bothReady.reported 0 = true := rfl
  rw [countMatches_polled] at h
  change (List.range 1).countP _ = ((List.range 1).map _).sum at h
  simp [hreported, occurrences, hread, hwrite] at h
  omega

end SalernOS.Sysdeps.SelectCount
