import SalernOS.Lib.BitSet
import SalernOS.Sysdeps.Syscall

/-! # `sys_ppoll` and `sys_pselect` of `mlibc-salernos/sysdeps/generic/generic.cpp`

`select` is answered by one call of `PPOLL`. The sets of the caller become an
array of requests, and what the kernel reports becomes the sets again.
-/
namespace SalernOS.Sysdeps.Select
open SalernOS.Lib

/-! ## Sets of descriptors -/

def fdSetsize : Nat := 1024

abbrev FdSet := BitVec fdSetsize

/-- `FD_ISSET(i, set)`. -/
def fdIsset (i : Nat) (set : FdSet) : Bool := set.getLsbD i

/-- `FD_SET(i, &set)`. -/
def fdSet (i : Nat) (set : FdSet) : FdSet := set ||| BitVec.twoPow fdSetsize i

theorem fdIsset_fdSet {i : Nat} (h : i < fdSetsize) (set : FdSet) :
    fdIsset i (fdSet i set) = true := by
  simp [fdIsset, fdSet, h]

/-- `set && FD_ISSET(i, set)`. -/
def wants (set : Option FdSet) (i : Nat) : Bool := set.any (fdIsset i)

/-- An `nfds` that `select` takes. -/
abbrev Nfds := Fin (fdSetsize + 1)

/-! ## `poll` -/

def pollin : BitVec 16 := 0x0001
def pollpri : BitVec 16 := 0x0002
def pollout : BitVec 16 := 0x0004
def pollerr : BitVec 16 := 0x0008
def pollhup : BitVec 16 := 0x0010
def pollnval : BitVec 16 := 0x0020

def enomem : Int := 12

structure PollFd where
  fd : Int
  events : BitVec 16
  revents : BitVec 16
deriving DecidableEq, Repr

/-- The kernel's side of `PPOLL`: it stores the `revents`, by index. -/
abbrev Kernel := List PollFd → Reply (Nat → BitVec 16)

/-- `sys_ppoll`: its result, `*num_events`, and the `revents` behind the call. -/
def sysPpoll (kernel : Kernel) (fds : List PollFd) (numEvents : Int) :
    Int × Int × (Nat → BitVec 16) :=
  let reply := kernel fds
  let revents := reply.store fun i => (fds[i]?.map PollFd.revents).getD 0
  let ret := reply.regs
  if ret.errno ≠ 0 then (cint ret.errno, numEvents, revents) else (0, cint ret.ret, revents)

/-! ## `select` -/

/-- The memory of the caller: its sets, of which any may be `NULL`, and
`*num_events`. -/
structure Caller where
  readSet : Option FdSet
  writeSet : Option FdSet
  exceptSet : Option FdSet
  numEvents : Int

/-- The first loop, for one descriptor. -/
def request (c : Caller) (i : Nat) : PollFd :=
  let fd : PollFd := ⟨0, 0, 0⟩
  let fd := if wants c.readSet i then { fd with events := fd.events ||| pollin } else fd
  let fd := if wants c.writeSet i then { fd with events := fd.events ||| pollout } else fd
  let fd := if wants c.exceptSet i then { fd with events := fd.events ||| pollpri } else fd
  if fd.events = 0 then { fd with fd := -1 } else { fd with fd := i }

/-- The array that `PPOLL` is called with. -/
def requests (nfds : Nfds) (c : Caller) : List PollFd := (List.range nfds).map (request c)

structure Results where
  readSet : FdSet
  writeSet : FdSet
  exceptSet : FdSet

/-- What lets a descriptor into the read, the write and the except set. -/
def readable (c : Caller) (revents : Nat → BitVec 16) (i : Nat) : Bool :=
  wants c.readSet i && revents i &&& (pollin ||| pollerr ||| pollhup) != 0
def writable (c : Caller) (revents : Nat → BitVec 16) (i : Nat) : Bool :=
  wants c.writeSet i && revents i &&& (pollout ||| pollerr ||| pollhup) != 0
def exceptional (c : Caller) (revents : Nat → BitVec 16) (i : Nat) : Bool :=
  wants c.exceptSet i && revents i &&& pollpri != 0

/-- The second loop, for one descriptor. -/
def collect (c : Caller) (revents : Nat → BitVec 16) (res : Results) (i : Nat) : Results :=
  let res := if readable c revents i then { res with readSet := fdSet i res.readSet } else res
  let res := if writable c revents i then { res with writeSet := fdSet i res.writeSet } else res
  if exceptional c revents i then { res with exceptSet := fdSet i res.exceptSet } else res

/-- A call of `sys_pselect`: its result, the memory of the caller behind it, and
the array that it passed to `PPOLL`, if it did. -/
structure Call where
  ret : Int
  caller : Caller
  polled : Option (List PollFd)

def sysPselect (callocOk : Bool) (kernel : Kernel) (nfds : Nfds) (c : Caller) : Call :=
  if !callocOk then ⟨enomem, c, none⟩
  else
    let fds := requests nfds c
    let (ret, numEvents, revents) := sysPpoll kernel fds c.numEvents
    if ret ≠ 0 then ⟨ret, { c with numEvents := numEvents }, some fds⟩
    else
      let res := (List.range nfds).foldl (collect c revents) ⟨0, 0, 0⟩
      ⟨0, ⟨c.readSet.map fun _ => res.readSet, c.writeSet.map fun _ => res.writeSet,
        c.exceptSet.map fun _ => res.exceptSet, numEvents⟩, some fds⟩

/-! ## What is asked for, and what is returned -/

/-- The mask of events that a set asks for or is satisfied by. -/
def meets (events mask : BitVec 16) : Bool := events &&& mask != 0

/-- The array asks for what the sets hold, and for nothing else. -/
structure Asks (nfds : Nfds) (c : Caller) (fds : List PollFd) : Prop where
  length : fds.length = nfds
  read : ∀ (i : Nat) (fd : PollFd), fds[i]? = some fd → meets fd.events pollin = wants c.readSet i
  write : ∀ (i : Nat) (fd : PollFd), fds[i]? = some fd → meets fd.events pollout = wants c.writeSet i
  except : ∀ (i : Nat) (fd : PollFd), fds[i]? = some fd → meets fd.events pollpri = wants c.exceptSet i
  others : ∀ (i : Nat) (fd : PollFd), fds[i]? = some fd →
    fd.events &&& (pollin ||| pollout ||| pollpri) = fd.events
  ignored : ∀ (i : Nat) (fd : PollFd), fds[i]? = some fd →
    (fd.fd = -1 ↔ ¬ (wants c.readSet i ∨ wants c.writeSet i ∨ wants c.exceptSet i))
  descriptor : ∀ (i : Nat) (fd : PollFd), fds[i]? = some fd → fd.fd = -1 ∨ fd.fd = i

/-- The events that a descriptor is asked for. -/
def asked (read write except : Bool) : BitVec 16 :=
  (if read then pollin else 0) ||| (if write then pollout else 0) |||
    (if except then pollpri else 0)

theorem request_eq (c : Caller) (i : Nat) : request c i =
    ⟨if wants c.readSet i || wants c.writeSet i || wants c.exceptSet i then (i : Int) else -1,
      asked (wants c.readSet i) (wants c.writeSet i) (wants c.exceptSet i), 0⟩ := by
  unfold request
  cases wants c.readSet i <;> cases wants c.writeSet i <;> cases wants c.exceptSet i <;> rfl

theorem meets_asked : ∀ read write except : Bool,
    meets (asked read write except) pollin = read ∧
    meets (asked read write except) pollout = write ∧
    meets (asked read write except) pollpri = except ∧
    asked read write except &&& (pollin ||| pollout ||| pollpri) = asked read write except := by
  decide

theorem requests_getElem? {nfds : Nfds} {c : Caller} {i : Nat} {fd : PollFd}
    (h : (requests nfds c)[i]? = some fd) : fd = request c i := by
  rw [requests, List.getElem?_map] at h
  obtain ⟨j, hj, rfl⟩ := Option.map_eq_some_iff.mp h
  obtain ⟨hlt, rfl⟩ := List.getElem?_eq_some_iff.mp hj
  rw [List.getElem_range]

theorem requests_asks (nfds : Nfds) (c : Caller) : Asks nfds c (requests nfds c) := by
  refine ⟨by simp [requests], ?_, ?_, ?_, ?_, ?_, ?_⟩
  all_goals
    intro i fd h
    rw [requests_getElem? h, request_eq]
    obtain ⟨hread, hwrite, hexcept, hothers⟩ :=
      meets_asked (wants c.readSet i) (wants c.writeSet i) (wants c.exceptSet i)
  · exact hread
  · exact hwrite
  · exact hexcept
  · exact hothers
  · simp only [Bool.or_eq_true, or_assoc]
    split
    · next hw => exact iff_of_false (by omega) (not_not_intro hw)
    · next hw => exact iff_of_true rfl hw
  · simp only
    split
    · exact .inr rfl
    · exact .inl rfl

/-- The second loop sets the bits of each set on its own. -/
theorem foldl_collect (c : Caller) (revents : Nat → BitVec 16) (n : Nat) :
    (List.range n).foldl (collect c revents) ⟨0, 0, 0⟩ =
      ⟨setBits (readable c revents) n 0, setBits (writable c revents) n 0,
        setBits (exceptional c revents) n 0⟩ := by
  induction n with
  | zero => rfl
  | succ n ih =>
    rw [List.range_succ, List.foldl_append, ih]
    simp only [setBits, List.range_succ, List.foldl_append, List.foldl_cons, List.foldl_nil, collect,
      fdSet]
    split <;> split <;> split <;> rfl

/-- A set that was passed comes back with the descriptors below `nfds` that it
held and that one of the events was reported for. -/
structure Returned (nfds : Nfds) (revents : Nat → BitVec 16) (mask : BitVec 16)
    (old new : Option FdSet) : Prop where
  passed : new.isSome = old.isSome
  holds : ∀ i, wants new i = true ↔ i < nfds ∧ wants old i = true ∧ meets (revents i) mask = true

theorem returned_setBits {nfds : Nfds} {revents : Nat → BitVec 16} {mask : BitVec 16}
    {old : Option FdSet} {p : Nat → Bool} (hp : ∀ i, p i = (wants old i && meets (revents i) mask)) :
    Returned nfds revents mask old (old.map fun _ => setBits p nfds 0) := by
  refine ⟨Option.isSome_map .., fun i => ?_⟩
  cases old with
  | none => simp [wants]
  | some s =>
    have hlt : i < nfds → i < fdSetsize := fun h => Nat.lt_of_lt_of_le h (Nat.le_of_lt_succ nfds.isLt)
    change (setBits p nfds 0).getLsbD i = true ↔ _
    rw [getLsbD_setBits, hp, show (0 : FdSet).getLsbD i = false from BitVec.getLsbD_zero]
    simp only [Bool.false_or, Bool.and_eq_true, decide_eq_true_eq]
    exact ⟨fun ⟨⟨h, _⟩, h'⟩ => ⟨h, h'⟩, fun ⟨h, h'⟩ => ⟨⟨h, hlt h⟩, h'⟩⟩

theorem sysPselect_failure {kernel : Kernel} {nfds : Nfds} {c : Caller} {ret : BitVec 64}
    {e : Errno} (h : kernel (requests nfds c) = .failure ret e) :
    sysPselect true kernel nfds c = ⟨e.code.toNat, c, some (requests nfds c)⟩ := by
  have hpoll : sysPpoll kernel (requests nfds c) c.numEvents =
      (cint e.code, c.numEvents, fun i => ((requests nfds c)[i]?.map PollFd.revents).getD 0) := by
    unfold sysPpoll
    rw [h]
    exact if_pos (Reply.errno_failure ret e)
  unfold sysPselect
  rw [if_neg (by decide)]
  simp only [hpoll]
  rw [if_pos (Int.ne_of_gt e.cint_pos), cint_small e.small]

theorem sysPselect_success {kernel : Kernel} {nfds : Nfds} {c : Caller} {ret : BitVec 64}
    {revents : Nat → BitVec 16} (h : kernel (requests nfds c) = .success ret revents) :
    sysPselect true kernel nfds c =
      ⟨0, ⟨c.readSet.map fun _ => setBits (readable c revents) nfds 0,
        c.writeSet.map fun _ => setBits (writable c revents) nfds 0,
        c.exceptSet.map fun _ => setBits (exceptional c revents) nfds 0, cint ret⟩,
        some (requests nfds c)⟩ := by
  have hpoll : sysPpoll kernel (requests nfds c) c.numEvents = (0, cint ret, revents) := by
    unfold sysPpoll
    rw [h]
    rfl
  unfold sysPselect
  rw [if_neg (by decide)]
  simp only [hpoll]
  rw [if_neg (by decide), foldl_collect]

/-- **What `select` passes and returns.** Without memory nothing is polled;
otherwise the array asks for what the sets hold, a failure leaves the caller's
memory as it was, and a success leaves in each set what was reported for it. -/
theorem sysPselect_sets (callocOk : Bool) (kernel : Kernel) (nfds : Nfds) (c : Caller) :
    let call := sysPselect callocOk kernel nfds c
    match callocOk with
    | false => call.ret = enomem ∧ call.caller = c ∧ call.polled = none
    | true => ∃ fds, call.polled = some fds ∧ Asks nfds c fds ∧
      match kernel fds with
      | .failure _ e => call.ret = e.code.toNat ∧ call.caller = c
      | .success ret revents => call.ret = 0 ∧ call.caller.numEvents = cint ret ∧
        Returned nfds revents (pollin ||| pollerr ||| pollhup) c.readSet call.caller.readSet ∧
        Returned nfds revents (pollout ||| pollerr ||| pollhup) c.writeSet call.caller.writeSet ∧
        Returned nfds revents pollpri c.exceptSet call.caller.exceptSet := by
  cases callocOk with
  | false => exact ⟨rfl, rfl, rfl⟩
  | true =>
    cases h : kernel (requests nfds c) with
    | failure ret e =>
      rw [sysPselect_failure h]
      exact ⟨_, rfl, requests_asks nfds c, by rw [h]; exact ⟨rfl, rfl⟩⟩
    | success ret revents =>
      rw [sysPselect_success h]
      refine ⟨_, rfl, requests_asks nfds c, ?_⟩
      rw [h]
      exact ⟨rfl, rfl, returned_setBits fun _ => rfl, returned_setBits fun _ => rfl,
        returned_setBits fun _ => rfl⟩

end SalernOS.Sysdeps.Select
