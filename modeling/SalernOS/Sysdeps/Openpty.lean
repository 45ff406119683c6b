import SalernOS.Lib.Descriptors
import SalernOS.Libc.Text

/-! # `mlibc-salernos/sysdeps/generic/pty.cpp`

The helpers open and close descriptors of their process. Each call that they
make succeeds or fails as the operating system likes, and gets whatever free
number it gives.
-/
namespace SalernOS.Sysdeps.Openpty
open SalernOS.Lib SalernOS.Libc

abbrev Fd := Nat
abbrev File := Nat
abbrev Pid := Nat

/-- The two ends of a pseudo-terminal. -/
structure Ends where
  master : File
  slave : File
  ne : master ≠ slave

inductive Fork where
  | failed
  | child
  /-- The parent, with the pid of its child, which is not zero. -/
  | parent (pid : Pid) (pos : 0 < pid)

/-- How the operating system answers. `dup2` is told by its target; `close` says
whether the descriptor is gone behind it. -/
structure Calls where
  posixOpenpt : Opening File
  grantpt : Bool
  unlockpt : Bool
  ptsname : Option Bytes
  openSlave : Opening File
  fork : Fork
  setsid : Option Pid
  getsid : Pid
  tiocsctty : Bool
  dup2 : Fd → Bool
  close : Fd → Bool

inductive Setting where
  | tcsetattr (fd : Fd) (termp : Bytes)
  | tiocswinsz (fd : Fd) (winp : Bytes)
deriving DecidableEq, Repr

/-- What belongs to a process: its descriptors, the controlling terminal of its
session, and the settings it asked for. -/
structure Process where
  table : Descriptors File
  ctty : Option File
  settings : List Setting

/-- What the pointers of the caller point to; `name` may be `NULL`. -/
structure Outs where
  amaster : Fd
  aslave : Fd
  name : Option Bytes
deriving DecidableEq, Repr

structure Result where
  ret : Int
  outs : Outs
  proc : Process

namespace Process

def install (p : Process) (fd : Fd) (f : File) : Process := { p with table := p.table.insert fd f }

def close (os : Calls) (fd : Fd) (p : Process) : Process :=
  if os.close fd then { p with table := p.table.erase fd } else p

def dup2 (os : Calls) (fd target : Fd) (p : Process) : Process :=
  match p.table.lookup fd with
  | some f => if os.dup2 target then p.install target f else p
  | none => p

def set (p : Process) (s : Option Setting) : Process :=
  { p with settings := p.settings ++ s.toList }

end Process

/-- The `bad` label of `openpty`. -/
def bad (os : Calls) (master : Fd) (outs : Outs) (p : Process) : Result :=
  ⟨-1, outs, p.close os master⟩

def openpty (os : Calls) (e : Ends) (termp winp : Option Bytes) (outs : Outs) (p : Process) :
    Result :=
  match os.posixOpenpt p.table with
  | none => ⟨-1, outs, p⟩
  | some master =>
    let p := p.install master e.master
    if !os.grantpt then bad os master outs p
    else if !os.unlockpt then bad os master outs p
    else
      match os.ptsname with
      | none => bad os master outs p
      | some slavename =>
        match os.openSlave p.table with
        | none => bad os master outs p
        | some slave =>
          let p := p.install slave e.slave
          let p := p.set (termp.map (.tcsetattr slave))
          let p := p.set (winp.map (.tiocswinsz slave))
          ⟨0, ⟨master, slave, outs.name.map fun _ => slavename⟩, p⟩

/-- `tcsetsid`, which does not look at the pid. -/
def tcsetsid (os : Calls) (fd : Fd) (_pid : Pid) (p : Process) : Int × Process :=
  if os.tiocsctty then (0, { p with ctty := p.table.lookup fd }) else (-1, p)

def loginTty (os : Calls) (fd : Fd) (p : Process) : Int × Process :=
  let (s, p) :=
    match os.setsid with
    | some s => (s, { p with ctty := none })
    | none => (os.getsid, p)
  let (ret, p) := tcsetsid os fd s p
  if ret = -1 then (-1, p)
  else
    let p := ((p.dup2 os fd 0).dup2 os fd 1).dup2 os fd 2
    (0, if fd > 2 then p.close os fd else p)

/-- `forkpty`; `locals` is what the stack holds where `master` and `slave` are,
and `outs.aslave` is not used. -/
def forkpty (os : Calls) (e : Ends) (termp winp : Option Bytes) (locals : Fd × Fd) (outs : Outs)
    (p : Process) : Result :=
  let r := openpty os e termp winp ⟨locals.1, locals.2, outs.name⟩ p
  let outs := { outs with name := r.outs.name }
  let master := r.outs.amaster
  let slave := r.outs.aslave
  if r.ret = -1 then ⟨-1, outs, r.proc⟩
  else
    match os.fork with
    | .failed => ⟨-1, outs, (r.proc.close os master).close os slave⟩
    | .child => ⟨0, outs, (loginTty os slave (r.proc.close os master)).2⟩
    | .parent pid _ => ⟨pid, { outs with amaster := master }, r.proc.close os slave⟩

/-! ## Which descriptors are opened -/

/-- The numbers that the two ends get, if both are opened. -/
def Calls.opened (os : Calls) (e : Ends) (t : Descriptors File) : Option (Fd × Fd) :=
  match os.posixOpenpt t with
  | none => none
  | some master =>
    if os.grantpt && os.unlockpt && os.ptsname.isSome then
      (os.openSlave (t.insert master e.master)).map fun slave => (master.val, slave.val)
    else none

/-- The table with both ends. -/
def both (e : Ends) (fds : Fd × Fd) (t : Descriptors File) : Descriptors File :=
  (t.insert fds.1 e.master).insert fds.2 e.slave

theorem opened_free {os : Calls} {e : Ends} {t : Descriptors File} {fds : Fd × Fd}
    (h : os.opened e t = some fds) : fds.1 ∉ t ∧ fds.2 ∉ t ∧ fds.1 ≠ fds.2 := by
  unfold Calls.opened at h
  split at h
  · cases h
  · next master _ =>
    split at h
    · obtain ⟨⟨slave, hslave⟩, _, rfl⟩ := Option.map_eq_some_iff.mp h
      rw [Finmap.mem_insert, not_or] at hslave
      exact ⟨master.property, hslave.2, Ne.symm hslave.1⟩
    · cases h

/-- `openpty` opens both ends and stores them, or it fails. -/
theorem openpty_spec (os : Calls) (e : Ends) (termp winp : Option Bytes) (outs : Outs)
    (p : Process) : match os.opened e p.table with
      | some fds => ∃ name settings, openpty os e termp winp outs p =
          ⟨0, ⟨fds.1, fds.2, name⟩, ⟨both e fds p.table, p.ctty, settings⟩⟩
      | none => ∃ q, openpty os e termp winp outs p = ⟨-1, outs, q⟩ ∧
          ((∀ fd, os.close fd = true) → q = p) := by
  unfold openpty Calls.opened
  cases hm : os.posixOpenpt p.table with
  | none => exact ⟨p, rfl, fun _ => rfl⟩
  | some master =>
    have hbad : ∃ q, bad os master outs (p.install master e.master) = ⟨-1, outs, q⟩ ∧
        ((∀ fd, os.close fd = true) → q = p) := by
      refine ⟨_, rfl, fun hclose => ?_⟩
      simp only [Process.close, hclose, if_true, Process.install,
        Descriptors.erase_insert master.property]
    cases hg : os.grantpt with
    | false => exact hbad
    | true =>
      cases hu : os.unlockpt with
      | false => exact hbad
      | true =>
        cases hn : os.ptsname with
        | none => exact hbad
        | some slavename =>
          simp only [Process.install, Bool.not_true, Bool.false_eq_true, if_false, Bool.and_true,
            Option.isSome_some, if_true] at hbad ⊢
          cases hs : os.openSlave (p.table.insert master e.master) with
          | none => exact hbad
          | some slave => exact ⟨_, _, rfl⟩

/-! ## No descriptor is lost -/

/-- The same answers, from a system in which `close` closes. -/
def Calls.closing (os : Calls) : Calls := { os with close := fun _ => true }

/-- A failure leaves everything as it was, and a success leaves the two ends
where the caller was told. -/
structure OpenptyExact (outs : Outs) (t : Descriptors File) (e : Ends) (r : Result) : Prop where
  ret : r.ret = -1 ∨ r.ret = 0
  failed : r.ret = -1 → r.proc.table = t ∧ r.outs = outs
  done : r.ret = 0 → r.outs.amaster ∉ t ∧ r.outs.aslave ∉ t ∧ r.outs.amaster ≠ r.outs.aslave ∧
    r.proc.table = both e (r.outs.amaster, r.outs.aslave) t

/-- A failure leaves the table and `*amaster` as they were, and in the parent
the master is left where the caller was told. -/
structure ForkptyExact (outs : Outs) (t : Descriptors File) (e : Ends) (r : Result) : Prop where
  failed : r.ret = -1 → r.proc.table = t ∧ r.outs.amaster = outs.amaster
  parent : 0 < r.ret → r.outs.amaster ∉ t ∧ r.proc.table = t.insert r.outs.amaster e.master

theorem openpty_exact (os : Calls) (e : Ends) (termp winp : Option Bytes) (outs : Outs)
    (p : Process) :
    OpenptyExact outs p.table e (openpty os.closing e termp winp outs p) := by
  have h := openpty_spec os.closing e termp winp outs p
  cases ho : os.closing.opened e p.table with
  | none =>
    rw [ho] at h
    obtain ⟨q, hq, hp⟩ := h
    rw [hq, hp fun _ => rfl]
    exact ⟨.inl rfl, fun _ => ⟨rfl, rfl⟩, nofun⟩
  | some fds =>
    rw [ho] at h
    obtain ⟨name, settings, hq⟩ := h
    obtain ⟨hm, hs, hne⟩ := opened_free ho
    rw [hq]
    exact ⟨.inr rfl, nofun, fun _ => ⟨hm, hs, hne, rfl⟩⟩

/-- `forkpty` behind an `openpty` that has opened both ends. -/
theorem forkpty_opened {os : Calls} {e : Ends} (termp winp : Option Bytes) (locals : Fd × Fd)
    (outs : Outs) {p : Process} {fds : Fd × Fd} (h : os.opened e p.table = some fds) :
    ∃ name settings, forkpty os e termp winp locals outs p =
      let q : Process := ⟨both e fds p.table, p.ctty, settings⟩
      match os.fork with
      | .failed => ⟨-1, ⟨outs.amaster, outs.aslave, name⟩, (q.close os fds.1).close os fds.2⟩
      | .child => ⟨0, ⟨outs.amaster, outs.aslave, name⟩, (loginTty os fds.2 (q.close os fds.1)).2⟩
      | .parent pid _ => ⟨pid, ⟨fds.1, outs.aslave, name⟩, q.close os fds.2⟩ := by
  have hopen := openpty_spec os e termp winp ⟨locals.1, locals.2, outs.name⟩ p
  rw [h] at hopen
  obtain ⟨name, settings, hq⟩ := hopen
  refine ⟨name, settings, ?_⟩
  unfold forkpty
  rw [hq]
  exact if_neg (show ¬ (0 : Int) = -1 by decide)

theorem forkpty_exact (os : Calls) (e : Ends) (termp winp : Option Bytes) (locals : Fd × Fd)
    (outs : Outs) (p : Process) :
    ForkptyExact outs p.table e (forkpty os.closing e termp winp locals outs p) := by
  cases ho : os.closing.opened e p.table with
  | none =>
    have h := openpty_spec os.closing e termp winp ⟨locals.1, locals.2, outs.name⟩ p
    rw [ho] at h
    obtain ⟨q, hq, hp⟩ := h
    unfold forkpty
    rw [hq, hp fun _ => rfl]
    exact ⟨fun _ => ⟨rfl, rfl⟩, nofun⟩
  | some fds =>
    obtain ⟨name, settings, hq⟩ := forkpty_opened termp winp locals outs ho
    obtain ⟨hm, hs, hne⟩ := opened_free ho
    rw [hq]
    cases os.closing.fork with
    | failed =>
      refine ⟨fun _ => ⟨?_, rfl⟩, nofun⟩
      change ((both e fds p.table).erase fds.1).erase fds.2 = p.table
      rw [both, Descriptors.erase_insert_ne hne, Descriptors.erase_insert hm,
        Descriptors.erase_insert hs]
    | child => exact ⟨nofun, nofun⟩
    | parent pid pos =>
      have hs' : fds.2 ∉ p.table.insert fds.1 e.master :=
        fun h => (Finmap.mem_insert.mp h).elim (fun h => hne h.symm) hs
      refine ⟨nofun, fun _ => ⟨hm, ?_⟩⟩
      change (both e fds p.table).erase fds.2 = p.table.insert fds.1 e.master
      rw [both, Descriptors.erase_insert hs']

/-- **No descriptor is lost.** Whatever fails, a failure of either helper closes
what it opened, and a success leaves open what the caller was given. -/
theorem no_leak (os : Calls) (e : Ends) (termp winp : Option Bytes) (locals : Fd × Fd)
    (outs : Outs) (p : Process) :
    OpenptyExact outs p.table e (openpty os.closing e termp winp outs p) ∧
      ForkptyExact outs p.table e (forkpty os.closing e termp winp locals outs p) :=
  ⟨openpty_exact os e termp winp outs p, forkpty_exact os e termp winp locals outs p⟩

end SalernOS.Sysdeps.Openpty
