import SalernOS.Lib.Machine
import SalernOS.Sysdeps.Openpty

/-! # Programs that open many terminals

A terminal emulator calls `openpty` and `forkpty` again and again, closes what
it was given, and has other descriptors, which come and go in between. The calls
succeed or fail as the operating system likes, except that `close` closes.
-/
namespace SalernOS.Sysdeps.PtySession
open SalernOS.Lib SalernOS.Libc SalernOS.Sysdeps.Openpty

/-- A process, the descriptors that it was given for terminals and has not
closed, and those of the rest of it. -/
structure Session where
  proc : Process
  held : Descriptors File
  others : Descriptors File

namespace Session

def begin (p : Process) : Session := ⟨p, ∅, p.table⟩

inductive Act where
  | openpty (os : Calls) (e : Ends) (termp winp : Option Bytes) (outs : Outs)
  | forkpty (os : Calls) (e : Ends) (termp winp : Option Bytes) (locals : Fd × Fd) (outs : Outs)
  | close (fd : Fd)
  | otherOpens (opening : Opening File) (f : File)
  | otherCloses (fd : Fd)

/-- What the calls tell their caller is what it takes down. A child goes its own
way, and is not a state of this process. -/
def step (s : Session) : Act → Option Session
  | .openpty os e termp winp outs =>
    let r := Openpty.openpty os.closing e termp winp outs s.proc
    some { s with
      proc := r.proc
      held := if r.ret = 0 then both e (r.outs.amaster, r.outs.aslave) s.held else s.held }
  | .forkpty os e termp winp locals outs =>
    let r := Openpty.forkpty os.closing e termp winp locals outs s.proc
    if r.ret = 0 then none
    else some { s with
      proc := r.proc
      held := if 0 < r.ret then s.held.insert r.outs.amaster e.master else s.held }
  | .close fd =>
    if fd ∈ s.held then
      some { s with
        proc := { s.proc with table := s.proc.table.erase fd }
        held := s.held.erase fd }
    else none
  | .otherOpens opening f =>
    match opening s.proc.table with
    | none => some s
    | some fd => some { s with proc := s.proc.install fd f, others := s.others.insert fd f }
  | .otherCloses fd =>
    if fd ∈ s.others then
      some { s with
        proc := { s.proc with table := s.proc.table.erase fd }
        others := s.others.erase fd }
    else none

end Session

/-- One table is made of two that have no descriptor in common. -/
structure Splits (t held others : Descriptors File) : Prop where
  apart : ∀ fd ∈ held, fd ∉ others
  lookup : ∀ fd, t.lookup fd = (held.lookup fd).or (others.lookup fd)

variable {t held others : Descriptors File} {fd : Fd} {f : File}

theorem Splits.symm (h : Splits t held others) : Splits t others held where
  apart fd ho hh := h.apart fd hh ho
  lookup fd := by
    rw [h.lookup fd]
    cases hh : held.lookup fd with
    | none => rw [Option.none_or, Option.or_none]
    | some f =>
      have hnone : others.lookup fd = none :=
        Finmap.lookup_eq_none.mpr (h.apart fd (Finmap.mem_iff.mpr ⟨f, hh⟩))
      rw [hnone, Option.none_or, Option.or_none]

/-- What is free in the table is free in both parts. -/
theorem Splits.notMem (h : Splits t held others) (hfd : fd ∉ t) : fd ∉ held ∧ fd ∉ others := by
  have hnone := Finmap.lookup_eq_none.mpr hfd
  rw [h.lookup fd, Option.or_eq_none_iff] at hnone
  exact ⟨Finmap.lookup_eq_none.mp hnone.1, Finmap.lookup_eq_none.mp hnone.2⟩

theorem Splits.insert (h : Splits t held others) (hfd : fd ∉ t) (f : File) :
    Splits (t.insert fd f) (held.insert fd f) others where
  apart x hx := by
    rcases Finmap.mem_insert.mp hx with rfl | hx
    · exact (h.notMem hfd).2
    · exact h.apart x hx
  lookup x := by
    rw [Descriptors.lookup_insert_eq, Descriptors.lookup_insert_eq, h.lookup x]
    split <;> rfl

theorem Splits.erase (h : Splits t held others) (hfd : fd ∈ held) :
    Splits (t.erase fd) (held.erase fd) others where
  apart x hx := h.apart x (Finmap.mem_erase.mp hx).2
  lookup x := by
    rw [Descriptors.lookup_erase_eq, Descriptors.lookup_erase_eq, h.lookup x]
    split
    case isTrue hx =>
      subst hx
      rw [Finmap.lookup_eq_none.mpr (h.apart x hfd)]
      rfl
    case isFalse => rfl

theorem Splits.both (h : Splits t held others) {e : Ends} {fds : Fd × Fd} (hm : fds.1 ∉ t)
    (hs : fds.2 ∉ t) (hne : fds.1 ≠ fds.2) :
    Splits (both e fds t) (both e fds held) others :=
  (h.insert hm e.master).insert (fun hmem => (Finmap.mem_insert.mp hmem).elim (fun he => hne he.symm) hs)
    e.slave

/-- `forkpty` fails, or is in the child, or returns the pid of it. -/
theorem forkpty_ret (os : Calls) (e : Ends) (termp winp : Option Bytes) (locals : Fd × Fd)
    (outs : Outs) (p : Process) : let r := forkpty os e termp winp locals outs p
      r.ret = -1 ∨ r.ret = 0 ∨ 0 < r.ret := by
  unfold forkpty
  simp only
  split
  · exact .inl rfl
  · cases os.fork with
    | failed => exact .inl rfl
    | child => exact .inr (.inl rfl)
    | parent pid pos => exact .inr (.inr (Int.natCast_pos.mpr pos))

def Accounts (s : Session) : Prop := Splits s.proc.table s.held s.others

theorem step_accounts {s s' : Session} {a : Session.Act} (h : Accounts s)
    (hs : s.step a = some s') : Accounts s' := by
  cases a with
  | openpty os e termp winp outs =>
    obtain rfl := Option.some.inj hs
    have hexact := openpty_exact os e termp winp outs s.proc
    rcases hexact.ret with hret | hret
    · have ⟨htable, _⟩ := hexact.failed hret
      have hne : (openpty os.closing e termp winp outs s.proc).ret ≠ 0 := by rw [hret]; decide
      show Splits _ (if _ then _ else _) s.others
      rw [if_neg hne, htable]
      exact h
    · obtain ⟨hm, hsl, hne, htable⟩ := hexact.done hret
      show Splits _ (if _ then _ else _) s.others
      rw [if_pos hret, htable]
      exact h.both hm hsl hne
  | forkpty os e termp winp locals outs =>
    have hexact := forkpty_exact os e termp winp locals outs s.proc
    change (if _ then _ else _) = some s' at hs
    split at hs
    case isTrue => cases hs
    case isFalse hzero =>
      obtain rfl := Option.some.inj hs
      show Splits _ (if _ then _ else _) s.others
      rcases forkpty_ret os.closing e termp winp locals outs s.proc with hret | hret | hret
      · have ⟨htable, _⟩ := hexact.failed hret
        rw [if_neg (by rw [hret]; decide), htable]
        exact h
      · exact absurd hret hzero
      · obtain ⟨hm, htable⟩ := hexact.parent hret
        rw [if_pos hret, htable]
        exact h.insert hm e.master
  | close fd =>
    change (if _ then _ else _) = some s' at hs
    split at hs
    case isTrue hfd => obtain rfl := Option.some.inj hs; exact h.erase hfd
    case isFalse => cases hs
  | otherOpens opening f =>
    change (match opening s.proc.table with | none => _ | some fd => _) = some s' at hs
    split at hs
    · obtain rfl := Option.some.inj hs
      exact h
    · next fd _ =>
      obtain rfl := Option.some.inj hs
      exact (h.symm.insert fd.property f).symm
  | otherCloses fd =>
    change (if _ then _ else _) = some s' at hs
    split at hs
    case isTrue hfd => obtain rfl := Option.some.inj hs; exact (h.symm.erase hfd).symm
    case isFalse => cases hs

/-- **Descriptors are accounted for.** In whatever order terminals are opened and
closed, and whichever of the calls fail, the descriptors of the process are
those that it was given and has not closed, with the files that it was told, and
those of the rest of it; the two never meet. -/
theorem session_accounts (p : Process) (acts : List Session.Act) {s : Session}
    (h : runAll Session.step (.begin p) acts = some s) :
    Accounts s ∧ (s.held = ∅ → s.proc.table = s.others) := by
  have hstart : Accounts (.begin p) := ⟨fun fd hfd => absurd hfd Finmap.notMem_empty, fun fd => rfl⟩
  have haccounts : Accounts s :=
    (Reachable.start.runAll h).invariant hstart fun _ _ _ hi hs => step_accounts hi hs
  refine ⟨haccounts, fun hheld => Finmap.ext_lookup fun fd => ?_⟩
  rw [haccounts.lookup fd, hheld, Finmap.lookup_empty, Option.none_or]

/-- The number, if it is free. -/
def numbered (fd : Fd) : Opening File := fun t => if h : fd ∉ t then some ⟨fd, h⟩ else none

/-- Everything goes well. -/
def granting (master slave : Fd) : Calls where
  posixOpenpt := numbered master
  grantpt := true
  unlockpt := true
  ptsname := some [47]
  openSlave := numbered slave
  fork := .parent 9 (by decide)
  setsid := some 1
  getsid := 1
  tiocsctty := true
  dup2 _ := true
  close _ := true

def twoTerminals : List Session.Act :=
  [.openpty (granting 3 4) ⟨10, 11, by decide⟩ none none ⟨0, 0, none⟩, .otherOpens (numbered 5) 12,
    .forkpty (granting 6 7) ⟨13, 14, by decide⟩ none none (0, 0) ⟨0, 0, none⟩, .close 4]

theorem twoTerminals_accounts : ∃ s, runAll Session.step (.begin ⟨∅, none, []⟩) twoTerminals = some s ∧
    Accounts s ∧ (s.held = ∅ → s.proc.table = s.others) :=
  ⟨_, rfl, session_accounts ⟨∅, none, []⟩ twoTerminals rfl⟩

end SalernOS.Sysdeps.PtySession
