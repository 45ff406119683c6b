import SalernOS.Sysdeps.Openpty

/-! # Whether the child of `forkpty` owns its terminal

`login_tty` gives up before the first `dup2` when the terminal cannot be made
the controlling one, and does not look at what `dup2` returns; `forkpty` does
not look at what `login_tty` returns.
-/
namespace SalernOS.Sysdeps.Forkpty
open SalernOS.Lib SalernOS.Libc SalernOS.Sysdeps.Openpty

/-- A process, and a pseudo-terminal that none of its descriptors stands for. -/
structure Setup where
  proc : Process
  ends : Ends
  fresh : ∀ fd f, proc.table.lookup fd = some f → f ≠ ends.master ∧ f ≠ ends.slave

/-- The standard descriptors are the slave, nothing else is an end of the
terminal, and the slave is the controlling terminal. -/
structure OwnsTerminal (e : Ends) (p : Process) : Prop where
  standard : ∀ fd < 3, p.table.lookup fd = some e.slave
  others : ∀ fd f, p.table.lookup fd = some f → f = e.master ∨ f = e.slave → fd < 3
  ctty : p.ctty = some e.slave

/-- What the child needs of the operating system when its ends have these
numbers: the terminal becomes the controlling one, each `dup2` onto another
descriptor than the slave succeeds, and `close` closes the ends that are not
standard descriptors. -/
structure Granted (os : Calls) (fds : Fd × Fd) : Prop where
  tiocsctty : os.tiocsctty = true
  dup2 : ∀ fd < 3, fd = fds.2 ∨ os.dup2 fd = true
  master : fds.1 < 3 ∨ os.close fds.1 = true
  slave : fds.2 < 3 ∨ os.close fds.2 = true

/-! ## The steps of the child -/

theorem lookup_close (os : Calls) (fd : Fd) (p : Process) (x : Fd) :
    (p.close os fd).table.lookup x =
      if x = fd ∧ os.close fd = true then none else p.table.lookup x := by
  unfold Process.close
  split
  · next h => simp only [Descriptors.lookup_erase_eq, h, and_true]
  · next h => rw [if_neg fun hx => h hx.2]

theorem lookup_dup2 (os : Calls) {fd : Fd} (target : Fd) {p : Process} {f : File}
    (h : p.table.lookup fd = some f) (x : Fd) : (p.dup2 os fd target).table.lookup x =
      if x = target ∧ os.dup2 target = true then some f else p.table.lookup x := by
  unfold Process.dup2
  rw [h]
  simp only
  split
  · next hd => simp only [Process.install, Descriptors.lookup_insert_eq, hd, and_true]
  · next hd => rw [if_neg fun hx => hd hx.2]

theorem lookup_dup2_self (os : Calls) {fd : Fd} (target : Fd) {p : Process} {f : File}
    (h : p.table.lookup fd = some f) : (p.dup2 os fd target).table.lookup fd = some f := by
  rw [lookup_dup2 os target h, h, ite_self]

theorem ctty_dup2 (os : Calls) (fd target : Fd) (p : Process) :
    (p.dup2 os fd target).ctty = p.ctty := by
  unfold Process.dup2
  split
  · split <;> rfl
  · rfl

theorem ctty_close (os : Calls) (fd : Fd) (p : Process) : (p.close os fd).ctty = p.ctty := by
  unfold Process.close
  split <;> rfl

/-- The three calls of `dup2`. -/
theorem lookup_standard (os : Calls) {fd : Fd} {p : Process} {f : File}
    (h : p.table.lookup fd = some f) (x : Fd) :
    (((p.dup2 os fd 0).dup2 os fd 1).dup2 os fd 2).table.lookup x =
      if x < 3 ∧ os.dup2 x = true then some f else p.table.lookup x := by
  have h₀ := lookup_dup2_self os 0 h
  have h₁ := lookup_dup2_self os 1 h₀
  rw [lookup_dup2 os 2 h₁, lookup_dup2 os 1 h₀, lookup_dup2 os 0 h]
  match x with
  | 0 => simp
  | 1 => simp
  | 2 => simp
  | x + 3 => simp

/-- `login_tty` on a terminal that can be made the controlling one. -/
theorem loginTty_granted {os : Calls} {fd : Fd} {p : Process} {f : File}
    (h : p.table.lookup fd = some f) (hctty : os.tiocsctty = true) :
    (loginTty os fd p).2.ctty = some f ∧
    ∀ x, (loginTty os fd p).2.table.lookup x =
      if x = fd ∧ 3 ≤ fd ∧ os.close fd = true then none
      else if x < 3 ∧ os.dup2 x = true then some f else p.table.lookup x := by
  obtain ⟨q, hq, hlogin⟩ : ∃ q : Process, q.table = p.table ∧ (loginTty os fd p).2 =
      let r := (((({ q with ctty := p.table.lookup fd } : Process).dup2 os fd 0).dup2
        os fd 1).dup2 os fd 2)
      if fd > 2 then r.close os fd else r := by
    unfold loginTty tcsetsid
    rw [hctty]
    cases os.setsid with
    | some s => exact ⟨_, rfl, rfl⟩
    | none => exact ⟨_, rfl, rfl⟩
  have hq' : ({ q with ctty := p.table.lookup fd } : Process).table.lookup fd = some f := by
    rw [← h, ← hq]
  have hlookup := lookup_standard os hq'
  rw [hlogin]
  by_cases hfd : fd > 2
  · simp only [if_pos hfd]
    refine ⟨by rw [ctty_close, ctty_dup2, ctty_dup2, ctty_dup2]; exact h, fun x => ?_⟩
    rw [lookup_close, hlookup, hq]
    simp only [show 3 ≤ fd from hfd, true_and]
  · simp only [if_neg hfd]
    refine ⟨by rw [ctty_dup2, ctty_dup2, ctty_dup2]; exact h, fun x => ?_⟩
    rw [hlookup, hq, if_neg (c := x = fd ∧ _) fun hx => hfd hx.2.1]

/-- `login_tty` on another terminal leaves the descriptors alone. -/
theorem loginTty_refused {os : Calls} (fd : Fd) (p : Process) (hctty : os.tiocsctty = false) :
    (loginTty os fd p).2.table = p.table := by
  unfold loginTty tcsetsid
  rw [hctty]
  cases os.setsid <;> rfl

/-! ## The child -/

section
variable {s : Setup} {os : Calls} {fds : Fd × Fd}

theorem Setup.lookup_ne (s : Setup) (x : Fd) :
    s.proc.table.lookup x ≠ some s.ends.master ∧ s.proc.table.lookup x ≠ some s.ends.slave :=
  ⟨fun h => (s.fresh x _ h).1 rfl, fun h => (s.fresh x _ h).2 rfl⟩

/-- The descriptors of the child when it calls `login_tty`: both ends are open,
and it has tried to close the master. -/
def AtLogin (s : Setup) (os : Calls) (fds : Fd × Fd) (p : Process) : Prop :=
  ∀ x, p.table.lookup x =
    if x = fds.2 then some s.ends.slave
    else if x = fds.1 then (if os.close fds.1 = true then none else some s.ends.master)
    else s.proc.table.lookup x

theorem atLogin_close (ho : os.opened s.ends s.proc.table = some fds) (settings : List Setting) :
    AtLogin s os fds (Process.close os fds.1
      ⟨both s.ends fds s.proc.table, s.proc.ctty, settings⟩) := by
  obtain ⟨-, -, hne⟩ := opened_free ho
  intro x
  rw [lookup_close]
  simp only [both, Descriptors.lookup_insert_eq]
  by_cases hs : x = fds.2
  · rw [if_neg fun h => hne (h.1.symm.trans hs), if_pos hs, if_pos hs]
  · rw [if_neg hs, if_neg hs]
    by_cases hm : x = fds.1
    · simp only [hm, true_and, if_true]
    · rw [if_neg fun h => hm h.1, if_neg hm, if_neg hm]

variable {p : Process}

theorem AtLogin.lookup_slave (h : AtLogin s os fds p) :
    p.table.lookup fds.2 = some s.ends.slave := by
  rw [h, if_pos rfl]

/-- Only one descriptor of the child is the slave. -/
theorem AtLogin.eq_slave (h : AtLogin s os fds p) {x : Fd}
    (hx : p.table.lookup x = some s.ends.slave) : x = fds.2 := by
  by_contra hxs
  rw [h, if_neg hxs] at hx
  split at hx
  · split at hx
    · cases hx
    · exact s.ends.ne (Option.some.inj hx)
  · exact (s.lookup_ne x).2 hx

/-- A terminal that cannot be made the controlling one leaves the child with at
most one standard descriptor on it. -/
theorem AtLogin.tiocsctty_of_owns (h : AtLogin s os fds p)
    (howns : OwnsTerminal s.ends (loginTty os fds.2 p).2) : os.tiocsctty = true := by
  by_contra hctty
  have hstd := howns.standard
  rw [loginTty_refused fds.2 p (Bool.eq_false_of_not_eq_true hctty)] at hstd
  have h₀ : 0 = fds.2 := h.eq_slave (hstd 0 (by decide))
  have h₁ : 1 = fds.2 := h.eq_slave (hstd 1 (by decide))
  exact Nat.zero_ne_one (h₀.trans h₁.symm)

theorem not_standard_closed (fds : Fd × Fd) {fd : Fd} (hfd : fd < 3) :
    ¬ (fd = fds.2 ∧ 3 ≤ fds.2 ∧ os.close fds.2 = true) := by
  rintro ⟨rfl, hle, -⟩
  exact Nat.not_le.mpr hfd hle

theorem AtLogin.granted_of_owns (h : AtLogin s os fds p) (hne : fds.1 ≠ fds.2)
    (howns : OwnsTerminal s.ends (loginTty os fds.2 p).2) : Granted os fds := by
  have hctty := h.tiocsctty_of_owns howns
  obtain ⟨-, hlogin⟩ := loginTty_granted h.lookup_slave hctty
  refine ⟨hctty, fun fd hfd => ?_, ?_, ?_⟩
  · have hstd := howns.standard fd hfd
    rw [hlogin, if_neg (not_standard_closed fds hfd)] at hstd
    split at hstd
    · next hdup => exact .inr hdup.2
    · exact .inl (h.eq_slave hstd)
  · by_contra hc
    rw [not_or] at hc
    have hm : (loginTty os fds.2 p).2.table.lookup fds.1 = some s.ends.master := by
      rw [hlogin, if_neg fun hx => hne hx.1, if_neg fun hx => hc.1 hx.1, h, if_neg hne,
        if_pos rfl, if_neg hc.2]
    exact hc.1 (howns.others _ _ hm (.inl rfl))
  · by_contra hc
    rw [not_or] at hc
    have hs : (loginTty os fds.2 p).2.table.lookup fds.2 = some s.ends.slave := by
      rw [hlogin, if_neg fun hx => hc.2 hx.2.2, if_neg fun hx => hc.1 hx.1, h.lookup_slave]
    exact hc.1 (howns.others _ _ hs (.inr rfl))

/-- No end of the terminal stays open above the standard descriptors. -/
theorem AtLogin.closed_above (h : AtLogin s os fds p) (hgranted : Granted os fds) {fd : Fd}
    {f : File} (hfd : ¬ fd < 3) (hf : (loginTty os fds.2 p).2.table.lookup fd = some f) :
    f ≠ s.ends.master ∧ f ≠ s.ends.slave := by
  obtain ⟨-, hlogin⟩ := loginTty_granted h.lookup_slave hgranted.tiocsctty
  rw [hlogin, if_neg (c := fd < 3 ∧ _) fun hx => hfd hx.1] at hf
  split at hf
  · cases hf
  · next hclosed =>
    rw [h] at hf
    split at hf
    · next hfs =>
      subst hfs
      exact absurd ⟨rfl, Nat.le_of_not_lt hfd, hgranted.slave.resolve_left hfd⟩ hclosed
    · split at hf
      · next hfm =>
        subst hfm
        rw [if_pos (hgranted.master.resolve_left hfd)] at hf
        cases hf
      · exact s.fresh fd f hf

theorem AtLogin.owns_of_granted (h : AtLogin s os fds p) (hgranted : Granted os fds) :
    OwnsTerminal s.ends (loginTty os fds.2 p).2 := by
  obtain ⟨hterm, hlogin⟩ := loginTty_granted h.lookup_slave hgranted.tiocsctty
  refine ⟨fun fd hfd => ?_, fun fd f hf hend => ?_, hterm⟩
  · rw [hlogin, if_neg (not_standard_closed fds hfd)]
    split
    · rfl
    · next hdup =>
      obtain rfl := (hgranted.dup2 fd hfd).resolve_right fun hd => hdup ⟨hfd, hd⟩
      exact h.lookup_slave
  · by_contra hfd
    obtain ⟨hm, hs⟩ := h.closed_above hgranted hfd hf
    exact hend.elim hm hs

/-- The child owns its terminal exactly when it is granted what it needs. -/
theorem child_owns_iff (ho : os.opened s.ends s.proc.table = some fds) (settings : List Setting) :
    OwnsTerminal s.ends (loginTty os fds.2 (Process.close os fds.1
        ⟨both s.ends fds s.proc.table, s.proc.ctty, settings⟩)).2 ↔ Granted os fds := by
  have hchild := atLogin_close ho settings
  obtain ⟨-, -, hne⟩ := opened_free ho
  exact ⟨hchild.granted_of_owns hne, hchild.owns_of_granted⟩

end

/-- **When the child owns its terminal.** Exactly when, if both ends are opened
and this is the child, it is granted what it needs. -/
theorem owns_terminal_iff (os : Calls) (s : Setup) (termp winp : Option Bytes) (locals : Fd × Fd)
    (outs : Outs) :
    let r := forkpty os s.ends termp winp locals outs s.proc
    (r.ret = 0 → OwnsTerminal s.ends r.proc) ↔
      (os.fork = .child → ∀ fds, os.opened s.ends s.proc.table = some fds → Granted os fds) := by
  simp only
  cases ho : os.opened s.ends s.proc.table with
  | none =>
    have h := openpty_spec os s.ends termp winp ⟨locals.1, locals.2, outs.name⟩ s.proc
    rw [ho] at h
    obtain ⟨q, hq, -⟩ := h
    unfold forkpty
    rw [hq]
    exact iff_of_true nofun fun _ => nofun
  | some fds =>
    obtain ⟨name, settings, hq⟩ := forkpty_opened termp winp locals outs ho
    rw [hq]
    cases os.fork with
    | failed => exact iff_of_true nofun nofun
    | parent pid pos =>
      exact iff_of_true (fun h => absurd (Int.natCast_eq_zero.mp h) (Nat.ne_of_gt pos)) nofun
    | child =>
      simp only [forall_const, Option.some.injEq, forall_eq']
      exact child_owns_iff ho settings

/-- A process without descriptors opens a terminal that cannot be made the
controlling one. -/
def refused : Calls where
  posixOpenpt := Descriptors.lowest
  grantpt := true
  unlockpt := true
  ptsname := some (ascii "/dev/pts/0")
  openSlave := Descriptors.lowest
  fork := .child
  setsid := some 2
  getsid := 2
  tiocsctty := false
  dup2 := fun _ => true
  close := fun _ => true

def bare : Setup := ⟨⟨∅, none, []⟩, ⟨1, 2, by decide⟩, nofun⟩

/-- `forkpty` returns zero in the child, with no descriptor 0. -/
theorem refused_not_owned :
    let r := forkpty refused bare.ends none none (0, 0) ⟨0, 0, none⟩ bare.proc
    ¬ (r.ret = 0 → OwnsTerminal bare.ends r.proc) := by
  obtain ⟨fds, ho⟩ : ∃ fds, refused.opened bare.ends bare.proc.table = some fds := ⟨_, rfl⟩
  obtain ⟨name, settings, hq⟩ := forkpty_opened none none (0, 0) ⟨0, 0, none⟩ ho
  intro r h
  have howns : OwnsTerminal bare.ends r.proc := h (by rw [show r = _ from hq]; rfl)
  rw [show r = _ from hq] at howns
  cases ((child_owns_iff ho settings).mp howns).tiocsctty

end SalernOS.Sysdeps.Forkpty
