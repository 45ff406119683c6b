import SalernOS.Init.Barrier
import SalernOS.Init.Boot
import SalernOS.Lib.Descriptors

/-! # The descriptors of a child at `execv`

`main` keeps the configuration file open while it runs `interpret_config`, a
child starts with a copy of the descriptors of init, and its branch of `cb_tty`
opens the terminal and copies it to the standard descriptors.
-/
namespace SalernOS.Init.ExecDescriptors
open SalernOS.Lib SalernOS.Libc SalernOS.Init.Parse SalernOS.Init.Interpreter
open SalernOS.Init.Meaning SalernOS.Init.Processes SalernOS.Init.Barrier SalernOS.Init.Boot

/-! ## Init -/

/-- What a descriptor stands for: something init was started with, the
configuration, or the terminal that a child opened. -/
inductive File where
  | inherited (n : Nat)
  | config
  | tty (pid : Pid)
deriving DecidableEq, Repr

/-- What the operating system answers where descriptors are opened or copied;
`dup2` is told by its target. -/
structure Kernel where
  fopen : Opening File
  openTty : Pid → Opening File
  dup2 : Pid → Nat → Bool

/-- The descriptors that init is started with. -/
structure Initial where
  table : Descriptors File
  inherited : ∀ fd f, table.lookup fd = some f → ∃ n, f = .inherited n

def Initial.none : Initial := ⟨∅, nofun⟩

/-- One more descriptor. -/
def Initial.add (t : Initial) (fd n : Nat) : Initial where
  table := t.table.insert fd (File.inherited n)
  inherited := fun x f h => by
    rw [Descriptors.lookup_insert_eq] at h
    split at h
    · exact ⟨n, (Option.some.inj h).symm⟩
    · exact t.inherited x f h

/-- `fopen(INIT_CONF_PATH, "r")` got the number `fd`. -/
def withConfig (t : Descriptors File) (fd : Nat) : Descriptors File := t.insert fd File.config

/-- `main` up to its call of `interpret_config`, if it gets there: its
descriptors, and the directives. -/
def boot (k : Kernel) (w : Outside) (t : Descriptors File) :
    Except Fault (Descriptors File × Option (List Directive)) := do
  let some file := w.file | return (t, none)
  let some fd := k.fopen t | return (t, none)
  let t := withConfig t fd
  if !w.mallocOk then return (t.erase fd, none)
  match ← parse w file with
  | ((.err, _), _) => return (t.erase fd, none)
  | ((.ok, directives), _) => return (t, some directives.elems)

/-- It is with these directives that `main` calls `interpret_config`. -/
theorem main_boot (k : Kernel) (w : Outside) (t : Descriptors File)
    (h : w.file.isSome = (k.fopen t).isSome) :
    (main w).map Exit.ran = (boot k w t).bind fun r =>
      match r.2 with
      | none => .ok none
      | some ds => (interpretConfig w.sigactionOk w.os ds (State.start w.env)).map some := by
  unfold main boot
  cases hfile : w.file with
  | none => rfl
  | some file =>
    rw [hfile] at h
    obtain ⟨fd, hfd⟩ := Option.isSome_iff_exists.mp h.symm
    rw [hfd]
    cases w.mallocOk with
    | false => rfl
    | true =>
      change (Except.bind (parse w file) _).map _ = Except.bind (Except.bind (parse w file) _) _
      rcases parse w file with f | ⟨⟨_ | _, ds⟩, heap⟩
      · rfl
      · change (Except.bind (interpretConfig _ _ _ _) _).map _ = (interpretConfig _ _ _ _).map _
        rcases interpretConfig w.sigactionOk w.os ds.elems (State.start w.env) with
          f | ⟨(_ | _) | _, s⟩ <;> rfl
      · rfl

/-! ## The children -/

/-- The descriptors of a child, and its `tty_fd`. -/
structure ChildFds where
  table : Descriptors File
  ttyFd : Nat

/-- The next statement of a child. -/
def ChildFds.step (k : Kernel) (pid : Pid) (phase : Phase) (c : ChildFds) : ChildFds :=
  match phase with
  | .opening =>
    match k.openTty pid c.table with
    | some fd => ⟨c.table.insert fd (File.tty pid), fd⟩
    | none => c
  | .dupStdout => { c with table := c.table.dup2 (k.dup2 pid 1) c.ttyFd 1 }
  | .dupStdin => { c with table := c.table.dup2 (k.dup2 pid 0) c.ttyFd 0 }
  | .dupStderr => { c with table := c.table.dup2 (k.dup2 pid 2) c.ttyFd 2 }
  | _ => c

/-- Init and its children with their descriptors. -/
structure System where
  sys : Sys
  table : Descriptors File
  fds : Pid → ChildFds

def System.start (env : Env) (ds : List Directive) (t : Descriptors File) : System :=
  ⟨Sys.start env ds, t, fun _ => ⟨∅, 0⟩⟩

/-- `open` succeeds where it finds a free number. -/
def System.answer (k : Kernel) (s : System) (p : Proc) (ok : Bool) : Bool :=
  if p.phase = .opening then (k.openTty p.pid (s.fds p.pid).table).isSome else ok

/-- The parent itself opens and closes nothing. A process that was not there
before has a copy of its descriptors. -/
def System.inherit (s : System) (pid : Pid) : ChildFds :=
  if pid ∈ s.sys.pids then s.fds pid else ⟨s.table, 0⟩

def System.step (k : Kernel) (sigactionOk : Bool) (os : Nat → OsReply) (s : System) :
    Act → Option System
  | .parent => (s.sys.step sigactionOk os .parent).map fun t => ⟨t, s.table, s.inherit⟩
  | .child pid ok =>
    match s.sys.procs.find? fun p => p.pid = pid with
    | none => none
    | some p => (s.sys.step sigactionOk os (.child pid (s.answer k p ok))).map fun t =>
      ⟨t, s.table, Function.update s.fds pid ((s.fds pid).step k pid p.phase)⟩
  | .deliver pid => (s.sys.step sigactionOk os (.deliver pid)).map fun t => { s with sys := t }

/-- Each step is one of the processes. -/
theorem System.step_sys {k : Kernel} {sigactionOk : Bool} {os : Nat → OsReply} {s t : System}
    {a : Act} (h : s.step k sigactionOk os a = some t) :
    ∃ b, s.sys.step sigactionOk os b = some t.sys := by
  unfold System.step at h
  cases a with
  | parent =>
    obtain ⟨u, hu, rfl⟩ := Option.map_eq_some_iff.mp h
    exact ⟨_, hu⟩
  | child pid ok =>
    simp only at h
    split at h
    · cases h
    · obtain ⟨u, hu, rfl⟩ := Option.map_eq_some_iff.mp h
      exact ⟨_, hu⟩
  | deliver pid =>
    obtain ⟨u, hu, rfl⟩ := Option.map_eq_some_iff.mp h
    exact ⟨_, hu⟩

theorem System.reachable_sys {k : Kernel} {sigactionOk : Bool} {os : Nat → OsReply} {env : Env}
    {ds : List Directive} {t : Descriptors File} {s : System}
    (h : Reachable (System.step k sigactionOk os) (System.start env ds t) s) :
    Reachable (Sys.step sigactionOk os) (Sys.start env ds) s.sys := by
  induction h with
  | start => exact .start
  | next a _ hs ih =>
    obtain ⟨b, hb⟩ := System.step_sys hs
    exact ih.next b hb

/-! ## What a child has in front of each statement -/

/-- The terminal is open as `fd`, and was to be copied to the numbers in `done`. -/
structure Opened (k : Kernel) (base : Descriptors File) (pid : Pid) (done : List Nat)
    (c : ChildFds) (fd : Nat) : Prop where
  tty : (k.openTty pid base).map Subtype.val = some fd
  ttyFd : c.ttyFd = fd
  lookup : ∀ x, c.table.lookup x =
    if x = fd ∨ x ∈ done ∧ k.dup2 pid x = true then some (.tty pid) else base.lookup x

/-- A child in front of a statement, whose table at its `fork` was `base`. -/
def At (k : Kernel) (base : Descriptors File) (pid : Pid) (phase : Phase) (c : ChildFds) : Prop :=
  match phase with
  | .opening => c.table = base
  | .dupStdout => ∃ fd, Opened k base pid [] c fd
  | .dupStdin => ∃ fd, Opened k base pid [1] c fd
  | .dupStderr => ∃ fd, Opened k base pid [0, 1] c fd
  | .exited | .killed => True
  | _ => ∃ fd, Opened k base pid [2, 0, 1] c fd

section
variable {k : Kernel} {base : Descriptors File} {pid : Pid}

theorem Opened.dup2 {done : List Nat} {c : ChildFds} {fd : Nat} (h : Opened k base pid done c fd)
    (target : Nat) : Opened k base pid (target :: done)
      { c with table := c.table.dup2 (k.dup2 pid target) c.ttyFd target } fd := by
  have hopen : c.table.lookup c.ttyFd = some (.tty pid) := by
    rw [h.lookup, if_pos (.inl h.ttyFd)]
  refine ⟨h.tty, h.ttyFd, fun x => ?_⟩
  rw [Descriptors.lookup_dup2 target hopen, h.lookup]
  by_cases hx : x = target
  · subst hx
    by_cases hd : k.dup2 pid x = true
    · rw [if_pos ⟨rfl, hd⟩, if_pos (.inr ⟨List.mem_cons_self, hd⟩)]
    · rw [if_neg fun h => hd h.2]
      simp only [hd, Bool.false_eq_true, and_false]
  · simp only [List.mem_cons, hx, false_and, false_or, if_false]

/-- What one statement of a child leaves. -/
theorem At.step {p : Proc} {c : ChildFds} (h : At k base p.pid p.phase c) (ok : Bool)
    (hok : p.phase = .opening → ok = (k.openTty p.pid c.table).isSome) :
    At k base p.pid (p.step ok).phase (c.step k p.pid p.phase) := by
  unfold Proc.step ChildFds.step
  generalize p.pid = pid at h hok ⊢
  cases hph : p.phase with
  | opening =>
    rw [hph] at h
    obtain ⟨table, ttyFd⟩ := c
    obtain rfl : table = base := h
    rw [hok hph]
    simp only
    cases hopen : k.openTty pid table with
    | none => trivial
    | some fd =>
      refine ⟨fd, congrArg (Option.map Subtype.val) hopen, rfl, fun x => ?_⟩
      rw [Descriptors.lookup_insert_eq]
      simp only [List.not_mem_nil, false_and, or_false]
  | dupStdout =>
    rw [hph] at h
    obtain ⟨fd, h⟩ := h
    exact ⟨fd, h.dup2 1⟩
  | dupStdin =>
    rw [hph] at h
    obtain ⟨fd, h⟩ := h
    exact ⟨fd, h.dup2 0⟩
  | dupStderr =>
    rw [hph] at h
    obtain ⟨fd, h⟩ := h
    exact ⟨fd, h.dup2 2⟩
  | setCtty =>
    rw [hph] at h
    simp only
    split <;> exact h
  | waitStartSignal =>
    rw [hph] at h
    simp only
    split
    · rw [hph]
      exact h
    · split <;> exact h
  | execv =>
    rw [hph] at h
    cases ok with
    | true => exact h
    | false => trivial
  | setsid | setMode | clearing =>
    rw [hph] at h
    exact h
  | running =>
    rw [hph] at h
    simp only
    rw [hph]
    exact h
  | exited | killed =>
    simp only
    rw [hph]
    trivial

/-- A signal ends the child, or leaves it where it is. -/
theorem At.deliver {p : Proc} {c : ChildFds} (h : At k base p.pid p.phase c) :
    At k base p.pid p.deliver.phase c := by
  unfold Proc.deliver
  split
  · split
    · exact h
    · trivial
  · exact h

end

/-! ## Runs -/

/-- What the parent does to its children: nothing, a `fork`, or a signal. -/
theorem parent_procs {sigactionOk : Bool} {os : Nat → OsReply} {s t : Sys}
    (h : s.parent sigactionOk os = some t) :
    t.procs = s.procs ∨
    (∃ c : Child, c.pid ∉ s.pids ∧ t.procs = s.procs ++ [s.spawn c]) ∨
    ∃ pid, t.procs = onPid pid Proc.signal s.procs := by
  unfold Sys.parent at h
  split at h
  · left
    cases sigactionOk <;> cases h <;> rfl
  · cases h
    exact .inl rfl
  · next i d ds _ =>
    rcases directive_cases h with ⟨path, mode, argv, pid, -, -, hfresh, rfl⟩ | ⟨-, hp⟩
    · exact .inr (.inl ⟨forkChild s.init pid path mode argv, hfresh, rfl⟩)
    · left
      generalize perform (os i) s.init (meaning d) = r at hp
      rcases r with f | ⟨_ | _, u⟩ <;> rw [hp]
  · left
    split at h <;> cases h <;> rfl
  · split at h
    · split at h
      · cases h
        exact .inr (.inr ⟨_, rfl⟩)
      · cases h
        exact .inl rfl
    · cases h
      exact .inl rfl
  · cases h
  · cases h
  · cases h

/-- Init has kept its descriptors, and each child is where it should be. -/
structure Inv (k : Kernel) (base : Descriptors File) (s : System) : Prop where
  table : s.table = base
  nodup : s.sys.pids.Nodup
  children : ∀ p ∈ s.sys.procs, At k base p.pid p.phase (s.fds p.pid)

section
variable {k : Kernel} {base : Descriptors File} {s : System}

theorem inv_start (env : Env) (ds : List Directive) : Inv k base (System.start env ds base) :=
  ⟨rfl, List.nodup_nil, nofun⟩

/-- One child does something to itself, and to its own descriptors only. -/
theorem Inv.one (h : Inv k base s) (pid : Pid) {f : Proc → Proc} (fds : Pid → ChildFds)
    (hpid : ∀ p, (f p).pid = p.pid) (hother : ∀ q ≠ pid, fds q = s.fds q)
    (hf : ∀ p ∈ s.sys.procs, p.pid = pid → At k base pid (f p).phase (fds pid)) :
    Inv k base ⟨{ s.sys with procs := onPid pid f s.sys.procs }, s.table, fds⟩ := by
  refine ⟨h.table, ?_, fun q hq => ?_⟩
  · rw [Sys.pids, onPid_pids hpid]
    exact h.nodup
  · obtain ⟨p, hp, rfl⟩ := List.mem_map.mp hq
    split
    · next hpp =>
      rw [hpid, hpp]
      exact hf p hp hpp
    · next hpp =>
      change At k base p.pid p.phase (fds p.pid)
      rw [hother p.pid hpp]
      exact h.children p hp

theorem inherit_mem {p : Proc} (hp : p ∈ s.sys.procs) : s.inherit p.pid = s.fds p.pid :=
  if_pos (List.mem_map_of_mem hp)

theorem Inv.parent (h : Inv k base s) {sigactionOk : Bool} {os : Nat → OsReply} {t : Sys}
    (ht : s.sys.parent sigactionOk os = some t) : Inv k base ⟨t, s.table, s.inherit⟩ := by
  have hkeep : ∀ p ∈ s.sys.procs, At k base p.pid p.phase (s.inherit p.pid) := fun p hp => by
    rw [inherit_mem hp]
    exact h.children p hp
  rcases parent_procs ht with hprocs | ⟨c, hfresh, hprocs⟩ | ⟨pid, hprocs⟩
  · refine ⟨h.table, ?_, fun p hp => hkeep p (hprocs ▸ hp)⟩
    rw [Sys.pids, hprocs]
    exact h.nodup
  · refine ⟨h.table, ?_, fun p hp => ?_⟩
    · rw [Sys.pids, hprocs, List.map_append]
      refine List.nodup_append.mpr ⟨h.nodup, List.nodup_singleton _, fun pid hpid _ hnew heq => ?_⟩
      obtain rfl := List.mem_singleton.mp hnew
      rw [heq] at hpid
      exact hfresh hpid
    · simp only [hprocs] at hp
      rcases List.mem_append.mp hp with hp | hp
      · exact hkeep p hp
      · obtain rfl := List.mem_singleton.mp hp
        have hinherit : s.inherit c.pid = ⟨s.table, 0⟩ := if_neg hfresh
        change (s.inherit c.pid).table = base
        rw [hinherit]
        exact h.table
  · have hone := h.one pid (f := Proc.signal) s.fds (fun _ => rfl) (fun _ _ => rfl)
      fun p hp hpp => hpp ▸ h.children p hp
    refine ⟨h.table, ?_, fun p hp => ?_⟩
    · rw [Sys.pids, hprocs]
      exact hone.nodup
    · simp only [hprocs] at hp
      obtain ⟨q, hq, rfl⟩ := List.mem_map.mp hp
      have hsame : At k base q.pid q.phase (s.inherit q.pid) := hkeep q hq
      split
      · exact hsame
      · exact hsame

theorem find?_pid {p q : Proc} {ps : List Proc} {pid : Pid} (hnodup : (ps.map Proc.pid).Nodup)
    (hfind : ps.find? (fun p => p.pid = pid) = some p) (hq : q ∈ ps) (hpid : q.pid = pid) :
    q = p := by
  have hp : p.pid = pid := of_decide_eq_true (List.find?_some (p := fun p : Proc => p.pid = pid) hfind)
  exact List.inj_on_of_nodup_map hnodup hq (List.mem_of_find?_eq_some hfind) (hpid.trans hp.symm)

theorem inv_step {sigactionOk : Bool} {os : Nat → OsReply} {t : System} {a : Act}
    (h : Inv k base s) (ht : s.step k sigactionOk os a = some t) : Inv k base t := by
  unfold System.step at ht
  cases a with
  | parent =>
    obtain ⟨u, hu, rfl⟩ := Option.map_eq_some_iff.mp ht
    exact h.parent hu
  | child pid ok =>
    simp only at ht
    split at ht
    · cases ht
    · next p hfind =>
      obtain ⟨u, hu, rfl⟩ := Option.map_eq_some_iff.mp ht
      cases hu
      refine h.one pid _ (pid_step _) (fun q hq => Function.update_of_ne hq _ _) fun q hq hpid => ?_
      obtain rfl := find?_pid h.nodup hfind hq hpid
      obtain rfl := hpid
      rw [Function.update_self]
      exact (h.children q hq).step _ fun hopening => if_pos hopening
  | deliver pid =>
    obtain ⟨u, hu, rfl⟩ := Option.map_eq_some_iff.mp ht
    cases hu
    exact h.one pid s.fds pid_deliver (fun _ _ => rfl) fun p hp hpid =>
      hpid ▸ (h.children p hp).deliver

end

/-! ## At `execv` -/

/-- The standard descriptors are the terminal, and all others are as old as
init. -/
structure Clean (pid : Pid) (t : Descriptors File) : Prop where
  standard : ∀ fd < 3, t.lookup fd = some (.tty pid)
  others : ∀ fd f, 3 ≤ fd → t.lookup fd = some f → ∃ n, f = .inherited n

/-- A child of a run from the start of `main` on, about to call `execv`. -/
structure AtExecv (k : Kernel) (w : Outside) (t : Initial) where
  table : Descriptors File
  directives : List Directive
  booted : boot k w t.table = .ok (table, some directives)
  system : System
  run : Reachable (System.step k w.sigactionOk w.os) (System.start w.env directives table) system
  proc : Proc
  mem : proc ∈ system.sys.procs
  phase : proc.phase = .execv

/-- Its descriptors. -/
def AtExecv.fds {k : Kernel} {w : Outside} {t : Initial} (a : AtExecv k w t) : Descriptors File :=
  (a.system.fds a.proc.pid).table

/-- The configuration and the terminal get numbers of standard descriptors, and
the terminal is copied to the two others. -/
def OnStandard (k : Kernel) (t : Descriptors File) (pid : Pid) : Prop :=
  ∃ config tty, (k.fopen t).map Subtype.val = some config ∧
    (k.openTty pid (withConfig t config)).map Subtype.val = some tty ∧
    config < 3 ∧ tty < 3 ∧ ∀ fd < 3, fd = tty ∨ k.dup2 pid fd = true

theorem boot_some {k : Kernel} {w : Outside} {t base : Descriptors File} {ds : List Directive}
    (h : boot k w t = .ok (base, some ds)) :
    ∃ config, (k.fopen t).map Subtype.val = some config ∧ base = withConfig t config := by
  unfold boot at h
  cases hfile : w.file with
  | none =>
    rw [hfile] at h
    cases h
  | some file =>
    rw [hfile] at h
    cases hopen : k.fopen t with
    | none =>
      rw [hopen] at h
      cases h
    | some config =>
      rw [hopen] at h
      cases hmalloc : w.mallocOk with
      | false =>
        rw [hmalloc] at h
        cases h
      | true =>
        rw [hmalloc] at h
        obtain ⟨⟨⟨code, ds⟩, heap⟩, -, h⟩ := ok_of_bind h
        cases code with
        | err => cases h
        | ok =>
          cases h
          exact ⟨config, rfl, rfl⟩

theorem standard_iff {x : Nat} : x ∈ [2, 0, 1] ↔ x < 3 := by
  simp only [List.mem_cons, List.not_mem_nil, or_false]
  omega

section
variable {k : Kernel} {t : Initial} {pid : Pid} {config tty : Nat} {c : ChildFds}

theorem lookup_withConfig (t : Descriptors File) (config x : Nat) :
    (withConfig t config).lookup x = if x = config then some .config else t.lookup x :=
  Descriptors.lookup_insert_eq ..

/-- Init has no terminal open. -/
theorem Initial.lookup_ne_tty (t : Initial) (config x : Nat) (pid : Pid) :
    (withConfig t.table config).lookup x ≠ some (.tty pid) := by
  intro h
  rw [lookup_withConfig] at h
  split at h
  · cases h
  · obtain ⟨n, hn⟩ := t.inherited x _ h
    cases hn

/-- The configuration is open above the standard descriptors, or the terminal
is, or a copy of it is missing, unless everything has come to lie below. -/
theorem Opened.clean_iff (h : Opened k (withConfig t.table config) pid [2, 0, 1] c tty) :
    Clean pid c.table ↔
      config < 3 ∧ tty < 3 ∧ ∀ fd < 3, fd = tty ∨ k.dup2 pid fd = true := by
  have hlookup : ∀ x, c.table.lookup x = if x = tty ∨ x < 3 ∧ k.dup2 pid x = true then
      some (.tty pid) else (withConfig t.table config).lookup x := fun x => by
    rw [h.lookup]
    simp only [standard_iff]
  have hne : config ≠ tty := by
    obtain ⟨⟨fd, hfree⟩, -, hfd⟩ := Option.map_eq_some_iff.mp h.tty
    obtain rfl : fd = tty := hfd
    rintro rfl
    exact hfree (Finmap.mem_insert.mpr (.inl rfl))
  constructor
  · intro hclean
    refine ⟨?_, ?_, fun fd hfd => ?_⟩
    · by_contra hconfig
      have hopen : c.table.lookup config = some .config := by
        rw [hlookup, if_neg fun hx => hx.elim hne fun hx => hconfig hx.1, lookup_withConfig,
          if_pos rfl]
      obtain ⟨n, hn⟩ := hclean.others config _ (Nat.le_of_not_lt hconfig) hopen
      cases hn
    · by_contra htty
      have hopen : c.table.lookup tty = some (.tty pid) := by
        rw [hlookup, if_pos (.inl rfl)]
      obtain ⟨n, hn⟩ := hclean.others tty _ (Nat.le_of_not_lt htty) hopen
      cases hn
    · have hstd := hclean.standard fd hfd
      rw [hlookup] at hstd
      split at hstd
      · next hx => exact hx.imp_right And.right
      · exact absurd hstd (t.lookup_ne_tty config fd pid)
  · rintro ⟨hconfig, htty, hdup⟩
    refine ⟨fun fd hfd => ?_, fun fd f hfd hf => ?_⟩
    · rw [hlookup, if_pos ((hdup fd hfd).imp_right fun hd => ⟨hfd, hd⟩)]
    · rw [hlookup, if_neg (by omega), lookup_withConfig, if_neg (by omega)] at hf
      exact t.inherited fd f hf

end

/-- Each child that gets there has opened its terminal, with the configuration
open already. -/
theorem AtExecv.opened {k : Kernel} {w : Outside} {t : Initial} (a : AtExecv k w t) :
    ∃ config tty, (k.fopen t.table).map Subtype.val = some config ∧
      Opened k (withConfig t.table config) a.proc.pid [2, 0, 1]
        (a.system.fds a.proc.pid) tty := by
  obtain ⟨config, hconfig, hbase⟩ := boot_some a.booted
  have hinv : Inv k a.table a.system :=
    a.run.invariant (inv_start w.env a.directives) fun _ _ _ => inv_step
  have hat := hinv.children a.proc a.mem
  rw [a.phase] at hat
  obtain ⟨tty, htty⟩ := hat
  exact ⟨config, tty, hconfig, hbase ▸ htty⟩

/-- When the standard descriptors are in use from the start, no child is clean. -/
theorem AtExecv.not_clean {k : Kernel} {w : Outside} {t : Initial} (a : AtExecv k w t)
    (h : ∀ fd < 3, fd ∈ t.table) : ¬ Clean a.proc.pid a.fds := by
  intro hclean
  obtain ⟨config, tty, hconfig, hopened⟩ := a.opened
  obtain ⟨⟨fd, hfree⟩, -, hfd⟩ := Option.map_eq_some_iff.mp hconfig
  obtain rfl : fd = config := hfd
  exact hfree (h fd (hopened.clean_iff.mp hclean).1)

/-- **When a child is clean at `execv`.** Exactly when the configuration and its
terminal were opened on standard descriptors and each copy has worked. -/
theorem cleanAtExecv_iff (k : Kernel) (w : Outside) (t : Initial) (a : AtExecv k w t) :
    Clean a.proc.pid a.fds ↔ OnStandard k t.table a.proc.pid := by
  obtain ⟨config, tty, hconfig, hopened⟩ := a.opened
  have hiff : Clean a.proc.pid a.fds ↔ _ := hopened.clean_iff
  rw [hiff]
  constructor
  · exact fun h => ⟨config, tty, hconfig, hopened.tty, h⟩
  · rintro ⟨config', tty', hconfig', htty', h⟩
    obtain rfl : config = config' := Option.some.inj (hconfig.symm.trans hconfig')
    obtain rfl : tty = tty' := Option.some.inj (hopened.tty.symm.trans htty')
    exact h

/-! ## An ordinary boot -/

def ordinaryKernel : Kernel := ⟨Descriptors.lowest, fun _ => Descriptors.lowest, fun _ _ => true⟩

def ordinaryBoot : Outside where
  file := some ⟨ascii "tty /dev/tty1 $TTY_GFX_MODE /bin/xinit", by decide⟩
  mallocOk := true
  fresh := fun n => Vector.replicate n 0
  reallocOk := fun _ => true
  sigactionOk := true
  os := fun _ => ⟨true, some 2⟩
  env := []

def ordinaryTable : Initial := (((Initial.none).add 0 0).add 1 0).add 2 0

def ordinaryActs : List Act :=
  let child := List.replicate 8 (Act.child 2 true)
  [.parent, .parent] ++ child ++ [.parent, .parent, .parent, .deliver 2, .child 2 true]

def ordinaryRun : Option (Descriptors File × List Directive × System) :=
  match boot ordinaryKernel ordinaryBoot ordinaryTable.table with
  | .ok (table, some ds) =>
    (runAll (System.step ordinaryKernel ordinaryBoot.sigactionOk ordinaryBoot.os)
      (System.start ordinaryBoot.env ds table) ordinaryActs).map fun s => (table, ds, s)
  | _ => none

/-- The program is started with the configuration open as 3 and its terminal as 4. -/
theorem ordinary_not_clean : ∃ a : AtExecv ordinaryKernel ordinaryBoot ordinaryTable,
    ¬ Clean a.proc.pid a.fds := by
  have hphases : (ordinaryRun.map fun r => r.2.2.sys.procs.map Proc.phase) = some [.execv] := by
    decide
  obtain ⟨⟨table, ds, s⟩, hrun, hphase⟩ := Option.map_eq_some_iff.mp hphases
  have hmem : Phase.execv ∈ s.sys.procs.map Proc.phase := hphase ▸ List.mem_cons_self
  obtain ⟨p, hp, hpp⟩ := List.mem_map.mp hmem
  unfold ordinaryRun at hrun
  split at hrun
  · next table' ds' hboot =>
    obtain ⟨u, hu, heq⟩ := Option.map_eq_some_iff.mp hrun
    cases heq
    let a : AtExecv ordinaryKernel ordinaryBoot ordinaryTable :=
      ⟨table, ds, hboot, s, Reachable.start.runAll hu, p, hp, hpp⟩
    exact ⟨a, a.not_clean (by decide)⟩
  · cases hrun

end SalernOS.Init.ExecDescriptors
