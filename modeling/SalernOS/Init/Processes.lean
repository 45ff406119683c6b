import SalernOS.Lib.Machine
import SalernOS.Init.Progress

/-! # Init and its children as processes

The parent runs `interpret_config`, and each child the branch of `cb_tty` for
`pid == 0`; they take their steps in any order. A signal stays pending until it
is delivered, at any later time. The answers of the operating system to the
directives are fixed for a run; `fork` never returns the pid of a child that
init has not waited for.
-/
namespace SalernOS.Init.Processes
open SalernOS.Lib SalernOS.Libc SalernOS.Init.Parse SalernOS.Init.Interpreter
open SalernOS.Init.Meaning SalernOS.Init.Progress

/-! ## Children -/

/-- What a process does with `SIGUSR1`. -/
inductive Disposition where
  | default
  | handleSigusr1
deriving DecidableEq, Repr

/-- The statement of the child that comes next. -/
inductive Phase where
  | opening
  | dupStdout
  | dupStdin
  | dupStderr
  | setsid
  | setCtty
  | setMode
  | waitStartSignal
  | clearing
  | execv
  | running
  | exited
  | killed
deriving DecidableEq, Repr

structure Proc where
  image : Child
  phase : Phase
  gTtyLock : Int
  disposition : Disposition
  pending : Bool
  /-- Whether it has run its handler. -/
  handled : Bool
deriving DecidableEq, Repr

/-- The process can still take steps and signals. -/
def Phase.alive : Phase → Bool
  | .exited | .killed => false
  | _ => true

/-- Not yet behind `wait_start_signal`. -/
def Phase.held : Phase → Bool
  | .opening | .dupStdout | .dupStdin | .dupStderr | .setsid | .setCtty | .setMode
  | .waitStartSignal => true
  | _ => false

/-- The call of `execv` has been reached. -/
def Phase.reachedExecv : Phase → Bool
  | .execv | .running => true
  | _ => false

/-- The next statement of a child; `ok` is what `open` or `execv` comes to. -/
def Proc.step (ok : Bool) (p : Proc) : Proc :=
  match p.phase with
  | .opening => { p with phase := if ok then .dupStdout else .exited }
  | .dupStdout => { p with phase := .dupStdin }
  | .dupStdin => { p with phase := .dupStderr }
  | .dupStderr => { p with phase := .setsid }
  | .setsid => { p with phase := .setCtty }
  | .setCtty =>
    { p with phase := if p.image.ttyMode = ttyGfx.setWidth 32 then .setMode else .waitStartSignal }
  | .setMode => { p with phase := .waitStartSignal }
  | .waitStartSignal =>
    if p.gTtyLock ≠ 0 then p
    else if optClear.setWidth 32 &&& p.image.activeOptions ≠ 0 then { p with phase := .clearing }
    else { p with phase := .execv }
  | .clearing => { p with phase := .execv }
  | .execv =>
    if ok then { p with phase := .running, disposition := .default }
    else { p with phase := .exited }
  | .running | .exited | .killed => p

/-- The pending signal reaches the process. -/
def Proc.deliver (p : Proc) : Proc :=
  if p.pending ∧ p.phase.alive then
    match p.disposition with
    | .handleSigusr1 => { p with pending := false, gTtyLock := 0, handled := true }
    | .default => { p with pending := false, phase := .killed }
  else p

/-- `kill(pid, SIGUSR1)`. -/
def Proc.signal (p : Proc) : Proc := { p with pending := true }

/-! ## The parent -/

/-- Where init stands in `interpret_config`. -/
inductive Pc where
  | setup (ds : List Directive)
  /-- Before the `i`-th directive. -/
  | directives (i : Nat) (ds : List Directive)
  /-- In the `i`-th directive, behind its `fork`. -/
  | recording (pid : Pid) (i : Nat) (ds : List Directive)
  /-- Before the `i`-th round of the second loop. -/
  | releasing (i : Nat)
  | returned (code : Code)
  | exited
  | faulted (f : Fault)

structure Sys where
  pc : Pc
  init : State
  gTtyLock : Int
  disposition : Disposition
  procs : List Proc

def Proc.pid (p : Proc) : Pid := p.image.pid

def Sys.pids (s : Sys) : List Pid := s.procs.map Proc.pid

/-- One process does something. -/
def onPid (pid : Pid) (f : Proc → Proc) (ps : List Proc) : List Proc :=
  ps.map fun p => if p.pid = pid then f p else p

def Sys.start (env : Env) (ds : List Directive) : Sys :=
  ⟨.setup ds, State.start env, 1, .default, []⟩

/-- The child as `fork` makes it: a copy of init, with no signal pending. -/
def Sys.spawn (s : Sys) (c : Child) : Proc := ⟨c, .opening, s.gTtyLock, s.disposition, false, false⟩

/-- A directive, up to the `fork` of one that succeeds in it. -/
def Sys.directive (os : OsReply) (i : Nat) (d : Directive) (ds : List Directive) (s : Sys) :
    Option Sys :=
  match meaning d, os.fork with
  | some (.tty path mode argv), some pid =>
    if pid ∈ s.pids then none
    else
      let c := forkChild s.init pid path mode argv
      some { s with pc := .recording pid (i + 1) ds, init := s.init.emit (.fork c),
                    procs := s.procs ++ [s.spawn c] }
  | st, _ =>
    match perform os s.init st with
    | .ok (.ok, t) => some { s with pc := .directives (i + 1) ds, init := t }
    | .ok (.err, t) => some { s with pc := .returned .err, init := t }
    | .error f => some { s with pc := .faulted f }

def Sys.parent (sigactionOk : Bool) (os : Nat → OsReply) (s : Sys) : Option Sys :=
  match s.pc with
  | .setup ds =>
    let init := s.init.emit (.sigaction sigactionOk)
    if sigactionOk then
      some { s with pc := .directives 0 ds, init := init, disposition := .handleSigusr1 }
    else some { s with pc := .exited, init := init }
  | .directives _ [] => some { s with pc := .releasing 0 }
  | .directives i (d :: ds) => s.directive (os i) i d ds
  | .recording pid i ds =>
    match recordChild pid s.init with
    | .ok t => some { s with pc := .directives i ds, init := t }
    | .error f => some { s with pc := .faulted f }
  | .releasing i =>
    if i < s.init.gNumChildren then
      if h : i < maxChildren then
        let pid := s.init.gChildren[i]
        some { s with pc := .releasing (i + 1), init := s.init.emit (.kill pid sigusr1),
                      procs := onPid pid Proc.signal s.procs }
      else some { s with pc := .faulted .outOfBounds }
    else some { s with pc := .returned .ok }
  | .returned _ | .exited | .faulted _ => none

inductive Act where
  | parent
  | child (pid : Pid) (ok : Bool)
  | deliver (pid : Pid)

def Sys.step (sigactionOk : Bool) (os : Nat → OsReply) (s : Sys) : Act → Option Sys
  | .parent => s.parent sigactionOk os
  | .child pid ok => some { s with procs := onPid pid (Proc.step ok) s.procs }
  | .deliver pid => some { s with procs := onPid pid Proc.deliver s.procs }

end SalernOS.Init.Processes
