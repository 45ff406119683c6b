import SalernOS.Init.Parse
import SalernOS.Init.Table

/-! # `init/src/interpreter.c`

The parent's side, one call after the other. What the operating system answers
to the calls of a directive is an argument; a child appears in the trace with
what it inherits. `malloc` succeeds: the source writes through its result.
-/
namespace SalernOS.Init.Interpreter
open SalernOS.Lib SalernOS.Libc SalernOS.Init.Parse SalernOS.Init.Table

def optClear : BitVec 64 := 1
def ttyText : BitVec 64 := 1
def ttyGfx : BitVec 64 := 2
def sigusr1 : Nat := 10

inductive Code where
  | ok
  | err
deriving DecidableEq, Repr

inductive Callback where
  | cbEnv
  | cbTty
  | cbEnable
deriving DecidableEq, Repr

def gValues : List (TableEntry Callback) := [
  ⟨⟨ascii "TTY_TEXT_MODE", by decide⟩, .int ttyText⟩,
  ⟨⟨ascii "TTY_GFX_MODE", by decide⟩, .int ttyGfx⟩,
  ⟨⟨ascii "OPT_CLEAR", by decide⟩, .int optClear⟩]

def gDirectives : List (TableEntry Callback) := [
  ⟨⟨ascii "env", by decide⟩, .function .cbEnv⟩,
  ⟨⟨ascii "tty", by decide⟩, .function .cbTty⟩,
  ⟨⟨ascii "enable", by decide⟩, .function .cbEnable⟩]

/-! ## Evaluation -/

/-- What `eval` stores through `out`. -/
inductive Val where
  | int (n : BitVec 32)
  | str (s : Bytes)
deriving DecidableEq, Repr

/-- `EVAL_OK` with what is stored to `*out` and `*out_type`, or an error code,
with both untouched. -/
inductive EvalResult where
  | ok (out : Val) (outType : Ty)
  | notable
  | notRecognized
  | wrongType
deriving DecidableEq, Repr

/-- The body of `eval`, given what `eval_entry` returns. -/
def evalBody (evalEntry : TableEntry Callback → EvalResult)
    (table : Option (List (TableEntry Callback))) (value : Ptr) (valueLen : Nat)
    (expType : Ty) : EvalResult :=
  if value.rest.headD nul = dollar then
    match table with
    | none => .notable
    | some table =>
      match tableLookup value.next.rest (sizePred valueLen) expType table with
      | some e => evalEntry e
      | none => .notRecognized
  else if expType = .string then .ok (.str (value.rest.take valueLen)) .string
  else .notRecognized

/-- `eval` without a table, which never looks an entry up. -/
def evalNoTable (value : Ptr) (valueLen : Nat) (expType : Ty) : EvalResult :=
  evalBody (fun _ => .notable) none value valueLen expType

def evalEntry (e : TableEntry Callback) : EvalResult :=
  match e.value with
  | .string s => evalNoTable ⟨0, s.block⟩ s.bytes.length .string
  | .int n => .ok (.int (n.setWidth 32)) .int
  | _ => .wrongType

def eval (table : Option (List (TableEntry Callback))) (value : Ptr) (valueLen : Nat)
    (expType : Ty) : EvalResult :=
  evalBody evalEntry table value valueLen expType

/-- The text of a string entry is evaluated by `eval` itself, without a table. -/
theorem evalNoTable_eq_eval (value : Ptr) (valueLen : Nat) (expType : Ty) :
    evalNoTable value valueLen expType = eval none value valueLen expType := rfl

/-- `EVAL_OK == eval(&s, NULL, &g_values, ..., TYPE_STRING)` and `s`. -/
def evalString (a : DirectiveArg) : Except Fault (Option Bytes) :=
  match eval (some gValues) a.str a.len .string with
  | .ok (.str s) _ => .ok (some s)
  | .ok (.int _) _ => .error .badCast
  | _ => .ok none

/-- `EVAL_OK == eval(&n, NULL, &g_values, ..., TYPE_INT)` and `n`. -/
def evalInt (a : DirectiveArg) : Except Fault (Option (BitVec 32)) :=
  match eval (some gValues) a.str a.len .int with
  | .ok (.int n) _ => .ok (some n)
  | .ok (.str _) _ => .error .badCast
  | _ => .ok none

/-! ## The state of init -/

abbrev Pid := Nat
abbrev Env := List (Bytes × Bytes)

def getenv (env : Env) (name : Bytes) : Option Bytes :=
  (env.find? fun p => p.1 == name).map (·.2)

/-- `setenv(name, value, true)`: whether it succeeds, and the environment. -/
def setenv (ok : Bool) (env : Env) (name value : Bytes) : Bool × Env :=
  if ok ∧ name ≠ [] ∧ equals ∉ name then
    (true, (name, value) :: env.filter fun p => p.1 != name)
  else (false, env)

theorem getenv_setenv (env : Env) (name value : Bytes) (h : name ≠ [] ∧ equals ∉ name) :
    getenv (setenv true env name value).2 name = some value := by
  simp [setenv, getenv, h]

theorem getenv_setenv_ne (ok : Bool) (env : Env) {name other : Bytes} (value : Bytes)
    (h : name ≠ other) : getenv (setenv ok env name value).2 other = getenv env other := by
  unfold setenv
  split
  · have hfilter : (env.filter fun p => p.1 != name).find? (fun p => p.1 == other) =
        env.find? fun p => p.1 == other := by
      rw [List.find?_filter]
      congr 1
      funext p
      by_cases hp : p.1 = other <;> simp [hp, Ne.symm h]
    simp only [getenv, List.find?_cons, beq_eq_false_iff_ne.mpr h, hfilter]
  · rfl

/-- A child as `fork` leaves it, with what `cb_tty` has evaluated for it. -/
structure Child where
  pid : Pid
  ttyPath : Bytes
  ttyMode : BitVec 32
  /-- `argv[0] .. argv[argc]`; `none` is `NULL`. -/
  argv : List (Option Bytes)
  env : Env
  activeOptions : BitVec 32
deriving DecidableEq, Repr

inductive Event where
  | sigaction (ok : Bool)
  | setenv (name value : Bytes) (ok : Bool)
  | fork (child : Child)
  | forkFailed
  | kill (pid : Pid) (signo : Nat)
deriving DecidableEq, Repr

inductive LogArg where
  | str (s : Bytes)
  | num (n : Nat)
deriving DecidableEq, Repr

/-- `ILOG` or `IERR` with a format and its arguments. -/
inductive LogLine where
  | ilog (fmt : String) (args : List LogArg)
  | ierr (fmt : String) (args : List LogArg)
deriving DecidableEq, Repr

def maxChildren : Nat := 20

structure State where
  env : Env
  gActiveOptions : BitVec 32
  gChildren : Vector Pid maxChildren
  gNumChildren : Nat
  trace : List Event
  log : List LogLine

/-- The state in which the program starts. -/
def State.start (env : Env) : State := ⟨env, 0, Vector.replicate maxChildren 0, 0, [], []⟩

namespace State

def ilog (s : State) (fmt : String) (args : List LogArg) : State :=
  { s with log := s.log ++ [.ilog fmt args] }

def ierr (s : State) (fmt : String) (args : List LogArg) : State :=
  { s with log := s.log ++ [.ierr fmt args] }

def emit (s : State) (e : Event) : State := { s with trace := s.trace ++ [e] }

/-- The pids in use of `g_children`. -/
def recorded (s : State) : List Pid := s.gChildren.toList.take s.gNumChildren

end State

/-- What the operating system answers while one directive is processed. -/
structure OsReply where
  setenv : Bool
  fork : Option Pid
deriving DecidableEq, Repr

/-! ## The callbacks -/

def cbEnv (d : Directive) (os : OsReply) (s : State) : Except Fault (Code × State) :=
  match d.args.elems with
  | [_, name, value] => do
    let some envName ← evalString name
      | return (.err, s.ierr "unable to evaluate env name %.*s" [.str name.word])
    let some envValue ← evalString value
      | return (.err, s.ierr "unable to evaluate env value %.*s for env %.*s"
          [.str value.word, .str name.word])
    let (ok, env) := setenv os.setenv s.env envName envValue
    return (.ok, ({ s with env := env }.emit (.setenv envName envValue ok)).ilog
      "setting env %s=%s" [.str envName, .str envValue])
  | _ => return (.err, s)

/-- The loop over the command line: the values, or the argument that fails. -/
def evalArgv : List DirectiveArg → Except Fault (Except DirectiveArg (List Bytes))
  | [] => return .ok []
  | a :: as => do
    let some v ← evalString a | return .error a
    match ← evalArgv as with
    | .ok vs => return .ok (v :: vs)
    | .error a => return .error a

/-- `g_children[g_num_children] = pid; g_num_children++;` -/
def recordChild (pid : Pid) (s : State) : Except Fault State :=
  if h : s.gNumChildren < maxChildren then
    .ok { s with gChildren := s.gChildren.set s.gNumChildren pid h,
                 gNumChildren := s.gNumChildren + 1 }
  else .error .outOfBounds

/-- The child that `cb_tty` forks. -/
def forkChild (s : State) (pid : Pid) (ttyPath : Bytes) (ttyMode : BitVec 32)
    (argv : List Bytes) : Child :=
  ⟨pid, ttyPath, ttyMode, argv.map some ++ [none], s.env, s.gActiveOptions⟩

def cbTty (d : Directive) (os : OsReply) (s : State) : Except Fault (Code × State) :=
  match d.args.elems with
  | _ :: path :: mode :: arg :: args => do
    let some ttyPath ← evalString path
      | return (.err, s.ierr "failed to evaluate tty path %.*s" [.str path.word])
    let some ttyMode ← evalInt mode
      | return (.err, s.ierr "failed to evaluate tty mode %.*s" [.str path.word])
    match ← evalArgv (arg :: args) with
    | .error a =>
      return (.err, s.ierr "failed to evaluate command line argument %.*s" [.str a.word])
    | .ok argv =>
      match os.fork with
      | none => return (.err, (s.emit .forkFailed).ierr "failed to perform fork()" [])
      | some pid =>
        let s ← recordChild pid (s.emit (.fork (forkChild s pid ttyPath ttyMode argv)))
        return (.ok, s)
  | _ => return (.err, s)

def cbEnable (d : Directive) (s : State) : Except Fault (Code × State) :=
  match d.args.elems with
  | [_, option] => do
    let some opt ← evalInt option
      | return (.err, s.ierr "failed to evaluate option %.*s" [.str option.word])
    let s := { s with gActiveOptions := s.gActiveOptions ||| opt }
    return (.ok, s.ilog "set option with id=%04x, active_options=%04x"
      [.num opt.toNat, .num s.gActiveOptions.toNat])
  | _ => return (.err, s)

def callback (cb : Callback) (d : Directive) (os : OsReply) (s : State) :
    Except Fault (Code × State) :=
  match cb with
  | .cbEnv => cbEnv d os s
  | .cbTty => cbTty d os s
  | .cbEnable => cbEnable d s

def interpretDirective (d : Directive) (i n : Nat) (os : OsReply) (s : State) :
    Except Fault (Code × State) :=
  match d.args.elems with
  | [] => return (.err, s)
  | a :: _ => do
    let s := s.ilog "processing directive %zu/%zu: %.*s" [.num (i + 1), .num n, .str a.word]
    match tableLookup a.str.rest a.len .function gDirectives with
    | none => return (.err, s.ierr "%.*s is not a known directive" [.str a.word])
    | some e =>
      match e.value with
      | .function cb => callback cb d os s
      | _ => .error .badCast

/-! ## `interpret_config` -/

/-- How `interpret_config` ends: it returns, or it calls `exit(-1)`. -/
inductive Outcome where
  | returned (code : Code)
  | exited
deriving DecidableEq, Repr

/-- The directives from the `i`-th of `n` on. -/
def interpretLoop (os : Nat → OsReply) (n : Nat) :
    Nat → List Directive → State → Except Fault (Code × State)
  | _, [], s => return (.ok, s)
  | i, d :: ds, s => do
    match ← interpretDirective d i n (os i) s with
    | (.ok, s) => interpretLoop os n (i + 1) ds s
    | (.err, s) => return (.err, s)

/-- `for (; i < g_num_children; i++) kill(g_children[i], SIGUSR1);` for the
remaining number of rounds. -/
def releaseLoop : Nat → Nat → State → Except Fault State
  | 0, _, s => return s
  | rounds + 1, i, s =>
    if h : i < maxChildren then
      releaseLoop rounds (i + 1) (s.emit (.kill s.gChildren[i] sigusr1))
    else .error .outOfBounds

def interpretConfig (sigactionOk : Bool) (os : Nat → OsReply) (ds : List Directive) (s : State) :
    Except Fault (Outcome × State) := do
  let s := (s.ilog "setting signal handler for SIGUSR1" []).emit (.sigaction sigactionOk)
  if !sigactionOk then
    return (.exited, s.ierr "failed to perform sigaction() for SIGUSR1" [])
  match ← interpretLoop os ds.length 0 ds s with
  | (.err, s) => return (.returned .err, s)
  | (.ok, s) =>
    let s := s.ilog "sending SIGUSR1 to all children" []
    let s ← releaseLoop s.gNumChildren 0 s
    return (.returned .ok, s)

end SalernOS.Init.Interpreter
