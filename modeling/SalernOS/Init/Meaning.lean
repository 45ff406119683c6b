import SalernOS.Init.Interpreter

/-! # What a directive means

A directive asks for one thing, or for nothing that the interpreter accepts,
and that depends on its text alone. `perform` says what the request does to the
state; the interpreter does the same, and writes its log besides.
-/
namespace SalernOS.Init.Meaning
open SalernOS.Lib SalernOS.Libc SalernOS.Init.Parse SalernOS.Init.Table
open SalernOS.Init.Interpreter

inductive Stmt where
  | env (name value : Bytes)
  | tty (path : Bytes) (mode : BitVec 32) (argv : List Bytes)
  | enable (option : BitVec 32)
deriving DecidableEq, Repr

/-! ## Arguments -/

/-- The value of an argument that stands for a string: its text. No string has
a name. -/
def stringOf (a : DirectiveArg) : Option Bytes :=
  if a.str.rest.headD nul = dollar then none else some a.word

/-- The value of an argument that stands for an integer: always a named one. -/
def intOf (a : DirectiveArg) : Option (BitVec 32) :=
  if a.str.rest.headD nul = dollar then
    match tableLookup a.str.next.rest (sizePred a.len) .int gValues with
    | some ⟨_, .int n⟩ => some (n.setWidth 32)
    | _ => none
  else none

theorem gValues_int : ∀ e ∈ gValues, ∃ n, e.value = .int n := by
  simp [gValues]

theorem gDirectives_function : ∀ e ∈ gDirectives, ∃ cb, e.value = .function cb := by
  simp [gDirectives]

theorem lookup_string_gValues (name : Bytes) (n : Nat) :
    tableLookup name n .string gValues = none := by
  cases h : tableLookup name n .string gValues with
  | none => rfl
  | some e =>
    obtain ⟨hmem, ht⟩ := tableLookup_some h
    obtain ⟨n, hn⟩ := gValues_int e hmem
    simp [TableEntry.type, hn, Value.type] at ht

theorem evalString_eq (a : DirectiveArg) : evalString a = .ok (stringOf a) := by
  unfold evalString eval evalBody stringOf
  by_cases hd : a.str.rest.headD nul = dollar
  · simp only [if_pos hd, lookup_string_gValues]
  · simp only [if_neg hd]
    rfl

theorem evalInt_eq (a : DirectiveArg) : evalInt a = .ok (intOf a) := by
  unfold evalInt eval evalBody intOf
  by_cases hd : a.str.rest.headD nul = dollar
  · simp only [if_pos hd]
    cases h : tableLookup a.str.next.rest (sizePred a.len) .int gValues with
    | none => rfl
    | some e =>
      obtain ⟨n, hn⟩ := gValues_int e (tableLookup_some h).1
      obtain ⟨name, value⟩ := e
      subst hn
      rfl
  · simp only [if_neg hd]
    rfl

theorem evalArgv_eq : ∀ as : List DirectiveArg, ∃ r, evalArgv as = .ok r ∧
    as.mapM stringOf = match r with | .ok vs => some vs | .error _ => none
  | [] => ⟨.ok [], rfl, rfl⟩
  | a :: as => by
    obtain ⟨r, hr, hm⟩ := evalArgv_eq as
    unfold evalArgv
    rw [evalString_eq, List.mapM_cons, hm]
    cases stringOf a with
    | none => exact ⟨.error a, rfl, rfl⟩
    | some v =>
      rw [hr]
      cases r with
      | ok vs => exact ⟨.ok (v :: vs), rfl, rfl⟩
      | error b => exact ⟨.error b, rfl, rfl⟩

/-! ## Directives -/

/-- What a directive with these arguments asks a callback for. -/
def request (cb : Callback) (args : List DirectiveArg) : Option Stmt :=
  match cb with
  | .cbEnv =>
    match args with
    | [_, name, value] => do return .env (← stringOf name) (← stringOf value)
    | _ => none
  | .cbTty =>
    match args with
    | _ :: path :: mode :: arg :: args => do
      return .tty (← stringOf path) (← intOf mode) (← (arg :: args).mapM stringOf)
    | _ => none
  | .cbEnable =>
    match args with
    | [_, option] => do return .enable (← intOf option)
    | _ => none

def meaning (d : Directive) : Option Stmt :=
  match d.args.elems with
  | [] => none
  | a :: as =>
    match tableLookup a.str.rest a.len .function gDirectives with
    | some ⟨_, .function cb⟩ => request cb (a :: as)
    | _ => none

/-- What a request does. -/
def perform (os : OsReply) (s : State) : Option Stmt → Except Fault (Code × State)
  | none => return (.err, s)
  | some (.env name value) =>
    let (ok, env) := setenv os.setenv s.env name value
    return (.ok, { s with env := env }.emit (.setenv name value ok))
  | some (.tty path mode argv) =>
    match os.fork with
    | none => return (.err, s.emit .forkFailed)
    | some pid => do
      return (.ok, ← recordChild pid (s.emit (.fork (forkChild s pid path mode argv))))
  | some (.enable option) =>
    return (.ok, { s with gActiveOptions := s.gActiveOptions ||| option })

/-! ## The interpreter and its log -/

/-- The state without its log. -/
def quiet (s : State) : State := { s with log := [] }

@[simp] theorem quiet_ilog (s : State) (fmt : String) (args : List LogArg) :
    quiet (s.ilog fmt args) = quiet s := rfl

/-- A result without the log. -/
def forget {α : Type} (r : Except Fault (α × State)) : Except Fault (α × State) :=
  r.map (Prod.map id quiet)

theorem forget_eq_ok {α : Type} {r : Except Fault (α × State)} {a : α} {s : State}
    (h : forget r = .ok (a, s)) : ∃ t, r = .ok (a, t) ∧ quiet t = s := by
  cases r with
  | error f => cases h
  | ok p => cases h; exact ⟨p.2, rfl, rfl⟩

theorem forget_eq_error {α : Type} {r : Except Fault (α × State)} {f : Fault}
    (h : forget r = .error f) : r = .error f := by
  cases r with
  | error g => cases h; rfl
  | ok p => cases h

theorem recordChild_quiet (pid : Pid) (s : State) :
    recordChild pid (quiet s) = (recordChild pid s).map quiet := by
  unfold recordChild
  by_cases h : s.gNumChildren < maxChildren
  · have : (quiet s).gNumChildren < maxChildren := h
    rw [dif_pos h, dif_pos this]
    rfl
  · have : ¬ (quiet s).gNumChildren < maxChildren := h
    rw [dif_neg h, dif_neg this]
    rfl

theorem cbEnv_perform (d : Directive) (os : OsReply) (s : State) :
    forget (cbEnv d os s) = perform os (quiet s) (request .cbEnv d.args.elems) := by
  obtain ⟨⟨block, elems⟩⟩ := d
  unfold cbEnv request
  match elems with
  | [_, name, value] =>
    simp only [evalString_eq]
    cases stringOf name <;> cases stringOf value <;> rfl
  | [] | [_] | [_, _] | _ :: _ :: _ :: _ :: _ => rfl

theorem cbEnable_perform (d : Directive) (os : OsReply) (s : State) :
    forget (cbEnable d s) = perform os (quiet s) (request .cbEnable d.args.elems) := by
  obtain ⟨⟨block, elems⟩⟩ := d
  unfold cbEnable request
  match elems with
  | [_, option] =>
    simp only [evalInt_eq]
    cases intOf option <;> rfl
  | [] | [_] | _ :: _ :: _ :: _ => rfl

theorem cbTty_perform (d : Directive) (os : OsReply) (s : State) :
    forget (cbTty d os s) = perform os (quiet s) (request .cbTty d.args.elems) := by
  obtain ⟨⟨block, elems⟩⟩ := d
  unfold cbTty request
  match elems with
  | _ :: path :: mode :: arg :: args =>
    obtain ⟨r, hr, hm⟩ := evalArgv_eq (arg :: args)
    simp only [evalString_eq, evalInt_eq, hr, hm]
    cases stringOf path with
    | none => rfl
    | some p =>
      cases intOf mode with
      | none => rfl
      | some m =>
        cases r with
        | error a => rfl
        | ok vs =>
          cases hf : os.fork with
          | none => simp only [perform, hf]; rfl
          | some pid =>
            let t := s.emit (.fork (forkChild s pid p m vs))
            simp only [perform, hf]
            change forget ((recordChild pid t).bind fun s => .ok (Code.ok, s)) =
              (recordChild pid (quiet t)).bind fun s => .ok (Code.ok, s)
            rw [recordChild_quiet]
            cases recordChild pid t <;> rfl
  | [] | [_] | [_, _] | [_, _, _] => rfl

theorem callback_perform (cb : Callback) (d : Directive) (os : OsReply) (s : State) :
    forget (callback cb d os s) = perform os (quiet s) (request cb d.args.elems) := by
  cases cb with
  | cbEnv => exact cbEnv_perform d os s
  | cbTty => exact cbTty_perform d os s
  | cbEnable => exact cbEnable_perform d os s

/-- The interpreter does what a directive means, and nothing else but logging. -/
theorem interpretDirective_perform (d : Directive) (i n : Nat) (os : OsReply) (s : State) :
    forget (interpretDirective d i n os s) = perform os (quiet s) (meaning d) := by
  unfold interpretDirective meaning
  cases hd : d.args.elems with
  | nil => rfl
  | cons a as =>
    simp only
    cases ht : tableLookup a.str.rest a.len .function gDirectives with
    | none => rfl
    | some e =>
      obtain ⟨cb, hcb⟩ := gDirectives_function e (tableLookup_some ht).1
      obtain ⟨name, value⟩ := e
      subst hcb
      simp only
      rw [callback_perform, quiet_ilog, hd]

/-- What the interpreter meets: what each directive asks for, with the answers
of the operating system to it. -/
def script (os : Nat → OsReply) : Nat → List Directive → List (Option Stmt × OsReply)
  | _, [] => []
  | i, d :: ds => (meaning d, os i) :: script os (i + 1) ds

def performAll (s : State) : List (Option Stmt × OsReply) → Except Fault (Code × State)
  | [] => return (.ok, s)
  | (st, os) :: rest => do
    match ← perform os s st with
    | (.ok, s) => performAll s rest
    | (.err, s) => return (.err, s)

theorem interpretLoop_performAll (os : Nat → OsReply) (n : Nat) :
    ∀ (ds : List Directive) (i : Nat) (s : State),
      forget (interpretLoop os n i ds s) = performAll (quiet s) (script os i ds)
  | [], _, _ => rfl
  | d :: ds, i, s => by
    unfold interpretLoop script performAll
    rw [← interpretDirective_perform d i n]
    cases interpretDirective d i n (os i) s with
    | error f => rfl
    | ok r =>
      obtain ⟨code, t⟩ := r
      cases code with
      | ok => exact interpretLoop_performAll os n ds (i + 1) t
      | err => rfl

end SalernOS.Init.Meaning
