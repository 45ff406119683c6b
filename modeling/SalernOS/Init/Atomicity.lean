import SalernOS.Init.ParseSound
import SalernOS.Init.Progress

/-! # Whether a directive takes effect as a whole

`cb_tty` looks at what `fork` returns; `cb_env` does not look at what `setenv`
returns.
-/
namespace SalernOS.Init.Atomicity
open SalernOS.Lib SalernOS.Libc SalernOS.Init.Parse SalernOS.Init.Interpreter
open SalernOS.Init.Meaning SalernOS.Init.ParseSound SalernOS.Init.Progress

/-! ## The environment -/

theorem setenv_fails {ok : Bool} {env : Env} {name value : Bytes}
    (h : ¬ (ok = true ∧ name ≠ [] ∧ equals ∉ name)) : setenv ok env name value = (false, env) :=
  if_neg h

/-- The variable has the value, unless `setenv` fails and it had another. -/
theorem getenv_setenv_iff (ok : Bool) (env : Env) (name value : Bytes) :
    getenv (setenv ok env name value).2 name = some value ↔
      (ok = true ∧ name ≠ [] ∧ equals ∉ name) ∨ getenv env name = some value := by
  by_cases h : ok = true ∧ name ≠ [] ∧ equals ∉ name
  · obtain ⟨rfl, hname⟩ := h
    exact iff_of_true (getenv_setenv env name value hname) (.inl ⟨rfl, hname⟩)
  · rw [setenv_fails h, or_iff_right h]

/-! ## One directive -/

/-- What a directive asks for has been done between `s` and `t`. -/
def TookPlace (s t : State) : Stmt → Prop
  | .env name value => getenv t.env name = some value
  | .enable option => t.gActiveOptions = s.gActiveOptions ||| option
  | .tty path mode argv => ∃ pid,
      forks t.trace = forks s.trace ++ [forkChild s pid path mode argv] ∧
      t.recorded = s.recorded ++ [pid]

/-- A directive is done as a whole, or it is refused and leaves the state of
the parent as it was. -/
def AllOrNothing (d : Directive) (s : State) (r : Except Fault (Code × State)) : Prop :=
  match r with
  | .ok (.ok, t) => ∃ st, meaning d = some st ∧ TookPlace s t st
  | .ok (.err, t) => t.env = s.env ∧ t.gActiveOptions = s.gActiveOptions ∧
      t.gChildren = s.gChildren ∧ t.gNumChildren = s.gNumChildren
  | .error _ => False

/-- What the request needs: `setenv` succeeds, or the variable has that value
already; and `g_children` has a slot for the child. -/
def Possible (os : OsReply) (s : State) : Option Stmt → Prop
  | some (.env name value) =>
    (os.setenv = true ∧ name ≠ [] ∧ equals ∉ name) ∨ getenv s.env name = some value
  | some (.tty _ _ _) => os.fork.isSome = true → s.gNumChildren < maxChildren
  | _ => True

/-- The log has no part in it. -/
theorem allOrNothing_forget {d : Directive} {s : State} {r : Except Fault (Code × State)} :
    AllOrNothing d s (forget r) ↔ AllOrNothing d s r := by
  rcases r with f | ⟨_ | _, t⟩
  · exact Iff.rfl
  · refine exists_congr fun st => and_congr_right fun _ => ?_
    cases st <;> exact Iff.rfl
  · exact Iff.rfl

theorem allOrNothing_perform (d : Directive) (os : OsReply) (s : State) :
    AllOrNothing d s (perform os (quiet s) (meaning d)) ↔ Possible os s (meaning d) := by
  have took : ∀ {st t}, meaning d = some st →
      (AllOrNothing d s (.ok (.ok, t)) ↔ TookPlace s t st) := by
    intro st t hst
    constructor
    · rintro ⟨st', hst', h⟩
      rw [hst] at hst'
      cases hst'
      exact h
    · exact fun h => ⟨st, hst, h⟩
  cases hm : meaning d with
  | none => exact iff_of_true ⟨rfl, rfl, rfl, rfl⟩ trivial
  | some st =>
    cases st with
    | env name value => exact (took hm).trans (getenv_setenv_iff os.setenv s.env name value)
    | enable option => exact iff_of_true ((took hm).mpr rfl) trivial
    | tty path mode argv =>
      unfold perform Possible
      cases hf : os.fork with
      | none => exact iff_of_true ⟨rfl, rfl, rfl, rfl⟩ (by simp)
      | some pid =>
        let t := (quiet s).emit (.fork (forkChild s pid path mode argv))
        rw [forall_prop_of_true (by simp)]
        change AllOrNothing d s ((recordChild pid t).bind fun s => .ok (Code.ok, s)) ↔ _
        by_cases hroom : s.gNumChildren < maxChildren
        · obtain ⟨u, hu, hrec, -, -, -, htr⟩ := recordChild_room (s := t) pid hroom
          rw [hu]
          refine iff_of_true ((took hm).mpr ⟨pid, ?_, hrec⟩) hroom
          rw [htr, forks_emit]
          rfl
        · rw [recordChild_full (s := t) pid hroom]
          exact iff_of_false not_false hroom

/-- **When a directive is all or nothing.** Exactly when what it asks for is
possible: no other evaluation step and no other answer makes a difference. -/
theorem allOrNothing_iff (d : Directive) (i n : Nat) (os : OsReply) (s : State) :
    AllOrNothing d s (interpretDirective d i n os s) ↔ Possible os s (meaning d) := by
  rw [← allOrNothing_forget, interpretDirective_perform, allOrNothing_perform]

/-- A variable without a name. -/
def namelessEnv : CString := ⟨ascii "env \"\" on", by decide⟩

/-- `setenv` refuses the empty name, and the directive is reported as done. -/
theorem namelessEnv_half_done : ∃ d, configOf namelessEnv = some [d] ∧
    ¬ AllOrNothing d (State.start [])
      (interpretDirective d 0 1 ⟨true, none⟩ (State.start [])) := by
  refine ⟨_, rfl, fun h => ?_⟩
  obtain ⟨st, hst, htook⟩ := h
  cases hst
  cases htook

end SalernOS.Init.Atomicity
