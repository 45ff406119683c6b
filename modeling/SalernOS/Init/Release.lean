import SalernOS.Init.ParseSound
import SalernOS.Init.Progress

/-! # Whether every child is released

A child spins in `wait_start_signal` until it has been sent `SIGUSR1`. The loop
that sends it stands behind the loop over the directives, which returns at the
first directive that fails.
-/
namespace SalernOS.Init.Release
open SalernOS.Lib SalernOS.Libc SalernOS.Init.Parse SalernOS.Init.Interpreter
open SalernOS.Init.Meaning SalernOS.Init.ParseSound SalernOS.Init.Progress

/-- No child that was forked is left waiting when `interpret_config` returns. -/
def Released (r : Except Fault (Outcome × State)) : Prop :=
  match r with
  | .ok (.returned _, s) => ∀ c ∈ forks s.trace, (c.pid, sigusr1) ∈ kills s.trace
  | .ok (.exited, _) => True
  | .error _ => False

/-- **When every child is released.** Exactly when the signal handler cannot be
set, or the directives before the first refused one fit their children into
`g_children` and there is no refused one, or none of them forked a child. -/
theorem released_iff (sigactionOk : Bool) (os : Nat → OsReply) (ds : List Directive) (env : Env) :
    Released (interpretConfig sigactionOk os ds (State.start env)) ↔
      sigactionOk = false ∨
        ((started (script os 0 ds)).length ≤ maxChildren ∧
          ((script os 0 ds).all accepted = true ∨ started (script os 0 ds) = [])) := by
  cases sigactionOk with
  | false => exact iff_of_true trivial (.inl rfl)
  | true =>
    have hfollow := interpretConfig_follows os ds env
    have hpids := run_pids (script os 0 ds) (World.start env)
    have hacc := run_accepted (script os 0 ds) (World.start env)
    rw [show (World.start env).pids = [] from rfl, List.nil_append] at hpids
    generalize (World.start env).run (script os 0 ds) = run at hfollow hpids hacc
    simp only [hpids, hacc] at hfollow
    rw [or_iff_right (by simp)]
    by_cases hroom : (started (script os 0 ds)).length ≤ maxChildren
    · rw [if_pos hroom] at hfollow
      obtain ⟨t, before, ht, htr, hforks, hkills⟩ := hfollow
      have hstart : started (script os 0 ds) = (forks before).map Child.pid := by
        rw [hforks, ← hpids]; rfl
      rw [ht, and_iff_right hroom]
      change (∀ c ∈ forks t.trace, (c.pid, sigusr1) ∈ kills t.trace) ↔ _
      rw [htr, forks_release, kills_release, hkills, List.nil_append]
      cases hall : (script os 0 ds).all accepted with
      | true =>
        refine iff_of_true (fun c hc => ?_) (.inl rfl)
        rw [if_pos rfl, hstart]
        exact List.mem_map_of_mem (List.mem_map_of_mem hc)
      | false =>
        rw [or_iff_right (by simp), hstart]
        simp [List.eq_nil_iff_forall_not_mem]
    · rw [if_neg hroom] at hfollow
      rw [hfollow]
      exact iff_of_false not_false (fun h => hroom h.1)

instance (r : Except Fault (Outcome × State)) : Decidable (Released r) :=
  match r with
  | .ok (.returned _, s) =>
    inferInstanceAs (Decidable (∀ c ∈ forks s.trace, (c.pid, sigusr1) ∈ kills s.trace))
  | .ok (.exited, _) => .isTrue trivial
  | .error _ => .isFalse not_false

/-- A program on a terminal, and on the next line a directive that does not exist. -/
def halfConfig : CString :=
  CString.joinLine ⟨ascii "tty /dev/tty1 $TTY_TEXT_MODE /bin/sh", by decide⟩
    ⟨ascii "login", by decide⟩

theorem halfConfig_not_released : ∃ ds, configOf halfConfig = some ds ∧
    ¬ Released (interpretConfig true (fun _ => ⟨true, some 2⟩) ds (State.start [])) :=
  ⟨_, rfl, by decide⟩

end SalernOS.Init.Release
