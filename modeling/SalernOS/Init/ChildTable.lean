import SalernOS.Init.ParseSound
import SalernOS.Init.Progress

/-! # The bounds of `g_children`

`cb_tty` stores a pid for each child it forks, and `g_num_children` counts on.
Nothing relates the number of `tty` directives to the twenty slots.
-/
namespace SalernOS.Init.ChildTable
open SalernOS.Lib SalernOS.Libc SalernOS.Init.Parse SalernOS.Init.Interpreter
open SalernOS.Init.Meaning SalernOS.Init.ParseSound SalernOS.Init.Progress

/-- The slots in use are the pids of the children, in the order of the forks. -/
structure Recorded (s : State) : Prop where
  room : s.gNumChildren ≤ maxChildren
  pids : s.gChildren.toList.take s.gNumChildren = (forks s.trace).map Child.pid

/-- No index leaves `g_children`, and at the end it holds the children. -/
def Bounded (r : Except Fault (Outcome × State)) : Prop :=
  match r with
  | .ok (_, s) => Recorded s
  | .error f => f ≠ .outOfBounds

theorem Recorded.of_follows {s : State} {w : World} (h : Follows s w) : Recorded s where
  room := h.room
  pids := h.recorded.trans (by rw [h.forks]; rfl)

theorem releaseLoop_children : ∀ {rounds i : Nat} {s t : State},
    releaseLoop rounds i s = .ok t → t.gChildren = s.gChildren ∧ t.gNumChildren = s.gNumChildren
  | 0, _, s, t, h => by cases h; exact ⟨rfl, rfl⟩
  | rounds + 1, i, s, t, h => by
    unfold releaseLoop at h
    split at h
    · exact releaseLoop_children (s := s.emit _) h
    · cases h

/-- The loop that releases the children stays within the slots in use, and
leaves them as they are. -/
theorem Recorded.releaseLoop {s : State} (h : Recorded s) :
    ∃ t, releaseLoop s.gNumChildren 0 s = .ok t ∧ Recorded t := by
  obtain ⟨t, ht, htr⟩ := releaseLoop_trace s.gNumChildren 0 s (by simpa using h.room)
  obtain ⟨hc, hn⟩ := releaseLoop_children ht
  refine ⟨t, ht, hn ▸ h.room, ?_⟩
  rw [htr, forks_release, hc, hn]
  exact h.pids

theorem Recorded.finish {s : State} (h : Recorded s) (code : Code) :
    Bounded (finish (code, s)) := by
  cases code with
  | err => exact h
  | ok =>
    let u := s.ilog "sending SIGUSR1 to all children" []
    have hu : Recorded u := ⟨h.room, h.pids⟩
    obtain ⟨t, ht, hrec⟩ := hu.releaseLoop
    change Bounded (Except.map _ (Interpreter.releaseLoop u.gNumChildren 0 u))
    rw [ht]
    exact hrec

theorem start_run_pids (os : Nat → OsReply) (ds : List Directive) (env : Env) :
    ((World.start env).run (script os 0 ds)).2.pids = started (script os 0 ds) :=
  run_pids (script os 0 ds) (World.start env)

/-- The child behind the last slot is stored out of bounds. -/
theorem interpretConfig_full {os : Nat → OsReply} {ds : List Directive} (env : Env)
    (h : ¬ (started (script os 0 ds)).length ≤ maxChildren) :
    interpretConfig true os ds (State.start env) = .error .outOfBounds := by
  rw [← start_run_pids os ds env] at h
  exact (if_neg h).mp (interpretConfig_finish os ds env)

/-- **When `g_children` is large enough.** Exactly when the signal handler
cannot be set, or no more children are forked before the first refused
directive than there are slots. -/
theorem bounded_iff (sigactionOk : Bool) (os : Nat → OsReply) (ds : List Directive) (env : Env) :
    Bounded (interpretConfig sigactionOk os ds (State.start env)) ↔
      sigactionOk = false ∨ (started (script os 0 ds)).length ≤ maxChildren := by
  cases sigactionOk with
  | false => exact iff_of_true ⟨Nat.zero_le _, rfl⟩ (.inl rfl)
  | true =>
    rw [or_iff_right (by simp)]
    by_cases hlen : (started (script os 0 ds)).length ≤ maxChildren
    · have hrun := start_run_pids os ds env ▸ hlen
      obtain ⟨u, hu, hf⟩ := (if_pos hrun).mp (interpretConfig_finish os ds env)
      rw [hu]
      exact iff_of_true ((Recorded.of_follows hf).finish _) hlen
    · rw [interpretConfig_full env hlen]
      exact iff_of_false (fun h => h rfl) hlen

/-- A directive for a terminal, given again and again, forks as often. -/
theorem started_replicate {d : Directive} {path : Bytes} {mode : BitVec 32} {argv : List Bytes}
    (hd : meaning d = some (.tty path mode argv)) {os : OsReply} {pid : Pid}
    (hos : os.fork = some pid) : ∀ n i : Nat,
    started (script (fun _ => os) i (List.replicate n d)) = List.replicate n pid
  | 0, _ => rfl
  | n + 1, i => by
    have ih := started_replicate hd hos n (i + 1)
    simp only [started] at ih
    simp [started, script, List.replicate_succ, hd, hos, accepted, forked, ih]

/-- Twenty-one programs on a terminal. -/
theorem crowded_not_bounded :
    ∃ d, configOf ⟨ascii "tty /dev/tty $TTY_TEXT_MODE /bin/login", by decide⟩ = some [d] ∧
      ¬ Bounded (interpretConfig true (fun _ => ⟨true, some 2⟩) (List.replicate 21 d)
        (State.start [])) := by
  refine ⟨_, rfl, fun h => ?_⟩
  rw [interpretConfig_full] at h
  · exact h rfl
  · rw [started_replicate rfl rfl]
    decide

end SalernOS.Init.ChildTable
