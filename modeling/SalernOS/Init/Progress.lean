import SalernOS.Init.Meaning

/-! # What a run of init amounts to

The abstract state of init: the environment, the options in force and the
children that were forked, in order. A request is accepted and changes it, or
it is refused. The interpreter follows it as long as `g_children` has room.
-/
namespace SalernOS.Init.Progress
open SalernOS.Lib SalernOS.Libc SalernOS.Init.Parse SalernOS.Init.Interpreter
open SalernOS.Init.Meaning

structure World where
  env : Env
  activeOptions : BitVec 32
  children : List Child
deriving DecidableEq, Repr

def World.start (env : Env) : World := ⟨env, 0, []⟩

/-- A request and the answers of the operating system to it. -/
abbrev Request := Option Stmt × OsReply

/-- The child that a request leaves behind, forked from this world. -/
def World.child (w : World) (pid : Pid) (path : Bytes) (mode : BitVec 32) (argv : List Bytes) :
    Child :=
  ⟨pid, path, mode, argv.map some ++ [none], w.env, w.activeOptions⟩

def World.step (w : World) : Request → Option World
  | (none, _) => none
  | (some (.env name value), os) => some { w with env := (setenv os.setenv w.env name value).2 }
  | (some (.tty path mode argv), os) =>
    os.fork.map fun pid => { w with children := w.children ++ [w.child pid path mode argv] }
  | (some (.enable option), _) => some { w with activeOptions := w.activeOptions ||| option }

/-- The world in which the requests leave off, and whether all were accepted. -/
def World.run (w : World) : List Request → Bool × World
  | [] => (true, w)
  | r :: rs =>
    match w.step r with
    | some w => w.run rs
    | none => (false, w)

/-! ## Requests -/

/-- Whether the request is accepted, in whatever world. -/
def accepted : Request → Bool
  | (none, _) => false
  | (some (.tty _ _ _), os) => os.fork.isSome
  | (some _, _) => true

/-- The child that the request leaves behind. -/
def forked : Request → Option Pid
  | (some (.tty _ _ _), os) => os.fork
  | _ => none

/-- The children forked before the first request that is refused. -/
def started (rs : List Request) : List Pid := (rs.takeWhile accepted).filterMap forked

def World.pids (w : World) : List Pid := w.children.map Child.pid

theorem step_isSome (w : World) (r : Request) : (w.step r).isSome = accepted r := by
  obtain ⟨_ | _ | _ | _, os⟩ := r <;> simp [World.step, accepted]

theorem step_pids {w w' : World} {r : Request} (h : w.step r = some w') :
    w'.pids = w.pids ++ (forked r).toList := by
  obtain ⟨_ | _ | ⟨path, mode, argv⟩ | _, os⟩ := r
  · cases h
  · cases h; simp [World.pids, forked]
  · obtain ⟨pid, hp, rfl⟩ := Option.map_eq_some_iff.mp h
    simp [World.pids, forked, World.child, hp]
  · cases h; simp [World.pids, forked]

theorem run_accepted : ∀ (rs : List Request) (w : World), (w.run rs).1 = rs.all accepted
  | [], _ => rfl
  | r :: rs, w => by
    have hs := step_isSome w r
    unfold World.run
    cases h : w.step r with
    | none => rw [h] at hs; simp [← hs]
    | some w' => rw [h] at hs; simp [← hs, run_accepted rs w']

theorem run_pids : ∀ (rs : List Request) (w : World), (w.run rs).2.pids = w.pids ++ started rs
  | [], _ => by simp [World.run, started]
  | r :: rs, w => by
    have hs := step_isSome w r
    unfold World.run
    cases h : w.step r with
    | none =>
      rw [h] at hs
      simp [started, ← hs]
    | some w' =>
      rw [h] at hs
      have ih := run_pids rs w'
      simp only [started] at ih ⊢
      rw [List.takeWhile_cons_of_pos hs.symm, ih, step_pids h]
      cases hf : forked r <;> simp [hf]

/-! ## The interpreter follows -/

def forkedChild : Event → Option Child
  | .fork c => some c
  | _ => none

def killSent : Event → Option (Pid × Nat)
  | .kill pid signo => some (pid, signo)
  | _ => none

def forks (trace : List Event) : List Child := trace.filterMap forkedChild
def kills (trace : List Event) : List (Pid × Nat) := trace.filterMap killSent

/-- The interpreter is where the world is, and has not killed anybody yet. -/
structure Follows (s : State) (w : World) : Prop where
  env : s.env = w.env
  activeOptions : s.gActiveOptions = w.activeOptions
  forks : forks s.trace = w.children
  kills : kills s.trace = []
  recorded : s.recorded = w.pids
  room : s.gNumChildren ≤ maxChildren

theorem recorded_length {s : State} (h : s.gNumChildren ≤ maxChildren) :
    s.recorded.length = s.gNumChildren := by
  simp [State.recorded, h]

theorem Follows.numChildren {s : State} {w : World} (h : Follows s w) :
    s.gNumChildren = w.pids.length := by
  rw [← recorded_length h.room, h.recorded]

theorem recordChild_room {s : State} (pid : Pid) (h : s.gNumChildren < maxChildren) :
    ∃ t, recordChild pid s = .ok t ∧ t.recorded = s.recorded ++ [pid] ∧
      t.gNumChildren = s.gNumChildren + 1 ∧ t.env = s.env ∧
      t.gActiveOptions = s.gActiveOptions ∧ t.trace = s.trace := by
  refine ⟨_, dif_pos h, ?_, rfl, rfl, rfl, rfl⟩
  simp only [State.recorded, Vector.toList_set]
  rw [List.take_add_one, List.take_set_of_le (Nat.le_refl _)]
  simp [h]

theorem recordChild_full {s : State} (pid : Pid) (h : ¬ s.gNumChildren < maxChildren) :
    recordChild pid s = .error .outOfBounds := dif_neg h

theorem forks_emit (s : State) (e : Event) :
    Progress.forks (s.emit e).trace = Progress.forks s.trace ++ (forkedChild e).toList := by
  simp only [Progress.forks, State.emit, List.filterMap_append]
  cases h : forkedChild e <;> simp [h]

theorem kills_emit (s : State) (e : Event) :
    Progress.kills (s.emit e).trace = Progress.kills s.trace ++ (killSent e).toList := by
  simp only [Progress.kills, State.emit, List.filterMap_append]
  cases h : killSent e <;> simp [h]

/-- What one request comes to: a refusal leaves the world as it is, and an
acceptance needs a slot for each child. -/
def Comes (w : World) (next : Option World) (r : Except Fault (Code × State)) : Prop :=
  match next with
  | none => ∃ t, r = .ok (.err, t) ∧ Follows t w
  | some w' =>
    if w'.pids.length ≤ maxChildren then ∃ t, r = .ok (.ok, t) ∧ Follows t w'
    else r = .error .outOfBounds

theorem perform_follows {s : State} {w : World} (h : Follows s w) (r : Request) :
    Comes w (w.step r) (perform r.2 s r.1) := by
  have hroom : w.pids.length ≤ maxChildren := h.numChildren ▸ h.room
  obtain ⟨_ | ⟨name, value⟩ | ⟨path, mode, argv⟩ | option, os⟩ := r
  · exact ⟨s, rfl, h⟩
  · refine (if_pos hroom).mpr ⟨_, rfl, ?_, h.activeOptions, ?_, ?_, h.recorded, h.room⟩
    · change (setenv os.setenv s.env name value).2 = _
      rw [h.env]
    · rw [forks_emit]; simpa [forkedChild] using h.forks
    · rw [kills_emit]; simpa [killSent] using h.kills
  · cases hf : os.fork with
    | none =>
      simp only [World.step, perform, hf, Option.map_none]
      refine ⟨_, rfl, h.env, h.activeOptions, ?_, ?_, h.recorded, h.room⟩
      · rw [forks_emit]; simpa [forkedChild] using h.forks
      · rw [kills_emit]; simpa [killSent] using h.kills
    | some pid =>
      simp only [World.step, perform, hf, Option.map_some, Comes]
      let t := s.emit (.fork (forkChild s pid path mode argv))
      have hlen : (World.pids { w with children := w.children ++
          [w.child pid path mode argv] }).length = s.gNumChildren + 1 := by
        simp [World.pids, h.numChildren]
      rw [hlen]
      split
      · next hlt =>
        obtain ⟨u, hu, hrec, hnum, henv, hopt, htr⟩ := recordChild_room (s := t) pid hlt
        refine ⟨u, by rw [hu]; rfl, ?_, ?_, ?_, ?_, ?_, ?_⟩
        · exact henv.trans h.env
        · exact hopt.trans h.activeOptions
        · rw [htr, forks_emit, h.forks]
          simp [forkedChild, forkChild, World.child, h.env, h.activeOptions]
        · rw [htr, kills_emit, h.kills]; rfl
        · rw [hrec]
          have : t.recorded = w.pids := h.recorded
          simp [this, World.pids, World.child]
        · rw [hnum]; exact hlt
      · next hge =>
        rw [recordChild_full (s := t) pid hge]; rfl
  · refine (if_pos hroom).mpr ⟨_, rfl, h.env, ?_, h.forks, h.kills, h.recorded, h.room⟩
    simp [h.activeOptions]

theorem run_pids_le {w : World} (rs : List Request) : w.pids.length ≤ (w.run rs).2.pids.length := by
  rw [run_pids, List.length_append]
  exact Nat.le_add_right _ _

/-- The code with which `interpret_config` returns. -/
def codeOf (allAccepted : Bool) : Code := if allAccepted then .ok else .err

theorem performAll_follows : ∀ (rs : List Request) {s : State} {w : World}, Follows s w →
    if (w.run rs).2.pids.length ≤ maxChildren then
      ∃ t, performAll s rs = .ok (codeOf (w.run rs).1, t) ∧ Follows t (w.run rs).2
    else performAll s rs = .error .outOfBounds
  | [], s, w, h => (if_pos (h.numChildren ▸ h.room)).mpr ⟨s, rfl, h⟩
  | r :: rs, s, w, h => by
    have hstep := perform_follows h r
    unfold World.run performAll
    cases hw : w.step r with
    | none =>
      rw [hw] at hstep
      obtain ⟨t, ht, hft⟩ := hstep
      simp only
      rw [if_pos (h.numChildren ▸ h.room), ht]
      exact ⟨t, rfl, hft⟩
    | some w' =>
      simp only [hw, Comes] at hstep ⊢
      by_cases hlen : w'.pids.length ≤ maxChildren
      · rw [if_pos hlen] at hstep
        obtain ⟨t, ht, hft⟩ := hstep
        rw [ht]
        exact performAll_follows rs hft
      · rw [if_neg hlen] at hstep
        rw [if_neg (fun hle => hlen (Nat.le_trans (run_pids_le rs) hle)), hstep]
        rfl

/-! ## `interpret_config` -/

/-- The signal to a child. -/
def release (pid : Pid) : Event := .kill pid sigusr1

/-- The loop sends a signal for each slot it walks over. -/
theorem releaseLoop_trace : ∀ (rounds i : Nat) (s : State), i + rounds ≤ maxChildren →
    ∃ t, releaseLoop rounds i s = .ok t ∧
      t.trace = s.trace ++ ((s.gChildren.toList.drop i).take rounds).map release
  | 0, i, s, _ => ⟨s, rfl, by simp⟩
  | rounds + 1, i, s, h => by
    have hi : i < maxChildren := by omega
    obtain ⟨t, ht, htr⟩ := releaseLoop_trace rounds (i + 1)
      (s.emit (.kill s.gChildren[i] sigusr1)) (by omega)
    refine ⟨t, ?_, ?_⟩
    · unfold releaseLoop
      rw [dif_pos hi, ht]
    · have hdrop : s.gChildren.toList.drop i =
          s.gChildren[i] :: s.gChildren.toList.drop (i + 1) := by
        rw [List.drop_eq_getElem_cons (by simpa using hi)]; simp
      rw [htr, hdrop]
      simp [State.emit, release]

theorem forks_release (trace : List Event) (pids : List Pid) :
    forks (trace ++ pids.map release) = forks trace := by
  have : forks (pids.map release) = [] := by simp [forks, forkedChild, release]
  rw [forks, List.filterMap_append]
  exact (congrArg (forks trace ++ ·) this).trans (List.append_nil _)

theorem kills_release (trace : List Event) (pids : List Pid) :
    kills (trace ++ pids.map release) = kills trace ++ pids.map fun pid => (pid, sigusr1) := by
  rw [kills, List.filterMap_append, List.filterMap_map]
  exact congrArg (kills trace ++ ·) (List.filterMap_eq_map' (f := fun pid => (pid, sigusr1)) ▸ rfl)

/-- What `interpret_config` does behind its first loop. -/
def finish : Code × State → Except Fault (Outcome × State)
  | (.err, s) => .ok (.returned .err, s)
  | (.ok, s) =>
    (releaseLoop s.gNumChildren 0 (s.ilog "sending SIGUSR1 to all children" [])).map
      fun s => (.returned .ok, s)

/-- The state behind `sigaction`. -/
def armed (s : State) : State :=
  (s.ilog "setting signal handler for SIGUSR1" []).emit (.sigaction true)

theorem interpretConfig_eq (os : Nat → OsReply) (ds : List Directive) (s : State) :
    interpretConfig true os ds s = (interpretLoop os ds.length 0 ds (armed s)).bind finish := by
  unfold interpretConfig
  change (interpretLoop os ds.length 0 ds (armed s)).bind _ = _
  rcases interpretLoop os ds.length 0 ds (armed s) with f | ⟨_ | _, t⟩
  · rfl
  · change (releaseLoop t.gNumChildren 0 _).bind _ = (releaseLoop t.gNumChildren 0 _).map _
    cases releaseLoop t.gNumChildren 0 (t.ilog "sending SIGUSR1 to all children" []) <;> rfl
  · rfl

/-- The first loop ends where the world does, unless it runs out of room. -/
theorem interpretConfig_finish (os : Nat → OsReply) (ds : List Directive) (env : Env) :
    let run := (World.start env).run (script os 0 ds)
    if run.2.pids.length ≤ maxChildren then
      ∃ u, interpretConfig true os ds (State.start env) = finish (codeOf run.1, u) ∧
        Follows u run.2
    else interpretConfig true os ds (State.start env) = .error .outOfBounds := by
  have hs : Follows (quiet (armed (State.start env))) (World.start env) :=
    ⟨rfl, rfl, rfl, rfl, rfl, Nat.zero_le _⟩
  have hall := performAll_follows (script os 0 ds) hs
  rw [← interpretLoop_performAll os ds.length] at hall
  generalize (World.start env).run (script os 0 ds) = run at hall ⊢
  simp only [interpretConfig_eq] at hall ⊢
  by_cases hlen : run.2.pids.length ≤ maxChildren
  · rw [if_pos hlen] at hall ⊢
    obtain ⟨q, hq, hfq⟩ := hall
    obtain ⟨u, hu, rfl⟩ := forget_eq_ok hq
    rw [hu]
    exact ⟨u, rfl, hfq.env, hfq.activeOptions, hfq.forks, hfq.kills, hfq.recorded, hfq.room⟩
  · rw [if_neg hlen] at hall ⊢
    rw [forget_eq_error hall]
    rfl

/-- **What a call of `interpret_config` amounts to.** It stops at the first
request that is refused; when there is none, it releases every child. -/
theorem interpretConfig_follows (os : Nat → OsReply) (ds : List Directive) (env : Env) :
    let run := (World.start env).run (script os 0 ds)
    if run.2.pids.length ≤ maxChildren then
      ∃ t before, interpretConfig true os ds (State.start env) =
          .ok (.returned (codeOf run.1), t) ∧
        t.trace = before ++ (if run.1 then run.2.pids else []).map release ∧
        forks before = run.2.children ∧ kills before = []
    else interpretConfig true os ds (State.start env) = .error .outOfBounds := by
  have hfinish := interpretConfig_finish os ds env
  generalize (World.start env).run (script os 0 ds) = run at hfinish ⊢
  obtain ⟨all, w⟩ := run
  simp only at hfinish ⊢
  by_cases hlen : w.pids.length ≤ maxChildren
  · rw [if_pos hlen] at hfinish ⊢
    obtain ⟨u, hu, hf⟩ := hfinish
    rw [hu]
    cases all with
    | false => exact ⟨u, u.trace, rfl, (List.append_nil _).symm, hf.forks, hf.kills⟩
    | true =>
      obtain ⟨t, ht, htr⟩ := releaseLoop_trace u.gNumChildren 0
        (u.ilog "sending SIGUSR1 to all children" []) (by simpa using hf.room)
      refine ⟨t, u.trace, ?_, ?_, hf.forks, hf.kills⟩
      · change (releaseLoop u.gNumChildren 0 _).map _ = _
        rw [ht]; rfl
      · change t.trace = u.trace ++ u.recorded.map release at htr
        rw [htr, hf.recorded]; rfl
  · rw [if_neg hlen] at hfinish ⊢
    exact hfinish

end SalernOS.Init.Progress
