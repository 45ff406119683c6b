import Mathlib.Data.List.Nodup
import SalernOS.Init.ParseSound
import SalernOS.Init.Processes

/-! # The start barrier

The parent alone comes to what `interpret_config` comes to, whatever its
children do. Each child is held in front of `wait_start_signal` until its
signal has been sent and delivered, and no signal is sent to it again.
-/
namespace SalernOS.Init.Barrier
open SalernOS.Lib SalernOS.Libc SalernOS.Init.Parse SalernOS.Init.Interpreter
open SalernOS.Init.ParseSound SalernOS.Init.Meaning SalernOS.Init.Progress
open SalernOS.Init.Processes

/-! ## The parent is `interpret_config` -/

/-- The part of `interpret_config` behind its first loop. -/
def afterLoop (r : Except Fault (Code × State)) : Except Fault (Outcome × State) :=
  r.bind fun
    | (.err, s) => .ok (.returned .err, s)
    | (.ok, s) => (releaseLoop s.gNumChildren 0 s).map fun t => (.returned .ok, t)

/-- What `interpret_config` comes to from here, without its log. -/
def comesTo (sigactionOk : Bool) (os : Nat → OsReply) (s : State) :
    Pc → Except Fault (Outcome × State)
  | .setup ds =>
    let s := s.emit (.sigaction sigactionOk)
    if sigactionOk then afterLoop (performAll s (script os 0 ds)) else .ok (.exited, s)
  | .directives i ds => afterLoop (performAll s (script os i ds))
  | .recording pid i ds =>
    (recordChild pid s).bind fun t => afterLoop (performAll t (script os i ds))
  | .releasing i =>
    (releaseLoop (s.gNumChildren - i) i s).map fun t => (.returned .ok, t)
  | .returned code => .ok (.returned code, s)
  | .exited => .ok (.exited, s)
  | .faulted f => .error f

theorem releaseLoop_quiet : ∀ (rounds i : Nat) (s : State),
    releaseLoop rounds i (quiet s) = (releaseLoop rounds i s).map quiet
  | 0, _, _ => rfl
  | rounds + 1, i, s => by
    unfold releaseLoop
    by_cases h : i < maxChildren
    · rw [dif_pos h, dif_pos h]
      exact releaseLoop_quiet rounds (i + 1) (s.emit (.kill s.gChildren[i] sigusr1))
    · rw [dif_neg h, dif_neg h]
      rfl

theorem comesTo_start (sigactionOk : Bool) (os : Nat → OsReply) (ds : List Directive) (env : Env) :
    comesTo sigactionOk os (State.start env) (.setup ds) =
      forget (interpretConfig sigactionOk os ds (State.start env)) := by
  cases sigactionOk with
  | false => rfl
  | true =>
    rw [interpretConfig_eq]
    change afterLoop (performAll (quiet (armed (State.start env))) (script os 0 ds)) = _
    rw [← interpretLoop_performAll os ds.length]
    rcases interpretLoop os ds.length 0 ds (armed (State.start env)) with f | ⟨_ | _, t⟩
    · rfl
    · change (releaseLoop t.gNumChildren 0 (quiet t)).map _ =
        forget ((releaseLoop t.gNumChildren 0 (t.ilog _ [])).map _)
      rw [← quiet_ilog t, releaseLoop_quiet]
      cases releaseLoop t.gNumChildren 0 (t.ilog "sending SIGUSR1 to all children" []) <;> rfl
    · rfl

theorem forked_eq_none {m : Option Stmt} {os : OsReply}
    (h : ∀ path mode argv pid, m = some (.tty path mode argv) → os.fork = some pid → False) :
    forked (m, os) = none := by
  rcases m with _ | _ | ⟨path, mode, argv⟩ | _
  · rfl
  · rfl
  · cases hf : os.fork with
    | none => exact hf
    | some pid => exact (h path mode argv pid rfl hf).elim
  · rfl

/-- What the next directive can do: fork a child that is still to be recorded,
or what `perform` does, which is then no such fork. -/
theorem directive_cases {os : OsReply} {i : Nat} {d : Directive} {ds : List Directive} {s t : Sys}
    (h : s.directive os i d ds = some t) :
    (∃ path mode argv pid, meaning d = some (.tty path mode argv) ∧ os.fork = some pid ∧
      pid ∉ s.pids ∧
      t = { s with pc := .recording pid (i + 1) ds,
                   init := s.init.emit (.fork (forkChild s.init pid path mode argv)),
                   procs := s.procs ++ [s.spawn (forkChild s.init pid path mode argv)] }) ∨
    (forked (meaning d, os) = none ∧
      match perform os s.init (meaning d) with
      | .ok (.ok, u) => t = { s with pc := .directives (i + 1) ds, init := u }
      | .ok (.err, u) => t = { s with pc := .returned .err, init := u }
      | .error f => t = { s with pc := .faulted f }) := by
  unfold Sys.directive at h
  generalize meaning d = m at h ⊢
  split at h
  · next path mode argv pid hf =>
    split at h
    · cases h
    · next hfresh => exact .inl ⟨path, mode, argv, pid, rfl, hf, hfresh, (Option.some.inj h).symm⟩
  · next m _ _ hother =>
    refine .inr ⟨forked_eq_none hother, ?_⟩
    generalize perform os s.init m = r at h ⊢
    rcases r with f | ⟨_ | _, u⟩ <;> exact (Option.some.inj h).symm

theorem performAll_cons (s : State) (r : Request) (rs : List Request) :
    performAll s (r :: rs) = (perform r.2 s r.1).bind fun
      | (.ok, s) => performAll s rs
      | (.err, s) => .ok (.err, s) := by
  obtain ⟨st, os⟩ := r
  rw [performAll]
  rcases perform os s st with f | ⟨_ | _, t⟩ <;> rfl

/-- One round of the second loop. -/
theorem comesTo_releasing (sigactionOk : Bool) (os : Nat → OsReply) (s : State) {i : Nat}
    (hi : i < s.gNumChildren) : comesTo sigactionOk os s (.releasing i) =
      if h : i < maxChildren then
        comesTo sigactionOk os (s.emit (.kill s.gChildren[i] sigusr1)) (.releasing (i + 1))
      else .error .outOfBounds := by
  obtain ⟨k, hk⟩ : ∃ k, s.gNumChildren - i = k + 1 := ⟨_, (Nat.succ_pred (by omega)).symm⟩
  have hk' : s.gNumChildren - (i + 1) = k := by omega
  rw [comesTo, hk, releaseLoop]
  split
  · next hb =>
    change _ = (releaseLoop (s.gNumChildren - (i + 1)) (i + 1) _).map _
    rw [hk']
  · rfl

theorem parent_comesTo {sigactionOk : Bool} {os : Nat → OsReply} {s t : Sys}
    (h : s.parent sigactionOk os = some t) :
    comesTo sigactionOk os t.init t.pc = comesTo sigactionOk os s.init s.pc := by
  unfold Sys.parent at h
  split at h
  · next ds hpc =>
    rw [hpc]
    cases sigactionOk <;> cases h <;> rfl
  · next i hpc =>
    rw [hpc]
    cases h
    rfl
  · next i d ds hpc =>
    rw [hpc]
    change _ = afterLoop (performAll s.init ((meaning d, os i) :: script os (i + 1) ds))
    rw [performAll_cons]
    rcases directive_cases h with ⟨path, mode, argv, pid, hm, hf, -, rfl⟩ | ⟨-, hp⟩
    · let u := s.init.emit (.fork (forkChild s.init pid path mode argv))
      simp only [hm, perform, hf]
      change ((recordChild pid u).bind fun t => _) =
        afterLoop (((recordChild pid u).bind fun t => .ok (Code.ok, t)).bind _)
      cases recordChild pid u <;> rfl
    · simp only
      generalize perform (os i) s.init (meaning d) = r at hp ⊢
      rcases r with f | ⟨_ | _, u⟩ <;> cases hp <;> rfl
  · next pid i ds hpc =>
    rw [hpc]
    change _ = (recordChild pid s.init).bind fun t => afterLoop (performAll t (script os i ds))
    generalize recordChild pid s.init = r at h ⊢
    cases r <;> cases h <;> rfl
  · next i hpc =>
    rw [hpc]
    split at h
    · next hi =>
      rw [comesTo_releasing _ _ _ hi]
      split at h
      · next hb =>
        cases h
        rw [dif_pos hb]
      · next hb =>
        cases h
        rw [dif_neg hb]
        rfl
    · next hi =>
      cases h
      rw [comesTo, comesTo, show s.init.gNumChildren - i = 0 by omega]
      rfl
  · cases h
  · cases h
  · cases h

/-- Whatever init and its children have done so far, init comes to what
`interpret_config` comes to. -/
theorem reachable_comesTo {sigactionOk : Bool} {os : Nat → OsReply} {ds : List Directive}
    {env : Env} {s : Sys} (h : Reachable (Sys.step sigactionOk os) (Sys.start env ds) s) :
    comesTo sigactionOk os s.init s.pc =
      forget (interpretConfig sigactionOk os ds (State.start env)) := by
  rw [← comesTo_start]
  refine h.constant (f := fun s => comesTo sigactionOk os s.init s.pc) fun s a t hs => ?_
  cases a with
  | parent => exact parent_comesTo hs
  | child pid ok => cases hs; rfl
  | deliver pid => cases hs; rfl

/-! ## The stages of a child -/

/-- Where a child is, before (`false`) and after (`true`) its signal is sent. -/
inductive Stage : Bool → Proc → Prop where
  | held {p : Proc} : p.phase.held = true → p.pending = false → p.handled = false →
      p.gTtyLock = 1 → p.disposition = .handleSigusr1 → Stage false p
  | signalled {p : Proc} : p.phase.held = true → p.pending = true → p.handled = false →
      p.gTtyLock = 1 → p.disposition = .handleSigusr1 → Stage true p
  | released {p : Proc} : p.phase.alive = true → p.pending = false → p.handled = true →
      p.gTtyLock = 0 → (p.phase = .running ∨ p.disposition = .handleSigusr1) → Stage true p
  | dead {p : Proc} (sent : Bool) : p.phase = .exited → (p.handled = true → p.gTtyLock = 0) →
      Stage sent p

theorem Phase.alive_of_held {ph : Phase} (h : ph.held = true) : ph.alive = true := by
  cases ph <;> first | rfl | cases h

/-- A statement of a child that is held back leaves it held back, or ends it. -/
theorem step_held {p : Proc} (ok : Bool) (h : p.phase.held = true) (hl : p.gTtyLock = 1) :
    ∃ ph, p.step ok = { p with phase := ph } ∧ (ph.held = true ∨ ph = .exited) := by
  unfold Proc.step
  cases hp : p.phase with
  | opening =>
    cases ok with
    | true => exact ⟨.dupStdout, rfl, .inl rfl⟩
    | false => exact ⟨.exited, rfl, .inr rfl⟩
  | dupStdout => exact ⟨_, rfl, .inl rfl⟩
  | dupStdin => exact ⟨_, rfl, .inl rfl⟩
  | dupStderr => exact ⟨_, rfl, .inl rfl⟩
  | setsid => exact ⟨_, rfl, .inl rfl⟩
  | setCtty =>
    refine ⟨_, rfl, .inl ?_⟩
    split <;> rfl
  | setMode => exact ⟨_, rfl, .inl rfl⟩
  | waitStartSignal =>
    have hspin : p.gTtyLock ≠ 0 := by rw [hl]; decide
    exact ⟨p.phase, if_pos hspin, .inl h⟩
  | clearing | execv | running | exited | killed => rw [hp] at h; cases h

/-- A statement of a child that has been released ends it, or keeps the handler
until `execv` succeeds. -/
theorem step_alive {p : Proc} (ok : Bool) (h : p.phase.alive = true) :
    ∃ ph d, p.step ok = { p with phase := ph, disposition := d } ∧
      (ph = .exited ∨ ph.alive = true ∧ (ph = .running ∨ p.phase ≠ .running ∧ d = p.disposition)) := by
  unfold Proc.step
  cases hp : p.phase with
  | opening =>
    cases ok with
    | true => exact ⟨.dupStdout, _, rfl, .inr ⟨rfl, .inr ⟨nofun, rfl⟩⟩⟩
    | false => exact ⟨.exited, _, rfl, .inl rfl⟩
  | execv =>
    cases ok with
    | true => exact ⟨.running, _, rfl, .inr ⟨rfl, .inl rfl⟩⟩
    | false => exact ⟨.exited, _, rfl, .inl rfl⟩
  | setCtty =>
    refine ⟨_, _, rfl, .inr ⟨?_, .inr ⟨nofun, rfl⟩⟩⟩
    split <;> rfl
  | waitStartSignal =>
    simp only
    split
    · exact ⟨p.phase, p.disposition, rfl, .inr ⟨h, .inr ⟨nofun, rfl⟩⟩⟩
    split <;> exact ⟨_, _, rfl, .inr ⟨rfl, .inr ⟨nofun, rfl⟩⟩⟩
  | running => exact ⟨p.phase, p.disposition, rfl, .inr ⟨h, .inl hp⟩⟩
  | dupStdout | dupStdin | dupStderr | setsid | setMode | clearing =>
    exact ⟨_, _, rfl, .inr ⟨rfl, .inr ⟨nofun, rfl⟩⟩⟩
  | exited | killed => rw [hp] at h; cases h

theorem Stage.step {sent : Bool} {p : Proc} (ok : Bool) (h : Stage sent p) :
    Stage sent (p.step ok) := by
  cases h with
  | held hp hpend hhand hlock hdisp =>
    obtain ⟨ph, he, hph | hph⟩ := step_held ok hp hlock
    · rw [he]; exact .held hph hpend hhand hlock hdisp
    · rw [he]; exact .dead false hph (fun h => by rw [hhand] at h; cases h)
  | signalled hp hpend hhand hlock hdisp =>
    obtain ⟨ph, he, hph | hph⟩ := step_held ok hp hlock
    · rw [he]; exact .signalled hph hpend hhand hlock hdisp
    · rw [he]; exact .dead true hph (fun h => by rw [hhand] at h; cases h)
  | released halive hpend hhand hlock hdisp =>
    obtain ⟨ph, d, he, hph | ⟨hph, hd⟩⟩ := step_alive ok halive
    · rw [he]; exact .dead true hph (fun _ => hlock)
    · rw [he]
      refine .released hph hpend hhand hlock ?_
      rcases hd with hrun | ⟨hnot, rfl⟩
      · exact .inl hrun
      · exact .inr (hdisp.resolve_left hnot)
  | dead _ hp hl =>
    have : p.step ok = p := by unfold Proc.step; rw [hp]
    rw [this]
    exact .dead sent hp hl

theorem Stage.deliver {sent : Bool} {p : Proc} (h : Stage sent p) : Stage sent p.deliver := by
  unfold Proc.deliver
  cases h with
  | held hp hpend hhand hlock hdisp =>
    rw [if_neg (by simp [hpend])]
    exact .held hp hpend hhand hlock hdisp
  | signalled hp hpend hhand hlock hdisp =>
    rw [if_pos ⟨hpend, Phase.alive_of_held hp⟩, hdisp]
    exact .released (Phase.alive_of_held hp) rfl rfl rfl (.inr rfl)
  | released halive hpend hhand hlock hdisp =>
    rw [if_neg (by simp [hpend])]
    exact .released halive hpend hhand hlock hdisp
  | dead _ hp hl =>
    rw [if_neg (by simp [hp, Phase.alive])]
    exact .dead sent hp hl

theorem Stage.signal {p : Proc} (h : Stage false p) : Stage true p.signal := by
  cases h with
  | held hp hpend hhand hlock hdisp => exact .signalled hp rfl hhand hlock hdisp
  | dead _ hp hl => exact .dead true hp hl

/-! ## All processes -/

/-- A directive that asks for a child. -/
def asksForTty (d : Directive) : Bool :=
  match meaning d with
  | some (.tty _ _ _) => true
  | _ => false

/-- The signal handler is set. -/
def Pc.armed : Pc → Bool
  | .setup _ | .exited => false
  | _ => true

def Pc.unrecorded : Pc → List Pid
  | .recording pid _ _ => [pid]
  | _ => []

/-- The slots that may still be needed. -/
def Pc.demand : Pc → Nat
  | .setup ds | .directives _ ds => ds.countP asksForTty
  | .recording _ _ ds => ds.countP asksForTty + 1
  | _ => 0

/-- How many children have been sent their signal. -/
def Sys.sent (s : Sys) : Nat :=
  match s.pc with
  | .releasing i => i
  | .returned .ok => s.procs.length
  | _ => 0

structure Inv (s : Sys) : Prop where
  lock : s.gTtyLock = 1
  armed : Pc.armed s.pc = true → s.disposition = .handleSigusr1
  bare : Pc.armed s.pc = false → s.procs = []
  nodup : s.pids.Nodup
  recorded : s.init.recorded ++ Pc.unrecorded s.pc = s.pids
  room : s.init.gNumChildren + Pc.demand s.pc ≤ maxChildren
  sound : ∀ f, s.pc ≠ .faulted f
  stage : ∀ k p, s.procs[k]? = some p → Stage (decide (k < Sys.sent s)) p

theorem inv_start {env : Env} {ds : List Directive} (h : ds.countP asksForTty ≤ maxChildren) :
    Inv (Sys.start env ds) where
  lock := rfl
  armed := nofun
  bare := fun _ => rfl
  nodup := List.nodup_nil
  recorded := rfl
  room := by rw [show (Sys.start env ds).init.gNumChildren = 0 from rfl, Nat.zero_add]; exact h
  sound := nofun
  stage := fun k p h => by cases h

/-! ### Children and signals -/

theorem onPid_getElem? (pid : Pid) (f : Proc → Proc) (ps : List Proc) (k : Nat) :
    (onPid pid f ps)[k]? = ps[k]?.map fun p => if p.pid = pid then f p else p :=
  List.getElem?_map ..

theorem onPid_pids {pid : Pid} {f : Proc → Proc} (hf : ∀ p, (f p).pid = p.pid) (ps : List Proc) :
    (onPid pid f ps).map Proc.pid = ps.map Proc.pid := by
  rw [onPid, List.map_map]
  refine List.map_congr_left fun p _ => ?_
  simp only [Function.comp_apply]
  split
  · exact hf p
  · rfl

theorem pid_step (ok : Bool) (p : Proc) : (p.step ok).pid = p.pid := by
  unfold Proc.step
  split <;> (try split) <;> (try split) <;> rfl

theorem pid_deliver (p : Proc) : p.deliver.pid = p.pid := by
  unfold Proc.deliver
  split <;> (try split) <;> rfl

/-- A step of one process that keeps its stage keeps the invariant. -/
theorem Inv.one {s : Sys} (h : Inv s) (pid : Pid) {f : Proc → Proc}
    (hpid : ∀ p, (f p).pid = p.pid) (hf : ∀ sent p, Stage sent p → Stage sent (f p)) :
    Inv { s with procs := onPid pid f s.procs } := by
  have hlen : (onPid pid f s.procs).length = s.procs.length := List.length_map ..
  have hsent : Sys.sent { s with procs := onPid pid f s.procs } = Sys.sent s := by
    unfold Sys.sent
    simp only [hlen]
  refine { h with bare := fun hb => ?_, nodup := ?_, recorded := ?_, stage := fun k p hp => ?_ }
  · simp only [h.bare hb]; rfl
  · rw [Sys.pids, onPid_pids hpid]; exact h.nodup
  · rw [Sys.pids, onPid_pids hpid]; exact h.recorded
  · rw [hsent]
    obtain ⟨q, hq, rfl⟩ := Option.map_eq_some_iff.mp (onPid_getElem? pid f s.procs k ▸ hp)
    split
    · exact hf _ _ (h.stage k q hq)
    · exact h.stage k q hq

/-! ### The parent -/

theorem perform_keeps {m : Option Stmt} {os : OsReply} (s : State) (h : forked (m, os) = none) :
    ∃ c u, perform os s m = .ok (c, u) ∧ u.recorded = s.recorded ∧
      u.gNumChildren = s.gNumChildren := by
  rcases m with _ | _ | ⟨path, mode, argv⟩ | _
  · exact ⟨_, _, rfl, rfl, rfl⟩
  · exact ⟨_, _, rfl, rfl, rfl⟩
  · have hf : os.fork = none := h
    refine ⟨.err, s.emit .forkFailed, ?_, rfl, rfl⟩
    simp only [perform, hf]
    rfl
  · exact ⟨_, _, rfl, rfl, rfl⟩

/-- A move of init that leaves its children alone. -/
theorem Inv.move {s : Sys} (h : Inv s) {pc : Pc} {init : State} (harmed : Pc.armed s.pc = true)
    (harmed' : Pc.armed pc = true)
    (hrec : init.recorded ++ Pc.unrecorded pc = s.init.recorded ++ Pc.unrecorded s.pc)
    (hroom : init.gNumChildren + Pc.demand pc ≤ s.init.gNumChildren + Pc.demand s.pc)
    (hsound : ∀ f, pc ≠ .faulted f)
    (hsent : ∀ k < s.procs.length, k < Sys.sent { s with pc := pc, init := init } ↔ k < Sys.sent s) :
    Inv { s with pc := pc, init := init } where
  lock := h.lock
  armed := fun _ => h.armed harmed
  bare := fun hb => by rw [harmed'] at hb; cases hb
  nodup := h.nodup
  recorded := hrec.trans h.recorded
  room := Nat.le_trans hroom h.room
  sound := hsound
  stage := fun k p hp => by
    obtain ⟨hk, -⟩ := List.getElem?_eq_some_iff.mp hp
    rw [decide_eq_decide.mpr (hsent k hk)]
    exact h.stage k p hp

theorem Inv.spawn {s : Sys} (h : Inv s) {i : Nat} {d : Directive} {ds : List Directive}
    (hpc : s.pc = .directives i (d :: ds)) (hd : asksForTty d = true) {c : Child}
    (hfresh : c.pid ∉ s.pids) :
    Inv { s with pc := .recording c.pid (i + 1) ds, init := s.init.emit (.fork c),
                 procs := s.procs ++ [s.spawn c] } := by
  have hsent : Sys.sent s = 0 := by unfold Sys.sent; rw [hpc]
  have harmed : Pc.armed s.pc = true := by rw [hpc]; rfl
  have hpids : (s.procs ++ [s.spawn c]).map Proc.pid = s.pids ++ [c.pid] := by
    rw [List.map_append]; rfl
  have hrec := h.recorded
  have hroom := h.room
  rw [hpc] at hrec hroom
  refine ⟨h.lock, fun _ => h.armed harmed, nofun, ?_, ?_, ?_, nofun, fun k p hp => ?_⟩
  · rw [Sys.pids, hpids]
    exact List.nodup_append.mpr ⟨h.nodup, List.nodup_singleton _, fun a ha b hb => by
      rw [List.mem_singleton.mp hb]
      intro he
      exact hfresh (he ▸ ha)⟩
  · rw [Sys.pids, hpids, ← hrec]
    exact congrArg (· ++ [c.pid]) (List.append_nil _).symm
  · refine Nat.le_trans (Nat.le_of_eq ?_) hroom
    simp only [Pc.demand, List.countP_cons_of_pos hd]
    rfl
  · have hold := h.stage
    rw [hsent] at hold
    rcases Nat.lt_or_ge k s.procs.length with hk | hk
    · rw [List.getElem?_append_left hk] at hp
      exact hold k p hp
    · rw [List.getElem?_append_right hk] at hp
      obtain ⟨rfl, -⟩ : p = s.spawn c ∧ True := by
        cases hz : k - s.procs.length with
        | zero => rw [hz] at hp; cases hp; exact ⟨rfl, trivial⟩
        | succ n => rw [hz] at hp; cases hp
      exact .held rfl rfl rfl h.lock (h.armed harmed)

theorem Inv.directive {s t : Sys} (h : Inv s) {os : OsReply} {i : Nat} {d : Directive}
    {ds : List Directive} (hpc : s.pc = .directives i (d :: ds))
    (ht : s.directive os i d ds = some t) : Inv t := by
  rcases directive_cases ht with ⟨path, mode, argv, pid, hm, -, hfresh, rfl⟩ | ⟨hf, hp⟩
  · exact h.spawn (c := forkChild s.init pid path mode argv) hpc (by simp [asksForTty, hm]) hfresh
  · obtain ⟨c, u, hr, hrec, hnum⟩ := perform_keeps s.init hf
    have harmed : Pc.armed s.pc = true := by rw [hpc]; rfl
    have hun : Pc.unrecorded s.pc = [] := by rw [hpc]; rfl
    have hdem : ds.countP asksForTty ≤ Pc.demand s.pc := by
      rw [hpc]
      exact (List.sublist_cons_self d ds).countP_le
    have hsent : Sys.sent s = 0 := by unfold Sys.sent; rw [hpc]
    rw [hr] at hp
    cases c with
    | ok =>
      cases hp
      refine h.move harmed rfl (by rw [hrec, hun]; rfl) ?_ nofun fun k _ => by rw [hsent]; rfl
      rw [hnum]; exact Nat.add_le_add_left hdem _
    | err =>
      cases hp
      refine h.move harmed rfl (by rw [hrec, hun]; rfl) ?_ nofun fun k _ => by rw [hsent]; rfl
      rw [hnum]; exact Nat.le_add_right _ _

theorem recorded_getElem {s : State} {i : Nat} (hi : i < s.gNumChildren) (hb : i < maxChildren) :
    s.recorded[i]? = some s.gChildren[i] := by
  rw [State.recorded, List.getElem?_take_of_lt hi]
  simp [hb]

theorem Inv.release {s : Sys} (h : Inv s) {i : Nat} (hpc : s.pc = .releasing i)
    (hi : i < s.init.gNumChildren) (hb : i < maxChildren) :
    Inv { s with pc := .releasing (i + 1), init := s.init.emit (.kill s.init.gChildren[i] sigusr1),
                 procs := onPid s.init.gChildren[i] Proc.signal s.procs } := by
  have hsent : Sys.sent s = i := by unfold Sys.sent; rw [hpc]
  have hpids : (onPid s.init.gChildren[i] Proc.signal s.procs).map Proc.pid = s.pids :=
    onPid_pids (f := Proc.signal) (fun _ => rfl) _
  have hrec := h.recorded
  have hroom := h.room
  rw [hpc] at hrec hroom
  have hpid : s.pids[i]? = some s.init.gChildren[i] := by
    rw [← hrec, ← recorded_getElem hi hb]
    exact congrArg (·[i]?) (List.append_nil _)
  refine ⟨h.lock, fun _ => h.armed (by rw [hpc]; rfl), nofun, ?_, ?_, hroom, nofun,
    fun k p hp => ?_⟩
  · rw [Sys.pids, hpids]; exact h.nodup
  · rw [Sys.pids, hpids]; exact hrec
  · obtain ⟨q, hq, rfl⟩ := Option.map_eq_some_iff.mp (onPid_getElem? _ Proc.signal s.procs k ▸ hp)
    have hk : s.pids[k]? = some q.pid := by rw [Sys.pids, List.getElem?_map, hq]; rfl
    have hold := h.stage k q hq
    rw [hsent] at hold
    change Stage (decide (k < i + 1)) _
    split
    · next he =>
      -- the pids are distinct, so this is the child of slot `i`
      obtain rfl : k = i := (List.getElem?_inj (by
        exact (List.getElem?_eq_some_iff.mp hk).1) h.nodup).mp (by rw [hk, hpid, he])
      rw [decide_eq_false (Nat.lt_irrefl k)] at hold
      rw [decide_eq_true (Nat.lt_succ_self k)]
      exact hold.signal
    · next hne =>
      have hki : k ≠ i := by
        rintro rfl
        rw [hk] at hpid
        exact hne (Option.some.inj hpid)
      rwa [decide_eq_decide.mpr (show k < i + 1 ↔ k < i by omega)]

/-- `sigaction` has been called, and no child has been forked yet. -/
theorem Inv.setup {s : Sys} (h : Inv s) {ds : List Directive} (hpc : s.pc = .setup ds) (e : Event) :
    Inv { s with pc := .directives 0 ds, init := s.init.emit e, disposition := .handleSigusr1 } ∧
      Inv { s with pc := .exited, init := s.init.emit e } := by
  have hbare : s.procs = [] := h.bare (by rw [hpc]; rfl)
  have hnone : ∀ b (k : Nat) (p : Proc), s.procs[k]? = some p → Stage b p := by
    intro b k p hp
    rw [hbare] at hp
    cases hp
  have hrec := h.recorded
  have hroom := h.room
  rw [hpc] at hrec hroom
  constructor
  · exact ⟨h.lock, fun _ => rfl, nofun, h.nodup, hrec, hroom, nofun, fun k => hnone _ k⟩
  · exact ⟨h.lock, nofun, fun _ => hbare, h.nodup, hrec, Nat.le_trans (Nat.le_add_right _ _) hroom,
      nofun, fun k => hnone _ k⟩

/-- There is a slot for the child that is recorded. -/
theorem Inv.record {s : Sys} (h : Inv s) {pid : Pid} {i : Nat} {ds : List Directive}
    (hpc : s.pc = .recording pid i ds) :
    ∃ u, recordChild pid s.init = .ok u ∧ Inv { s with pc := .directives i ds, init := u } := by
  have hroom := h.room
  rw [hpc] at hroom
  simp only [Pc.demand] at hroom
  obtain ⟨u, hu, hrec, hnum, -⟩ := recordChild_room (s := s.init) pid (by omega)
  refine ⟨u, hu, h.move (by rw [hpc]; rfl) rfl ?_ ?_ nofun fun k _ => ?_⟩
  · rw [hrec, hpc]; exact List.append_nil _
  · rw [hnum, hpc]; simp only [Pc.demand]; omega
  · unfold Sys.sent; rw [hpc]

/-- Behind the last round, every child has been sent its signal. -/
theorem Inv.returned {s : Sys} (h : Inv s) {i : Nat} (hpc : s.pc = .releasing i)
    (hi : ¬ i < s.init.gNumChildren) : Inv { s with pc := .returned .ok } := by
  refine h.move (by rw [hpc]; rfl) rfl (by rw [hpc]; rfl) (by rw [hpc]; exact Nat.le_refl _) nofun
    fun k hk => ?_
  have hrec := h.recorded
  have hlen : s.procs.length = s.init.gNumChildren := by
    rw [← recorded_length (Nat.le_trans (Nat.le_add_right _ _) h.room),
      ← List.length_map (f := Proc.pid)]
    rw [hpc] at hrec
    exact congrArg List.length (hrec.symm.trans (List.append_nil _))
  unfold Sys.sent
  rw [hpc]
  exact iff_of_true hk (show k < i by omega)

theorem Inv.parent {sigactionOk : Bool} {os : Nat → OsReply} {s t : Sys} (h : Inv s)
    (ht : s.parent sigactionOk os = some t) : Inv t := by
  unfold Sys.parent at ht
  split at ht
  · next ds hpc =>
    cases sigactionOk with
    | true => cases ht; exact (h.setup hpc _).1
    | false => cases ht; exact (h.setup hpc _).2
  · next i hpc =>
    cases ht
    refine h.move (by rw [hpc]; rfl) rfl (by rw [hpc]; rfl) (by rw [hpc]; exact Nat.le_refl _) nofun
      fun k _ => ?_
    unfold Sys.sent
    rw [hpc]
  · next i d ds hpc => exact h.directive hpc ht
  · next pid i ds hpc =>
    obtain ⟨u, hu, hinv⟩ := h.record hpc
    rw [hu] at ht
    cases ht
    exact hinv
  · next i hpc =>
    split at ht
    · next hi =>
      have hroom := h.room
      rw [hpc] at hroom
      have hb : i < maxChildren := Nat.lt_of_lt_of_le hi hroom
      rw [dif_pos hb] at ht
      cases ht
      exact h.release hpc hi hb
    · next hi =>
      cases ht
      exact h.returned hpc hi
  · cases ht
  · cases ht
  · cases ht

theorem inv_step {sigactionOk : Bool} {os : Nat → OsReply} {s t : Sys} {a : Act} (h : Inv s)
    (ht : s.step sigactionOk os a = some t) : Inv t := by
  cases a with
  | parent => exact h.parent ht
  | child pid ok => cases ht; exact h.one pid (pid_step ok) fun _ _ => Stage.step ok
  | deliver pid => cases ht; exact h.one pid pid_deliver fun _ _ => Stage.deliver

/-! ## The barrier -/

/-- The loop over the directives has ended without an error. -/
def Pc.processed : Pc → Bool
  | .releasing _ | .returned .ok => true
  | _ => false

/-- What holds of init and its children at any time. -/
structure Safe (s : Sys) : Prop where
  sound : ∀ f, s.pc ≠ .faulted f
  /-- No child gets to `execv` early. -/
  barrier : ∀ p ∈ s.procs, p.phase.reachedExecv = true → Pc.processed s.pc = true
  /-- A child that has run its handler does not spin. -/
  notLost : ∀ p ∈ s.procs, p.handled = true → p.gTtyLock = 0
  /-- When init is done, each child has its signal, or is about to get it. -/
  signalled : s.pc = .returned .ok → ∀ p ∈ s.procs, p.phase.alive = true →
    p.pending = true ∨ p.handled = true
  /-- A signal that can be delivered finds the handler. -/
  handler : ∀ p ∈ s.procs, p.pending = true → p.phase.alive = true →
    p.disposition = .handleSigusr1
  noneKilled : ∀ p ∈ s.procs, p.phase ≠ .killed

theorem processed_of_sent {s : Sys} {k : Nat} (h : k < Sys.sent s) : Pc.processed s.pc = true := by
  unfold Sys.sent at h
  split at h
  · next hpc => rw [hpc]; rfl
  · next hpc => rw [hpc]; rfl
  · cases h

theorem Inv.safe {s : Sys} (h : Inv s) : Safe s := by
  have stage : ∀ p ∈ s.procs, ∃ k, k < s.procs.length ∧ Stage (decide (k < Sys.sent s)) p := by
    intro p hp
    obtain ⟨k, hk, he⟩ := List.getElem_of_mem hp
    exact ⟨k, hk, h.stage k p (List.getElem?_eq_some_iff.mpr ⟨hk, he⟩)⟩
  refine ⟨h.sound, fun p hp hexec => ?_, fun p hp hhand => ?_, fun hpc p hp halive => ?_,
    fun p hp hpend halive => ?_, fun p hp hkill => ?_⟩
  all_goals obtain ⟨k, hk, hst⟩ := stage p hp
  · by_cases hsent : k < Sys.sent s
    · exact processed_of_sent hsent
    · rw [decide_eq_false hsent] at hst
      cases hst with
      | held hheld => cases hph : p.phase <;> rw [hph] at hheld hexec <;> contradiction
      | dead _ hdead => rw [hdead] at hexec; cases hexec
  · generalize decide (k < Sys.sent s) = sent at hst
    cases hst with
    | held _ _ hno | signalled _ _ hno => rw [hno] at hhand; cases hhand
    | released _ _ _ hlock => exact hlock
    | dead _ _ hlock => exact hlock hhand
  · have hsent : k < Sys.sent s := by unfold Sys.sent; rw [hpc]; exact hk
    rw [decide_eq_true hsent] at hst
    cases hst with
    | signalled _ hpend => exact .inl hpend
    | released _ _ hhand => exact .inr hhand
    | dead _ hdead => rw [hdead] at halive; cases halive
  · generalize decide (k < Sys.sent s) = sent at hst
    cases hst with
    | held _ hno | released _ hno => rw [hno] at hpend; cases hpend
    | signalled _ _ _ _ hdisp => exact hdisp
    | dead _ hdead => rw [hdead] at halive; cases halive
  · generalize decide (k < Sys.sent s) = sent at hst
    cases hst with
    | held hheld | signalled hheld => rw [hkill] at hheld; cases hheld
    | released halive => rw [hkill] at halive; cases halive
    | dead _ hdead => rw [hkill] at hdead; cases hdead

theorem Inv.releaseLoop_ok {s : Sys} (h : Inv s) (i : Nat) :
    ∃ t, releaseLoop (s.init.gNumChildren - i) i s.init = .ok t := by
  have hroom : s.init.gNumChildren ≤ maxChildren := Nat.le_trans (Nat.le_add_right _ _) h.room
  rcases Nat.lt_or_ge i s.init.gNumChildren with hi | hi
  · obtain ⟨t, ht, _⟩ := releaseLoop_trace (s.init.gNumChildren - i) i s.init (by omega)
    exact ⟨t, ht⟩
  · rw [Nat.sub_eq_zero_of_le hi]
    exact ⟨s.init, rfl⟩

/-- Behind the loop over the directives, `interpret_config` is on its way to
report success. -/
theorem processed_returns_ok {sigactionOk : Bool} {os : Nat → OsReply} {env : Env}
    {ds : List Directive} {s : Sys} (hroom : ds.countP asksForTty ≤ maxChildren)
    (h : Reachable (Sys.step sigactionOk os) (Sys.start env ds) s)
    (hp : Pc.processed s.pc = true) :
    ∃ t, interpretConfig sigactionOk os ds (State.start env) = .ok (.returned .ok, t) := by
  have hinv : Inv s := h.invariant (inv_start hroom) fun _ _ _ => inv_step
  have hcomes := (reachable_comesTo h).symm
  suffices ∃ t, comesTo sigactionOk os s.init s.pc = .ok (.returned .ok, t) by
    obtain ⟨t, ht⟩ := this
    obtain ⟨u, hu, _⟩ := forget_eq_ok (hcomes.trans ht)
    exact ⟨u, hu⟩
  unfold Pc.processed at hp
  split at hp
  · next i hpc =>
    obtain ⟨t, ht⟩ := hinv.releaseLoop_ok i
    rw [hpc]
    exact ⟨t, by rw [comesTo, ht]; rfl⟩
  · next hpc =>
    rw [hpc]
    exact ⟨s.init, rfl⟩
  · cases hp

/-- **The start barrier.** In every order of steps of init and its children,
with signals delivered at any time: no child gets to `execv` before init has
processed every directive, no signal is lost and no child is killed by one. -/
theorem start_barrier (sigactionOk : Bool) (os : Nat → OsReply) (env : Env) (ds : List Directive)
    (hroom : ds.countP asksForTty ≤ maxChildren) (s : Sys)
    (h : Reachable (Sys.step sigactionOk os) (Sys.start env ds) s) : Safe s :=
  (h.invariant (inv_start hroom) fun _ _ _ => inv_step).safe

/-- A shell on a terminal. -/
def shellDirectives : List Directive :=
  (configOf ⟨ascii "tty /dev/tty0 $TTY_TEXT_MODE /bin/sh", by decide⟩).getD []

/-- The child runs on while init is busy, and gets its signal while it spins. -/
def shellActs : List Act :=
  let child := List.replicate 8 (Act.child 2 true)
  [.parent, .parent] ++ child ++ [.parent, .parent, .parent, .deliver 2] ++ child ++ [.parent]

def shellRun : Option Sys :=
  runAll (Sys.step true fun _ => ⟨true, some 2⟩) (Sys.start [] shellDirectives) shellActs

theorem shell_barrier : ∃ s, shellRun = some s ∧ s.procs.map Proc.phase = [.running] ∧ Safe s := by
  have h : (shellRun.map fun s => s.procs.map Proc.phase) = some [.running] := by decide
  obtain ⟨s, hs, hp⟩ := Option.map_eq_some_iff.mp h
  exact ⟨s, hs, hp, start_barrier true _ [] shellDirectives (by decide) s (Reachable.start.runAll hs)⟩

end SalernOS.Init.Barrier
