import Mathlib.Algebra.GroupWithZero.Nat
import Mathlib.Data.Nat.Pairing
import SalernOS.Lib.Fairness
import SalernOS.Init.ExecDescriptors

/-! # Every fair run settles

Whatever the order of steps, init comes to what `interpret_config` comes to,
and then every child that has not failed runs its program; or, when init gives
up, spins for ever. Each step either changes nothing or leaves less to do.
-/
namespace SalernOS.Init.Completion
open SalernOS.Lib SalernOS.Init.Parse SalernOS.Init.Interpreter SalernOS.Init.Meaning
open SalernOS.Init.Progress SalernOS.Init.Processes SalernOS.Init.Barrier

/-! ## What is left to do -/

/-- How many statements a child still has in front of it. -/
def Phase.left : Phase → Nat
  | .opening => 10
  | .dupStdout => 9
  | .dupStdin => 8
  | .dupStderr => 7
  | .setsid => 6
  | .setCtty => 5
  | .setMode => 4
  | .waitStartSignal => 3
  | .clearing => 2
  | .execv => 1
  | .running | .exited | .killed => 0

def Proc.work (p : Proc) : Nat := Phase.left p.phase + p.pending.toNat

/-- The parent's part; a directive is worth the child that it may fork. -/
def Pc.work (numChildren : Nat) : Pc → Nat
  | .setup ds => 20 * ds.length + 2 * numChildren + 3
  | .directives _ ds => 20 * ds.length + 2 * numChildren + 2
  | .recording _ _ ds => 20 * ds.length + 2 * numChildren + 5
  | .releasing i => 2 * (numChildren - i) + 1
  | .returned _ | .exited | .faulted _ => 0

def procsWork (ps : List Proc) : Nat := (ps.map Proc.work).sum

def Sys.work (s : Sys) : Nat := Pc.work s.init.gNumChildren s.pc + procsWork s.procs

/-! ### One process -/

/-- The next statement of the child takes it further. -/
structure Proc.Steps (p : Proc) : Prop where
  alive : p.phase.alive = true
  notRunning : p.phase ≠ .running
  notHeld : p.phase = .waitStartSignal → p.gTtyLock = 0

/-- There is a signal to be delivered. -/
structure Proc.Signalled (p : Proc) : Prop where
  alive : p.phase.alive = true
  pending : p.pending = true

theorem work_of_left {p : Proc} {ph : Phase} {d : Disposition}
    (h : Phase.left ph < Phase.left p.phase) :
    Proc.work { p with phase := ph, disposition := d } < Proc.work p := Nat.add_lt_add_right h _

theorem step_work (ok : Bool) (p : Proc) : p.step ok = p ∨ Proc.work (p.step ok) < Proc.work p := by
  unfold Proc.step
  cases hp : p.phase with
  | opening | execv =>
    right
    cases ok <;> exact work_of_left (by rw [hp]; decide)
  | dupStdout | dupStdin | dupStderr | setsid | setMode | clearing =>
    exact .inr (work_of_left (by rw [hp]; decide))
  | setCtty =>
    right
    refine work_of_left ?_
    rw [hp]
    by_cases hm : p.image.ttyMode = ttyGfx.setWidth 32
    · rw [if_pos hm]; decide
    · rw [if_neg hm]; decide
  | waitStartSignal =>
    by_cases hl : p.gTtyLock ≠ 0
    · exact .inl (if_pos hl)
    right
    by_cases ho : optClear.setWidth 32 &&& p.image.activeOptions ≠ 0
    · simp only [if_neg hl, if_pos ho]
      exact work_of_left (by rw [hp]; decide)
    · simp only [if_neg hl, if_neg ho]
      exact work_of_left (by rw [hp]; decide)
  | running | exited | killed => exact .inl rfl

theorem step_moves {p : Proc} (ok : Bool) (h : Proc.Steps p) : p.step ok ≠ p := by
  intro he
  have hphase := congrArg Proc.phase he
  unfold Proc.step at hphase
  cases hp : p.phase with
  | opening | execv => rw [hp] at hphase; cases ok <;> cases hphase
  | dupStdout | dupStdin | dupStderr | setsid | setMode | clearing => rw [hp] at hphase; cases hphase
  | setCtty =>
    rw [hp] at hphase
    simp only at hphase
    split at hphase <;> cases hphase
  | waitStartSignal =>
    rw [hp] at hphase
    simp only [h.notHeld hp, ne_eq, not_true_eq_false, if_false] at hphase
    split at hphase <;> cases hphase
  | running => exact h.notRunning hp
  | exited | killed => have := h.alive; rw [hp] at this; cases this

theorem deliver_work (p : Proc) : p.deliver = p ∨ Proc.work p.deliver < Proc.work p := by
  unfold Proc.deliver
  split
  · next h =>
    right
    unfold Proc.work
    split <;> simp [h.1, Phase.left]
  · exact .inl rfl

theorem deliver_moves {p : Proc} (h : Proc.Signalled p) : p.deliver ≠ p := by
  intro he
  have hpending := congrArg Proc.pending he
  unfold Proc.deliver at hpending
  rw [if_pos ⟨h.pending, h.alive⟩, h.pending] at hpending
  split at hpending <;> cases hpending

theorem signal_work (p : Proc) : Proc.work p.signal ≤ Proc.work p + 1 := by
  unfold Proc.work Proc.signal
  simp only [Bool.toNat_true]
  omega

/-! ### One process among all -/

section
variable {f : Proc → Proc}

theorem onPid_work (pid : Pid) (hf : ∀ p, f p = p ∨ Proc.work (f p) < Proc.work p)
    (ps : List Proc) : onPid pid f ps = ps ∨ procsWork (onPid pid f ps) < procsWork ps := by
  induction ps with
  | nil => exact .inl rfl
  | cons p ps ih =>
    have hhead : (if p.pid = pid then f p else p) = p ∨
        Proc.work (if p.pid = pid then f p else p) < Proc.work p := by
      split
      · exact hf p
      · exact .inl rfl
    show (if p.pid = pid then f p else p) :: onPid pid f ps = p :: ps ∨
      Proc.work (if p.pid = pid then f p else p) + procsWork (onPid pid f ps) <
        Proc.work p + procsWork ps
    rcases hhead with hp | hp <;> rcases ih with hps | hps
    · exact .inl (by rw [hp, hps])
    · right; rw [hp]; omega
    · right; rw [hps]; omega
    · right; omega

theorem onPid_fixed {pid : Pid} {ps : List Proc} (h : onPid pid f ps = ps) :
    ∀ p ∈ ps, p.pid = pid → f p = p := by
  intro p hp hpid
  have hmap : ps.map (fun p => if p.pid = pid then f p else p) = ps.map id := by
    rw [List.map_id]; exact h
  have := List.map_inj_left.mp hmap p hp
  rwa [if_pos hpid] at this

/-- What moves one of the processes does a part of the work. -/
theorem onPid_works {pid : Pid} {ps : List Proc} (hf : ∀ p, f p = p ∨ Proc.work (f p) < Proc.work p)
    {p : Proc} (hp : p ∈ ps) (hpid : p.pid = pid) (hmoves : f p ≠ p) :
    procsWork (onPid pid f ps) < procsWork ps := by
  rcases onPid_work pid hf ps with he | hlt
  · exact absurd (onPid_fixed he p hp hpid) hmoves
  · exact hlt

theorem onPid_signal_work (pid : Pid) : ∀ {ps : List Proc}, (ps.map Proc.pid).Nodup →
    procsWork (onPid pid Proc.signal ps) ≤ procsWork ps + 1
  | [], _ => by simp [onPid, procsWork]
  | p :: ps, h => by
    obtain ⟨hnot, hnodup⟩ := List.nodup_cons.mp h
    show Proc.work (if p.pid = pid then p.signal else p) + procsWork (onPid pid Proc.signal ps) ≤
      Proc.work p + procsWork ps + 1
    split
    · next hp =>
      -- no other process has this pid
      have hrest : onPid pid Proc.signal ps = ps := by
        refine (List.map_congr_left fun q hq => ?_).trans (List.map_id _)
        rw [if_neg fun hqp => hnot (by rw [hp, ← hqp]; exact List.mem_map_of_mem hq)]
        rfl
      rw [hrest]
      have := signal_work p
      omega
    · have := onPid_signal_work pid hnodup
      omega

end

/-! ### The parent -/

theorem procsWork_append (ps : List Proc) (p : Proc) :
    procsWork (ps ++ [p]) = procsWork ps + Proc.work p := by
  simp [procsWork]

theorem directive_work {s t : Sys} {os : OsReply} {i : Nat} {d : Directive} {ds : List Directive}
    (hpc : s.pc = .directives i (d :: ds)) (ht : s.directive os i d ds = some t) :
    Sys.work t < Sys.work s := by
  have hs : Sys.work s = 20 * (ds.length + 1) + 2 * s.init.gNumChildren + 2 + procsWork s.procs := by
    rw [Sys.work, hpc]
    rfl
  rcases directive_cases ht with ⟨path, mode, argv, pid, -, -, -, rfl⟩ | ⟨hf, hp⟩
  · have hchild : Proc.work (s.spawn (forkChild s.init pid path mode argv)) = 10 := rfl
    show 20 * ds.length + 2 * s.init.gNumChildren + 5 + procsWork (s.procs ++ [_]) < Sys.work s
    rw [procsWork_append, hchild]
    omega
  · obtain ⟨c, u, hr, -, hnum⟩ := perform_keeps s.init hf
    rw [hr] at hp
    cases c with
    | ok =>
      cases hp
      show 20 * ds.length + 2 * u.gNumChildren + 2 + procsWork s.procs < Sys.work s
      omega
    | err =>
      cases hp
      show 0 + procsWork s.procs < Sys.work s
      omega

theorem parent_work {sigactionOk : Bool} {os : Nat → OsReply} {s t : Sys} (h : Inv s)
    (ht : s.parent sigactionOk os = some t) : Sys.work t < Sys.work s := by
  unfold Sys.parent at ht
  split at ht
  · next ds hpc =>
    have hs : Sys.work s = 20 * ds.length + 2 * s.init.gNumChildren + 3 + procsWork s.procs := by
      rw [Sys.work, hpc]; rfl
    cases sigactionOk with
    | true =>
      cases ht
      show 20 * ds.length + 2 * s.init.gNumChildren + 2 + procsWork s.procs < _
      omega
    | false =>
      cases ht
      show 0 + procsWork s.procs < _
      omega
  · next i hpc =>
    cases ht
    rw [Sys.work, Sys.work, hpc]
    simp only [Pc.work, List.length_nil]
    omega
  · next i d ds hpc => exact directive_work hpc ht
  · next pid i ds hpc =>
    obtain ⟨u, hu, -⟩ := h.record hpc
    have hnum : u.gNumChildren = s.init.gNumChildren + 1 := by
      unfold recordChild at hu
      split at hu <;> cases hu
      rfl
    rw [hu] at ht
    cases ht
    rw [Sys.work, Sys.work, hpc]
    simp only [Pc.work, hnum]
    omega
  · next i hpc =>
    have hs : Sys.work s = 2 * (s.init.gNumChildren - i) + 1 + procsWork s.procs := by
      rw [Sys.work, hpc]; rfl
    split at ht
    · next hi =>
      split at ht
      · next hb =>
        cases ht
        have hsignal := onPid_signal_work s.init.gChildren[i] h.nodup
        show 2 * (s.init.gNumChildren - (i + 1)) + 1 + procsWork (onPid _ _ s.procs) < _
        omega
      · cases ht
        show 0 + procsWork s.procs < _
        omega
    · cases ht
      show 0 + procsWork s.procs < _
      omega
  · cases ht
  · cases ht
  · cases ht

/-! ## Who can go on -/

/-- Who takes a step; how a call of the child ends is not a matter of turns. -/
inductive Turn where
  | parent
  | child (pid : Pid)
  | deliver (pid : Pid)

def Act.turn : Act → Turn
  | .parent => .parent
  | .child pid _ => .child pid
  | .deliver pid => .deliver pid

/-- Init has not returned and not ended. -/
def Pc.busy : Pc → Bool
  | .returned _ | .exited | .faulted _ => false
  | _ => true

def Helps : Turn → Sys → Prop
  | .parent, s => Pc.busy s.pc = true
  | .child pid, s => ∃ p ∈ s.procs, p.pid = pid ∧ Proc.Steps p
  | .deliver pid, s => ∃ p ∈ s.procs, p.pid = pid ∧ Proc.Signalled p

/-- `fork` gives each child a pid of its own. -/
def FreshPids (os : Nat → OsReply) : Prop :=
  ∀ i j pid, (os i).fork = some pid → (os j).fork = some pid → i = j

/-- How many directives have had their `fork`. -/
def Pc.reached : Pc → Option Nat
  | .setup _ => some 0
  | .directives i _ | .recording _ i _ => some i
  | _ => none

/-- The children are from the directives before this one. -/
def FromEarlier (os : Nat → OsReply) (s : Sys) : Prop :=
  ∀ i, Pc.reached s.pc = some i → ∀ pid ∈ s.pids, ∃ j < i, (os j).fork = some pid

section
variable {sigactionOk : Bool} {os : Nat → OsReply} {env : Env} {ds : List Directive} {s t : Sys}

theorem fromEarlier_parent (h : FromEarlier os s) (hbare : Pc.armed s.pc = false → s.procs = [])
    (ht : s.parent sigactionOk os = some t) : FromEarlier os t := by
  intro k hk
  unfold Sys.parent at ht
  split at ht
  · next ds hpc =>
    have hnone : s.procs = [] := hbare (by rw [hpc]; rfl)
    cases sigactionOk <;> cases ht <;> simp [Sys.pids, hnone]
  · cases ht
    cases hk
  · next i d ds hpc =>
    have hold := h i (by rw [hpc]; rfl)
    rcases directive_cases ht with ⟨path, mode, argv, pid, -, hf, -, rfl⟩ | ⟨hnot, hp⟩
    · cases hk
      intro q hq
      rw [Sys.pids, List.map_append] at hq
      rcases List.mem_append.mp hq with hq | hq
      · obtain ⟨j, hj, hfork⟩ := hold q hq
        exact ⟨j, by omega, hfork⟩
      · refine ⟨i, by omega, ?_⟩
        rw [List.mem_singleton.mp hq]
        exact hf
    · obtain ⟨c, u, hr, -⟩ := perform_keeps s.init hnot
      rw [hr] at hp
      cases c <;> cases hp <;> cases hk
      intro q hq
      obtain ⟨j, hj, hfork⟩ := hold q hq
      exact ⟨j, by omega, hfork⟩
  · next pid i ds hpc =>
    have hold := h i (by rw [hpc]; rfl)
    split at ht <;> cases ht <;> cases hk
    exact hold
  · split at ht
    · split at ht <;> cases ht <;> cases hk
    · cases ht
      cases hk
  · cases ht
  · cases ht
  · cases ht

theorem fromEarlier_step {a : Act} (hinv : Inv s) (h : FromEarlier os s)
    (ht : s.step sigactionOk os a = some t) : FromEarlier os t := by
  cases a with
  | parent => exact fromEarlier_parent h hinv.bare ht
  | child pid ok =>
    cases ht
    intro i hi
    rw [Sys.pids, onPid_pids (pid_step ok)]
    exact h i hi
  | deliver pid =>
    cases ht
    intro i hi
    rw [Sys.pids, onPid_pids pid_deliver]
    exact h i hi

/-- Init is not held up by `fork`. -/
theorem parent_isSome (hfresh : FreshPids os) (h : FromEarlier os s)
    (hbusy : Pc.busy s.pc = true) : ∃ t, s.parent sigactionOk os = some t := by
  rw [← Option.isSome_iff_exists]
  unfold Sys.parent
  split
  · cases sigactionOk <;> rfl
  · rfl
  · next i d ds hpc =>
    unfold Sys.directive
    split
    · next path mode argv pid hm hf =>
      rw [if_neg]
      · rfl
      · intro hmem
        obtain ⟨j, hj, hfork⟩ := h i (by rw [hpc]; rfl) pid hmem
        have := hfresh i j pid hf hfork
        omega
    · split <;> rfl
  · split <;> rfl
  · split
    · split <;> rfl
    · rfl
  · next hpc => rw [hpc] at hbusy; cases hbusy
  · next hpc => rw [hpc] at hbusy; cases hbusy
  · next hpc => rw [hpc] at hbusy; cases hbusy

/-! ## What is kept on the way -/

theorem reachable_inv (hroom : ds.countP asksForTty ≤ maxChildren)
    (h : Reachable (Sys.step sigactionOk os) (Sys.start env ds) s) : Inv s ∧ FromEarlier os s := by
  refine h.invariant (I := fun s => Inv s ∧ FromEarlier os s)
    ⟨inv_start hroom, fun _ _ => nofun⟩ fun s a t hs ht => ?_
  exact ⟨inv_step hs.1 ht, fromEarlier_step hs.1 hs.2 ht⟩

theorem step_less {a : Act} (hinv : Inv s) (ht : s.step sigactionOk os a = some t) :
    t = s ∨ Sys.work t < Sys.work s := by
  cases a with
  | parent => exact .inr (parent_work hinv ht)
  | child pid ok =>
    cases ht
    rcases onPid_work pid (step_work ok) s.procs with he | hlt
    · exact .inl (by rw [he])
    · exact .inr (Nat.add_lt_add_left hlt _)
  | deliver pid =>
    cases ht
    rcases onPid_work pid deliver_work s.procs with he | hlt
    · exact .inl (by rw [he])
    · exact .inr (Nat.add_lt_add_left hlt _)

theorem progress (hroom : ds.countP asksForTty ≤ maxChildren) (hfresh : FreshPids os) :
    Progress (Sys.step sigactionOk os) (Sys.start env ds) Act.turn Sys.work Helps where
  never_more s a t hs ht := by
    rcases step_less (reachable_inv hroom hs).1 ht with rfl | hlt
    · exact Nat.le_refl _
    · exact Nat.le_of_lt hlt
  lasts s a t k hs ht hk := by
    rcases step_less (reachable_inv hroom hs).1 ht with rfl | hlt
    · exact .inr hk
    · exact .inl hlt
  works s a hs hk := by
    obtain ⟨hinv, hearlier⟩ := reachable_inv hroom hs
    cases a with
    | parent =>
      obtain ⟨t, ht⟩ := parent_isSome hfresh hearlier hk
      exact ⟨t, ht, parent_work hinv ht⟩
    | child pid ok =>
      obtain ⟨p, hp, hpid, hsteps⟩ := hk
      exact ⟨_, rfl, Nat.add_lt_add_left
        (onPid_works (step_work ok) hp hpid (step_moves ok hsteps)) _⟩
    | deliver pid =>
      obtain ⟨p, hp, hpid, hsignalled⟩ := hk
      exact ⟨_, rfl, Nat.add_lt_add_left
        (onPid_works deliver_work hp hpid (deliver_moves hsignalled)) _⟩

/-! ### The children are those that were forked -/

def Images (s : Sys) : Prop := s.procs.map Proc.image = forks s.init.trace

theorem onPid_images {pid : Pid} {f : Proc → Proc} (hf : ∀ p, (f p).image = p.image)
    (ps : List Proc) : (onPid pid f ps).map Proc.image = ps.map Proc.image := by
  rw [onPid, List.map_map]
  refine List.map_congr_left fun p _ => ?_
  simp only [Function.comp_apply]
  split
  · exact hf p
  · rfl

theorem image_step (ok : Bool) (p : Proc) : (p.step ok).image = p.image := by
  unfold Proc.step
  split <;> (try split) <;> (try split) <;> rfl

theorem image_deliver (p : Proc) : p.deliver.image = p.image := by
  unfold Proc.deliver
  split <;> (try split) <;> rfl

theorem perform_forks {m : Option Stmt} {reply : OsReply} {u v : State} {c : Code}
    (h : forked (m, reply) = none) (hr : perform reply u m = .ok (c, v)) :
    forks v.trace = forks u.trace := by
  rcases m with _ | _ | ⟨path, mode, argv⟩ | _
  · cases hr
    rfl
  · cases hr
    rw [forks_emit]
    exact List.append_nil _
  · have hf : reply.fork = none := h
    simp only [perform, hf] at hr
    cases hr
    rw [forks_emit]
    exact List.append_nil _
  · cases hr
    rfl

theorem images_parent (h : Images s) (ht : s.parent sigactionOk os = some t) : Images t := by
  unfold Sys.parent at ht
  split at ht
  · cases sigactionOk <;> cases ht <;> exact h.trans ((forks_emit ..).trans (List.append_nil _)).symm
  · cases ht
    exact h
  · next i d ds hpc =>
    rcases directive_cases ht with ⟨path, mode, argv, pid, -, -, -, rfl⟩ | ⟨hnot, hp⟩
    · show (s.procs ++ [_]).map Proc.image = _
      rw [List.map_append, h, forks_emit]
      rfl
    · obtain ⟨c, u, hr, -⟩ := perform_keeps s.init hnot
      have hforks := perform_forks hnot hr
      rw [hr] at hp
      cases c <;> cases hp <;> exact h.trans hforks.symm
  · next pid i ds hpc =>
    split at ht
    · next u hu =>
      cases ht
      unfold recordChild at hu
      split at hu <;> cases hu
      exact h
    · cases ht
      exact h
  · split at ht
    · split at ht
      · cases ht
        show (onPid _ Proc.signal s.procs).map Proc.image = _
        rw [onPid_images (f := Proc.signal) (fun _ => rfl), h, forks_emit]
        exact (List.append_nil _).symm
      · cases ht
        exact h
    · cases ht
      exact h
  · cases ht
  · cases ht
  · cases ht

theorem reachable_images (h : Reachable (Sys.step sigactionOk os) (Sys.start env ds) s) :
    Images s := by
  refine h.invariant rfl fun s a t hs ht => ?_
  cases a with
  | parent => exact images_parent hs ht
  | child pid ok => cases ht; exact (onPid_images (image_step ok) _).trans hs
  | deliver pid => cases ht; exact (onPid_images image_deliver _).trans hs

/-! ### A child that is gone has failed -/

theorem exited_step {ok : Bool} {p : Proc} (h : (p.step ok).phase = .exited) :
    p.phase = .exited ∨ ok = false := by
  cases ok with
  | false => exact .inr rfl
  | true =>
    left
    unfold Proc.step at h
    split at h
    case h_11 | h_12 | h_13 => exact h
    case h_6 => simp only at h; split at h <;> cases h
    case h_8 =>
      split at h
      · exact h
      · split at h <;> cases h
    all_goals cases h

theorem exited_deliver {p : Proc} (h : p.deliver.phase = .exited) : p.phase = .exited := by
  unfold Proc.deliver at h
  split at h
  · split at h
    · exact h
    · cases h
  · exact h

/-- The child's call of `open` or of `execv` has failed before the `n`-th action. -/
def FailedBefore (acts : Nat → Act) (n : Nat) (pid : Pid) : Prop :=
  ∃ k < n, acts k = .child pid false

theorem exited_failed (acts : Nat → Act) (n : Nat) :
    ∀ p ∈ (after (Sys.step sigactionOk os) (Sys.start env ds) acts n).procs,
      p.phase = .exited → FailedBefore acts n p.pid := by
  induction n with
  | zero => exact fun p hp => nomatch hp
  | succ n ih =>
    have hold : ∀ p ∈ (after (Sys.step sigactionOk os) (Sys.start env ds) acts n).procs,
        p.phase = .exited → FailedBefore acts (n + 1) p.pid := by
      intro p hp hphase
      obtain ⟨k, hk, ha⟩ := ih p hp hphase
      exact ⟨k, by omega, ha⟩
    intro p hp hphase
    cases hs : Sys.step sigactionOk os (after (Sys.step sigactionOk os) (Sys.start env ds) acts n)
        (acts n) with
    | none => rw [after_succ_none hs] at hp; exact hold p hp hphase
    | some t =>
      rw [after_succ_some hs] at hp
      generalize after (Sys.step sigactionOk os) (Sys.start env ds) acts n = s at hs hold
      cases ha : acts n with
      | parent =>
        rw [ha] at hs
        rcases ExecDescriptors.parent_procs hs with he | ⟨c, -, he⟩ | ⟨pid, he⟩
        · exact hold p (he ▸ hp) hphase
        · rcases List.mem_append.mp (he ▸ hp) with hp | hp
          · exact hold p hp hphase
          · rw [List.mem_singleton.mp hp] at hphase
            cases hphase
        · obtain ⟨q, hq, rfl⟩ := List.mem_map.mp (he ▸ hp)
          split at hphase
          · next hpid => rw [if_pos hpid]; exact hold q hq hphase
          · next hpid => rw [if_neg hpid]; exact hold q hq hphase
      | child pid ok =>
        rw [ha] at hs
        cases hs
        obtain ⟨q, hq, rfl⟩ := List.mem_map.mp hp
        split at hphase
        · next hpid =>
          rw [if_pos hpid, pid_step]
          rcases exited_step hphase with hq' | rfl
          · exact hold q hq hq'
          · exact ⟨n, Nat.lt_succ_self n, hpid ▸ ha⟩
        · next hpid => rw [if_neg hpid]; exact hold q hq hphase
      | deliver pid =>
        rw [ha] at hs
        cases hs
        obtain ⟨q, hq, rfl⟩ := List.mem_map.mp hp
        split at hphase
        · next hpid => rw [if_pos hpid, pid_deliver]; exact hold q hq (exited_deliver hphase)
        · next hpid => rw [if_neg hpid]; exact hold q hq hphase

end

/-! ## Where a run ends up -/

/-- Where a child that has not failed stays. -/
def Rests : Code → Proc → Prop
  | .ok, p => p.phase = .running
  | .err, p => p.phase = .waitStartSignal ∧ p.gTtyLock = 1

/-- Nothing happens any more. -/
structure Settled (code : Code) (children : List Child) (failed : Pid → Prop) (s : Sys) : Prop where
  returned : s.pc = .returned code
  images : s.procs.map Proc.image = children
  rests : ∀ p ∈ s.procs, Rests code p ∨ p.phase = .exited ∧ failed p.pid

/-- A child that neither steps nor has a signal, at the end of `interpret_config`. -/
theorem Stage.rests {code : Code} {sent : Bool} {p : Proc} (h : Stage sent p)
    (hsent : sent = decide (code = .ok)) (hsteps : ¬ Proc.Steps p)
    (hsignal : ¬ Proc.Signalled p) : Rests code p ∨ p.phase = .exited := by
  cases h with
  | held hheld hpend hhand hlock hdisp =>
    left
    have hwait : p.phase = .waitStartSignal := by
      by_contra hne
      have hrun : p.phase ≠ .running := by
        intro hr
        rw [hr] at hheld
        cases hheld
      exact hsteps ⟨Phase.alive_of_held hheld, hrun, fun hwait => absurd hwait hne⟩
    cases code with
    | ok => cases hsent
    | err => exact ⟨hwait, hlock⟩
  | signalled hheld hpend => exact absurd ⟨Phase.alive_of_held hheld, hpend⟩ hsignal
  | released halive hpend hhand hlock hdisp =>
    left
    cases code with
    | err => cases hsent
    | ok =>
      by_contra hne
      exact hsteps ⟨halive, hne, fun _ => hlock⟩
  | dead _ hdead => exact .inr hdead

/-- **Every fair run settles.** Whenever `interpret_config` returns, each order
of steps in which everybody's turn comes again and again leads to the same end:
init has returned that code, the children are those that `interpret_config`
forks, and each of them has failed on its own account, or runs its program for
good, or, behind an error, spins for good. -/
theorem fair_run_settles (sigactionOk : Bool) (os : Nat → OsReply) (env : Env)
    (ds : List Directive) (acts : Nat → Act) (hroom : ds.countP asksForTty ≤ maxChildren)
    (hfresh : FreshPids os) (hfair : Fair Act.turn acts) {code : Code} {t : State}
    (hrun : interpretConfig sigactionOk os ds (State.start env) = .ok (.returned code, t)) :
    ∃ n, ∀ m, n ≤ m → Settled code (forks t.trace) (FailedBefore acts m)
      (after (Sys.step sigactionOk os) (Sys.start env ds) acts m) := by
  have hprogress : Progress (Sys.step sigactionOk os) (Sys.start env ds) Act.turn Sys.work Helps :=
    progress hroom hfresh
  obtain ⟨n, hidle⟩ := hprogress.finishes hfair
  refine ⟨n, fun m hm => ?_⟩
  have hidle := hidle m hm
  have hfailed : ∀ p ∈ (after (Sys.step sigactionOk os) (Sys.start env ds) acts m).procs,
      p.phase = .exited → FailedBefore acts m p.pid := exited_failed acts m
  have hreach := after_reachable (Sys.step sigactionOk os) (Sys.start env ds) acts m
  generalize after (Sys.step sigactionOk os) (Sys.start env ds) acts m = s at hidle hfailed hreach ⊢
  have hinv := (reachable_inv hroom hreach).1
  have hcomes : comesTo sigactionOk os s.init s.pc = .ok (.returned code, quiet t) := by
    rw [reachable_comesTo hreach, hrun]
    rfl
  have hpc : s.pc = .returned code ∧ s.init = quiet t := by
    cases hs : s.pc with
    | returned c =>
      rw [hs] at hcomes
      have heq := Prod.mk.inj (Except.ok.inj hcomes)
      exact ⟨congrArg Pc.returned (Outcome.returned.inj heq.1), heq.2⟩
    | exited => rw [hs] at hcomes; cases hcomes
    | faulted f => exact absurd hs (hinv.sound f)
    | _ => exact absurd (by rw [Helps, hs]; rfl) (hidle .parent)
  refine ⟨hpc.1, ?_, fun p hp => ?_⟩
  · rw [reachable_images hreach, hpc.2]
    rfl
  obtain ⟨k, hk, he⟩ := List.getElem_of_mem hp
  have hstage := hinv.stage k p (List.getElem?_eq_some_iff.mpr ⟨hk, he⟩)
  have hsent : decide (k < Sys.sent s) = decide (code = .ok) := by
    unfold Sys.sent
    rw [hpc.1]
    cases code with
    | ok => exact decide_eq_decide.mpr (iff_of_true hk rfl)
    | err => rfl
  rcases Stage.rests hstage hsent (fun h => hidle (.child p.pid) ⟨p, hp, rfl, h⟩)
    (fun h => hidle (.deliver p.pid) ⟨p, hp, rfl, h⟩) with hrests | hdead
  · exact .inl hrests
  · exact .inr ⟨hdead, hfailed p hp hdead⟩

/-- Everybody in turn: at the time that codes `q` and any second number, `q` is on. -/
def roundRobin (n : Nat) : Act :=
  let q := (Nat.unpair n).1
  if q % 3 = 0 then .parent else if q % 3 = 1 then .child (q / 3) true else .deliver (q / 3)

theorem roundRobin_fair : Fair Act.turn roundRobin := by
  have turnAt : ∀ q n, Act.turn (roundRobin (Nat.pair q n)) =
      if q % 3 = 0 then .parent else if q % 3 = 1 then .child (q / 3) else .deliver (q / 3) := by
    intro q n
    unfold roundRobin
    rw [Nat.unpair_pair]
    simp only
    split
    · rfl
    · split <;> rfl
  intro k n
  cases k with
  | parent => exact ⟨Nat.pair 0 n, Nat.right_le_pair 0 n, turnAt 0 n⟩
  | child pid =>
    refine ⟨Nat.pair (3 * pid + 1) n, Nat.right_le_pair _ n, ?_⟩
    have hdiv : ∀ x : Nat, (3 * x + 1) / 3 = x := by omega
    rw [turnAt, if_neg (by omega), if_pos (by omega), hdiv]
  | deliver pid =>
    refine ⟨Nat.pair (3 * pid + 2) n, Nat.right_le_pair _ n, ?_⟩
    have hdiv : ∀ x : Nat, (3 * x + 2) / 3 = x := by omega
    rw [turnAt, if_neg (by omega), if_neg (by omega), hdiv]

/-- Each fork is granted, with the next pid. -/
def granting (i : Nat) : OsReply := ⟨true, some (i + 2)⟩

theorem granting_fresh : FreshPids granting := by
  intro i j pid hi hj
  have : i + 2 = j + 2 := Option.some.inj (hi.trans hj.symm)
  omega

theorem shell_settles : ∃ (t : State) (n : Nat), ∀ m, n ≤ m → Settled .ok (forks t.trace) (FailedBefore roundRobin m)
    (after (Sys.step true granting) (Sys.start [] shellDirectives) roundRobin m) :=
  ⟨_, fair_run_settles true granting [] shellDirectives roundRobin (by decide) granting_fresh
    roundRobin_fair rfl⟩

end SalernOS.Init.Completion
