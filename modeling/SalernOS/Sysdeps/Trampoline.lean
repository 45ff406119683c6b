import SalernOS.Lib.Fairness
import SalernOS.Lib.Futex
import SalernOS.Sysdeps.Syscall

/-! # `__mlibc_thread_trampoline` among other threads

A new thread waits until its creator has told it its id, runs its function, and
tells those who wait for it that it has finished. The creator and the others do
their steps in between, in any order, and a sleeper can be woken for no reason.
-/
namespace SalernOS.Sysdeps.Trampoline
open SalernOS.Lib

/-- The words of the `Tcb` that threads sleep on. -/
inductive Word where
  | tid
  | didExit
deriving DecidableEq, Repr

/-- The new thread, or one of the others. -/
abbrev Thread := Option Nat

inductive Pc where
  | setTcb
  | panicked
  | load
  | wait
  | call
  | running
  | storeExit
  | wakeExit
  | exit
  | gone
deriving DecidableEq, Repr

variable {α : Type}

/-- `calls` lists what the thread has called. -/
structure Sys (α : Type) where
  pc : Pc
  words : Futex Word Thread (BitVec 32)
  calls : List α

def Sys.start (α : Type) : Sys α := ⟨.setTcb, ⟨fun _ => 0, fun _ => none⟩, []⟩

/-- A step of the new thread, where an interrupted wait does not sleep; the
return of its function; a store to `tid` and a wake there by another thread;
`sys_futex_wait(&didExit, 0)` of another thread; and a sleeper that wakes up. -/
inductive Act where
  | thread (interrupted : Bool)
  | returns
  | storeTid (v : BitVec 32)
  | wakeTid
  | waitExit (i : Nat)
  | disturb (t : Thread)
deriving DecidableEq, Repr

/-- `sys_tcb_set`, which does not look at the kernel's answer. -/
def sysTcbSet (_ : Reply Unit) : Int := 0

/-- Behind `sys_tcb_set`. -/
def tcbSetPc (tcbSet : Reply Unit) : Pc := if sysTcbSet tcbSet = 0 then .load else .panicked

/-- The new thread, awake. -/
def Sys.advance (task : α) (tcbSet : Reply Unit) (interrupted : Bool) (s : Sys α) :
    Option (Sys α) :=
  match s.pc with
  | .setTcb => some { s with pc := tcbSetPc tcbSet }
  | .load => some { s with pc := if s.words.value .tid = 0 then .wait else .call }
  | .wait =>
    some { s with pc := .load, words := if interrupted then s.words else s.words.wait none .tid 0 }
  | .call => some { s with pc := .running, calls := s.calls ++ [task] }
  | .storeExit => some { s with pc := .wakeExit, words := s.words.store .didExit 1 }
  | .wakeExit => some { s with pc := .exit, words := s.words.wake .didExit }
  | .exit => some { s with pc := .gone }
  | .panicked | .running | .gone => none

def Sys.step (task : α) (tcbSet : Reply Unit) (s : Sys α) : Act → Option (Sys α)
  | .thread interrupted =>
    if s.words.asleep none = none then s.advance task tcbSet interrupted else none
  | .returns => if s.pc = .running then some { s with pc := .storeExit } else none
  | .storeTid v => some { s with words := s.words.store .tid v }
  | .wakeTid => some { s with words := s.words.wake .tid }
  | .waitExit i =>
    if s.words.asleep (some i) = none then
      some { s with words := s.words.wait (some i) .didExit 0 }
    else none
  | .disturb t => some { s with words := s.words.disturb t }

/-! ## What always holds -/

/-- The function has been called. -/
def Pc.begun : Pc → Bool
  | .running | .storeExit | .wakeExit | .exit | .gone => true
  | _ => false

/-- The function has returned, and the thread has said so. -/
def Pc.done : Pc → Bool
  | .wakeExit | .exit | .gone => true
  | _ => false

structure Inv (task : α) (s : Sys α) : Prop where
  calls : s.calls = if s.pc.begun then [task] else []
  didExit : s.words.value .didExit = if s.pc.done then 1 else 0
  exitLatch : Futex.Latch .didExit 0 (s.pc = .wakeExit) s.words
  own : ∀ w, s.words.asleep none = some w → w = .tid ∧ s.pc = .load
  others : ∀ i w, s.words.asleep (some i) = some w → w = .didExit

theorem inv_start (task : α) : Inv task (Sys.start α) where
  calls := rfl
  didExit := rfl
  exitLatch := fun _ h => nomatch h
  own := fun _ h => nomatch h
  others := fun _ _ h => nomatch h

/-- A step that leaves the words alone. -/
theorem Inv.move {task : α} {s : Sys α} (h : Inv task s) (hawake : s.words.asleep none = none)
    (hdue : s.pc ≠ .wakeExit) {pc : Pc} {calls : List α}
    (hcalls : calls = if pc.begun then [task] else []) (hdone : pc.done = s.pc.done) :
    Inv task { s with pc := pc, calls := calls } where
  calls := hcalls
  didExit := by rw [hdone]; exact h.didExit
  exitLatch := h.exitLatch.mono fun hpc => absurd hpc hdue
  own := fun w hw => by rw [hawake] at hw; cases hw
  others := h.others

/-- What a step of the new thread can be. -/
theorem advance_cases {task : α} {tcbSet : Reply Unit} {interrupted : Bool} {s t : Sys α}
    (hs : s.advance task tcbSet interrupted = some t) :
    (∃ pc, t = { s with pc := pc } ∧ (s.pc = .setTcb ∧ pc = tcbSetPc tcbSet ∨
      s.pc = .load ∧ pc = (if s.words.value .tid = 0 then .wait else .call) ∨
      s.pc = .exit ∧ pc = .gone)) ∨
    (s.pc = .wait ∧ t = { s with
      pc := .load, words := if interrupted then s.words else s.words.wait none .tid 0 }) ∨
    (s.pc = .call ∧ t = { s with pc := .running, calls := s.calls ++ [task] }) ∨
    (s.pc = .storeExit ∧ t = { s with
      pc := .wakeExit, words := s.words.store .didExit 1 }) ∨
    (s.pc = .wakeExit ∧ t = { s with pc := .exit, words := s.words.wake .didExit }) := by
  unfold Sys.advance at hs
  cases hpc : s.pc <;> rw [hpc] at hs <;> simp only at hs
  case setTcb => exact .inl ⟨_, (Option.some.inj hs).symm, .inl ⟨rfl, rfl⟩⟩
  case load => exact .inl ⟨_, (Option.some.inj hs).symm, .inr (.inl ⟨rfl, rfl⟩)⟩
  case exit => exact .inl ⟨_, (Option.some.inj hs).symm, .inr (.inr ⟨rfl, rfl⟩)⟩
  case wait => exact .inr (.inl ⟨rfl, (Option.some.inj hs).symm⟩)
  case call => exact .inr (.inr (.inl ⟨rfl, (Option.some.inj hs).symm⟩))
  case storeExit => exact .inr (.inr (.inr (.inl ⟨rfl, (Option.some.inj hs).symm⟩)))
  case wakeExit => exact .inr (.inr (.inr (.inr ⟨rfl, (Option.some.inj hs).symm⟩)))
  all_goals cases hs

theorem inv_advance {task : α} {tcbSet : Reply Unit} {interrupted : Bool} {s t : Sys α}
    (h : Inv task s) (hawake : s.words.asleep none = none)
    (hs : s.advance task tcbSet interrupted = some t) : Inv task t := by
  have hcalls := h.calls
  have hexit := h.didExit
  rcases advance_cases hs with ⟨pc, rfl, hpc⟩ | ⟨hpc, rfl⟩ | ⟨hpc, rfl⟩ | ⟨hpc, rfl⟩ | ⟨hpc, rfl⟩
  · have hmoves : pc.begun = s.pc.begun ∧ pc.done = s.pc.done ∧ s.pc ≠ .wakeExit := by
      rcases hpc with ⟨hpc, rfl⟩ | ⟨hpc, rfl⟩ | ⟨hpc, rfl⟩ <;> rw [hpc]
      · exact ⟨rfl, rfl, nofun⟩
      · split <;> exact ⟨rfl, rfl, nofun⟩
      · exact ⟨rfl, rfl, nofun⟩
    exact h.move hawake hmoves.2.2 (by rw [hmoves.1]; exact hcalls) hmoves.2.1
  · rw [hpc] at hcalls hexit
    have hlatch : Futex.Latch .didExit 0 False s.words :=
      h.exitLatch.mono fun he => nomatch hpc.symm.trans he
    cases interrupted with
    | true => exact h.move hawake (by rw [hpc]; nofun) hcalls (by rw [hpc]; rfl)
    | false =>
      have hother : Word.tid ≠ .didExit := nofun
      have hval : (s.words.wait none .tid 0).value .didExit = s.words.value .didExit := by
        rw [Futex.wait_value]
      refine ⟨hcalls, hval.trans hexit,
        (hlatch.wait none 0 fun he => absurd he hother).mono False.elim, fun w hw => ?_, fun i w hw => ?_⟩
      · rcases Futex.wait_asleep hw with hw | ⟨-, hw, -⟩
        · rw [hawake] at hw; cases hw
        · exact ⟨hw, rfl⟩
      · rcases Futex.wait_asleep hw with hw | ⟨hw, -⟩
        · exact h.others i w hw
        · cases hw
  · rw [hpc] at hcalls
    refine h.move hawake (by rw [hpc]; nofun) ?_ (by rw [hpc]; rfl)
    rw [hcalls]
    rfl
  · rw [hpc] at hcalls
    refine ⟨hcalls, Futex.store_value 1, Futex.Latch.owes 1 rfl, fun w hw => ?_, h.others⟩
    rw [Futex.store_asleep, hawake] at hw
    cases hw
  · rw [hpc] at hcalls hexit
    refine ⟨hcalls, hexit, Futex.Latch.woken, fun w hw => ?_,
      fun i w hw => h.others i w (Futex.wake_asleep hw).2⟩
    have hasleep := (Futex.wake_asleep hw).2
    rw [hawake] at hasleep
    cases hasleep

theorem inv_step {task : α} {tcbSet : Reply Unit} {s t : Sys α} (a : Act) (h : Inv task s)
    (hs : s.step task tcbSet a = some t) : Inv task t := by
  have hother : Word.didExit ≠ .tid := nofun
  cases a with
  | thread interrupted =>
    change (if _ then _ else _) = some t at hs
    split at hs
    case isTrue hawake => exact inv_advance h hawake hs
    case isFalse => cases hs
  | returns =>
    change (if _ then _ else _) = some t at hs
    split at hs
    case isTrue hpc =>
      obtain rfl := Option.some.inj hs
      have hcalls := h.calls
      have hexit := h.didExit
      rw [hpc] at hcalls hexit
      refine ⟨hcalls, hexit, h.exitLatch.mono fun he => (nomatch hpc.symm.trans he),
        fun w hw => ?_, h.others⟩
      cases hpc.symm.trans (h.own w hw).2
    case isFalse => cases hs
  | storeTid v =>
    obtain rfl := Option.some.inj hs
    exact ⟨h.calls, (Futex.store_value_ne v hother).trans h.didExit,
      h.exitLatch.store v hother, h.own, h.others⟩
  | wakeTid =>
    obtain rfl := Option.some.inj hs
    exact ⟨h.calls, h.didExit, h.exitLatch.wake, fun w hw => h.own w (Futex.wake_asleep hw).2,
      fun i w hw => h.others i w (Futex.wake_asleep hw).2⟩
  | waitExit i =>
    change (if _ then _ else _) = some t at hs
    split at hs
    case isTrue hawake =>
      obtain rfl := Option.some.inj hs
      have hval : (s.words.wait (some i) .didExit 0).value .didExit = s.words.value .didExit := by
        rw [Futex.wait_value]
      refine ⟨h.calls, hval.trans h.didExit,
        h.exitLatch.wait _ 0 fun _ => rfl, fun w hw => ?_, fun j w hw => ?_⟩
      · rcases Futex.wait_asleep hw with hw | ⟨hw, -⟩
        · exact h.own w hw
        · cases hw
      · rcases Futex.wait_asleep hw with hw | ⟨-, hw, -⟩
        · exact h.others j w hw
        · exact hw
    case isFalse => cases hs
  | disturb u =>
    obtain rfl := Option.some.inj hs
    exact ⟨h.calls, h.didExit, h.exitLatch.disturb u, fun w hw => h.own w (Futex.disturb_asleep hw),
      fun i w hw => h.others i w (Futex.disturb_asleep hw)⟩

theorem reachable_inv {task : α} {tcbSet : Reply Unit} {s : Sys α}
    (h : Reachable (Sys.step task tcbSet) (Sys.start α) s) : Inv task s :=
  h.invariant (inv_start task) fun _ a _ hi hs => inv_step a hi hs

/-! ## What has happened before -/

/-- What a state says about the steps that led to it. -/
structure History (acts : List Act) (s : Sys α) : Prop where
  told : s.words.value .tid ≠ 0 ∨ s.pc = .call ∨ s.pc.begun = true → ∃ v ≠ 0, Act.storeTid v ∈ acts
  returned : s.pc = .storeExit ∨ s.pc.done = true → Act.returns ∈ acts

/-- A step behind which the state says no more than before. -/
theorem History.keep {acts : List Act} {s t : Sys α} (h : History acts s) (a : Act)
    (htid : t.words.value .tid = s.words.value .tid)
    (hcall : t.pc = .call ∨ t.pc.begun = true →
      s.words.value .tid ≠ 0 ∨ s.pc = .call ∨ s.pc.begun = true)
    (hdone : t.pc = .storeExit ∨ t.pc.done = true → s.pc = .storeExit ∨ s.pc.done = true) :
    History (acts ++ [a]) t where
  told ht := by
    have hs : s.words.value .tid ≠ 0 ∨ s.pc = .call ∨ s.pc.begun = true := by
      rcases ht with ht | ht
      · exact .inl (htid ▸ ht)
      · exact hcall ht
    obtain ⟨v, hv, hmem⟩ := h.told hs
    exact ⟨v, hv, List.mem_append_left _ hmem⟩
  returned ht := List.mem_append_left _ (h.returned (hdone ht))

theorem History.step {task : α} {tcbSet : Reply Unit} {acts : List Act} {s t : Sys α} (a : Act)
    (h : History acts s) (hs : s.step task tcbSet a = some t) : History (acts ++ [a]) t := by
  have hother : Word.tid ≠ .didExit := nofun
  cases a with
  | thread interrupted =>
    change (if _ then _ else _) = some t at hs
    split at hs
    case isFalse => cases hs
    case isTrue =>
      rcases advance_cases hs with ⟨pc, rfl, hpc⟩ | ⟨hpc, rfl⟩ | ⟨hpc, rfl⟩ | ⟨hpc, rfl⟩ | ⟨hpc, rfl⟩
      · rcases hpc with ⟨-, rfl⟩ | ⟨-, rfl⟩ | ⟨hpc, rfl⟩
        · exact h.keep _ rfl nofun nofun
        · split
          case isTrue => exact h.keep _ rfl nofun nofun
          case isFalse hv => exact h.keep _ rfl (fun _ => .inl hv) nofun
        · exact h.keep _ rfl (fun _ => .inr (.inr (by rw [hpc]; rfl)))
            fun _ => .inr (by rw [hpc]; rfl)
      · refine h.keep _ ?_ nofun nofun
        cases interrupted with
        | true => rfl
        | false =>
          show (s.words.wait none .tid 0).value .tid = _
          rw [Futex.wait_value]
      · exact h.keep _ rfl (fun _ => .inr (.inl hpc)) nofun
      · exact h.keep _ (Futex.store_value_ne 1 hother) (fun _ => .inr (.inr (by rw [hpc]; rfl)))
          fun _ => .inl hpc
      · exact h.keep _ rfl (fun _ => .inr (.inr (by rw [hpc]; rfl)))
          fun _ => .inr (by rw [hpc]; rfl)
  | returns =>
    change (if _ then _ else _) = some t at hs
    split at hs
    case isTrue hpc =>
      obtain rfl := Option.some.inj hs
      refine ⟨fun _ => ?_, fun _ => List.mem_append_right _ (List.mem_singleton_self _)⟩
      obtain ⟨v, hv, hmem⟩ := h.told (.inr (.inr (by rw [hpc]; rfl)))
      exact ⟨v, hv, List.mem_append_left _ hmem⟩
    case isFalse => cases hs
  | storeTid v =>
    obtain rfl := Option.some.inj hs
    refine ⟨fun ht => ?_, fun ht => List.mem_append_left _ (h.returned ht)⟩
    rcases ht with ht | ht
    · rw [Futex.store_value] at ht
      exact ⟨v, ht, List.mem_append_right _ (List.mem_singleton_self _)⟩
    · obtain ⟨u, hu, hmem⟩ := h.told (.inr ht)
      exact ⟨u, hu, List.mem_append_left _ hmem⟩
  | wakeTid =>
    obtain rfl := Option.some.inj hs
    exact h.keep _ rfl .inr id
  | waitExit i =>
    change (if _ then _ else _) = some t at hs
    split at hs
    case isTrue =>
      obtain rfl := Option.some.inj hs
      refine h.keep _ ?_ .inr id
      show (s.words.wait (some i) .didExit 0).value .tid = _
      rw [Futex.wait_value]
    case isFalse => cases hs
  | disturb u =>
    obtain rfl := Option.some.inj hs
    exact h.keep _ rfl .inr id

theorem history_start : History [] (Sys.start α) where
  told h := by
    rcases h with h | h | h
    · exact absurd rfl h
    · cases h
    · cases h
  returned h := by rcases h with h | h <;> cases h

theorem history_runAll {task : α} {tcbSet : Reply Unit} : ∀ {acts : List Act} {s : Sys α},
    runAll (Sys.step task tcbSet) (Sys.start α) acts = some s → History acts s := by
  intro acts
  induction acts using List.reverseRecOn with
  | nil =>
    intro s h
    obtain rfl := Option.some.inj h
    exact history_start
  | append_singleton acts a ih =>
    intro s h
    rw [runAll_append] at h
    obtain ⟨u, hu, h⟩ := Option.bind_eq_some_iff.mp h
    obtain ⟨t, ht, h⟩ := Option.bind_eq_some_iff.mp h
    obtain rfl := Option.some.inj h
    exact (ih hu).step a ht

/-- What can be relied on behind any steps, in whatever order. -/
structure Safe (task : α) (acts : List Act) (s : Sys α) : Prop where
  once : s.calls = [] ∨ s.calls = [task]
  told : s.calls ≠ [] → ∃ v ≠ 0, Act.storeTid v ∈ acts
  returned : s.words.value .didExit ≠ 0 → s.calls = [task] ∧ Act.returns ∈ acts
  /-- Nobody who waits for the thread sleeps on when it has said that it is done,
  but for the one step until they are woken. -/
  noSleeper : s.words.value .didExit ≠ 0 → s.pc ≠ .wakeExit → ∀ t, s.words.asleep t = none

/-- **The trampoline is safe.** -/
theorem trampoline_safe (task : α) (tcbSet : Reply Unit) (acts : List Act) {s : Sys α}
    (h : runAll (Sys.step task tcbSet) (Sys.start α) acts = some s) : Safe task acts s := by
  have hinv := reachable_inv (Reachable.start.runAll h)
  have hhist := history_runAll h
  have hcalls := hinv.calls
  have hexit := hinv.didExit
  have hdone (hv : s.words.value .didExit ≠ 0) : s.pc.done = true := by
    rw [hexit] at hv
    by_contra hpc
    exact hv (if_neg hpc)
  have hbegun (hv : s.pc.done = true) : s.pc.begun = true := by
    cases hpc : s.pc <;> rw [hpc] at hv <;> first | rfl | cases hv
  refine ⟨?_, fun hne => hhist.told (.inr (.inr ?_)), fun hv => ⟨?_, ?_⟩, fun hv hpc t => ?_⟩
  · split at hcalls
    · exact .inr hcalls
    · exact .inl hcalls
  · by_contra hpc
    exact hne (hcalls.trans (if_neg hpc))
  · exact hcalls.trans (if_pos (hbegun (hdone hv)))
  · exact hhist.returned (.inr (hdone hv))
  · cases hw : s.words.asleep t with
    | none => rfl
    | some w =>
      cases t with
      | none =>
        have hload := (hinv.own w hw).2
        have := hdone hv
        rw [hload] at this
        cases this
      | some i =>
        obtain rfl := hinv.others i w hw
        exact absurd hw (hinv.exitLatch.nobody hpc hv (some i))

/-- A run in which the thread sleeps until it is told its id, and another
thread sleeps until it has finished. -/
def joined : List Act :=
  [.thread false, .thread false, .thread false, .waitExit 0, .storeTid 7, .wakeTid, .thread false,
    .thread false, .returns, .thread false, .thread false, .thread false]

theorem joined_safe : ∃ s, runAll (Sys.step () (.success 0 ())) (Sys.start Unit) joined = some s ∧
    Safe () joined s :=
  ⟨_, rfl, trampoline_safe () (.success 0 ()) joined rfl⟩

/-! ## That the thread finishes -/

/-- Whose turn it is. -/
inductive Turn where
  | thread
  | function
  | other
deriving DecidableEq, Repr

def Act.turn : Act → Turn
  | .thread _ => .thread
  | .returns => .function
  | _ => .other

/-- Without further stores to `tid`. -/
def Sys.quietStep (task : α) (tcbSet : Reply Unit) (s : Sys α) : Act → Option (Sys α)
  | .storeTid _ => none
  | a => s.step task tcbSet a

/-- The id is known, and the thread is awake. -/
structure Known (task : α) (s : Sys α) : Prop where
  inv : Inv task s
  tid : s.words.value .tid ≠ 0
  awake : s.words.asleep none = none

/-- How many steps are left at most. -/
def Pc.left : Pc → Nat
  | .setTcb => 9
  | .wait => 8
  | .load => 7
  | .call => 6
  | .running => 5
  | .storeExit => 4
  | .wakeExit => 3
  | .exit => 2
  | .gone | .panicked => 0

def Helps : Turn → Sys α → Prop
  | .thread, s => s.pc ≠ .running ∧ s.pc ≠ .gone ∧ s.pc ≠ .panicked
  | .function, s => s.pc = .running
  | .other, _ => False

/-- What a step can do to the words. -/
theorem step_words {task : α} {tcbSet : Reply Unit} {s t : Sys α} {a : Act}
    (hs : s.step task tcbSet a = some t) :
    t.words = s.words ∨ (∃ v, a = .storeTid v ∧ t.words = s.words.store .tid v) ∨
      t.words = s.words.store .didExit 1 ∨ (∃ w, t.words = s.words.wake w) ∨
      t.words = s.words.wait none .tid 0 ∨ (∃ i, t.words = s.words.wait (some i) .didExit 0) ∨
      ∃ u, t.words = s.words.disturb u := by
  cases a with
  | thread interrupted =>
    change (if _ then _ else _) = some t at hs
    split at hs
    case isTrue =>
      rcases advance_cases hs with ⟨pc, rfl, -⟩ | ⟨-, rfl⟩ | ⟨-, rfl⟩ | ⟨-, rfl⟩ | ⟨-, rfl⟩
      · exact .inl rfl
      · cases interrupted with
        | true => exact .inl rfl
        | false => exact .inr (.inr (.inr (.inr (.inl rfl))))
      · exact .inl rfl
      · exact .inr (.inr (.inl rfl))
      · exact .inr (.inr (.inr (.inl ⟨_, rfl⟩)))
    case isFalse => cases hs
  | returns =>
    change (if _ then _ else _) = some t at hs
    split at hs
    case isTrue => obtain rfl := Option.some.inj hs; exact .inl rfl
    case isFalse => cases hs
  | storeTid v => obtain rfl := Option.some.inj hs; exact .inr (.inl ⟨v, rfl, rfl⟩)
  | wakeTid => obtain rfl := Option.some.inj hs; exact .inr (.inr (.inr (.inl ⟨_, rfl⟩)))
  | waitExit i =>
    change (if _ then _ else _) = some t at hs
    split at hs
    case isTrue =>
      obtain rfl := Option.some.inj hs
      exact .inr (.inr (.inr (.inr (.inr (.inl ⟨i, rfl⟩)))))
    case isFalse => cases hs
  | disturb u =>
    obtain rfl := Option.some.inj hs
    exact .inr (.inr (.inr (.inr (.inr (.inr ⟨u, rfl⟩)))))

theorem step_tid {task : α} {tcbSet : Reply Unit} {s t : Sys α} {a : Act}
    (ha : ∀ v, a ≠ .storeTid v) (hs : s.step task tcbSet a = some t) :
    t.words.value .tid = s.words.value .tid := by
  have hother : Word.tid ≠ .didExit := nofun
  rcases step_words hs with h | ⟨v, rfl, -⟩ | h | ⟨w, h⟩ | h | ⟨i, h⟩ | ⟨u, h⟩
  · rw [h]
  · exact absurd rfl (ha v)
  · rw [h, Futex.store_value_ne 1 hother]
  · rw [h, Futex.wake_value]
  · rw [h, Futex.wait_value]
  · rw [h, Futex.wait_value]
  · rw [h, Futex.disturb_value]

/-- A thread that is awake with a known id does not fall asleep. -/
theorem step_awake {task : α} {tcbSet : Reply Unit} {s t : Sys α} {a : Act} (h : Known task s)
    (hs : s.step task tcbSet a = some t) : t.words.asleep none = none := by
  refine Option.eq_none_iff_forall_ne_some.mpr fun w hw => ?_
  have hold : s.words.asleep none = some w ∨ s.words.value .tid = 0 := by
    rcases step_words hs with he | ⟨v, -, he⟩ | he | ⟨w, he⟩ | he | ⟨i, he⟩ | ⟨u, he⟩ <;> rw [he] at hw
    · exact .inl hw
    · exact .inl hw
    · exact .inl hw
    · exact .inl (Futex.wake_asleep hw).2
    · rcases Futex.wait_asleep hw with hw | ⟨-, -, hv⟩
      · exact .inl hw
      · exact .inr hv
    · rcases Futex.wait_asleep hw with hw | ⟨hi, -⟩
      · exact .inl hw
      · cases hi
    · exact .inl (Futex.disturb_asleep hw)
  rcases hold with hold | hold
  · rw [h.awake] at hold
    cases hold
  · exact h.tid hold

theorem quietStep_eq {task : α} {tcbSet : Reply Unit} {s t : Sys α} {a : Act}
    (hs : s.quietStep task tcbSet a = some t) :
    s.step task tcbSet a = some t ∧ ∀ v, a ≠ .storeTid v := by
  cases a with
  | storeTid v => cases hs
  | _ => exact ⟨hs, nofun⟩

theorem known_step {task : α} {tcbSet : Reply Unit} {s t : Sys α} {a : Act} (h : Known task s)
    (hs : s.quietStep task tcbSet a = some t) : Known task t := by
  obtain ⟨hs, ha⟩ := quietStep_eq hs
  exact ⟨inv_step a h.inv hs, by rw [step_tid ha hs]; exact h.tid, step_awake h hs⟩

theorem advance_left {task : α} {tcbSet : Reply Unit} {interrupted : Bool} {s t : Sys α}
    (htid : s.words.value .tid ≠ 0) (hs : s.advance task tcbSet interrupted = some t) :
    t.pc.left < s.pc.left := by
  rcases advance_cases hs with ⟨pc, rfl, hpc⟩ | ⟨hpc, rfl⟩ | ⟨hpc, rfl⟩ | ⟨hpc, rfl⟩ | ⟨hpc, rfl⟩
  · rcases hpc with ⟨hpc, rfl⟩ | ⟨hpc, rfl⟩ | ⟨hpc, rfl⟩ <;> rw [hpc]
    · exact Nat.lt_of_sub_eq_succ rfl
    · rw [if_neg htid]
      exact Nat.lt_of_sub_eq_succ rfl
    · exact Nat.lt_of_sub_eq_succ rfl
  all_goals
    rw [hpc]
    exact Nat.lt_of_sub_eq_succ rfl

/-- A step takes the thread forward or leaves it where it is. -/
theorem left_step {task : α} {tcbSet : Reply Unit} {s t : Sys α} {a : Act} (h : Known task s)
    (hs : s.quietStep task tcbSet a = some t) : t.pc.left < s.pc.left ∨ t.pc = s.pc := by
  obtain ⟨hs, -⟩ := quietStep_eq hs
  cases a with
  | thread interrupted =>
    change (if _ then _ else _) = some t at hs
    rw [if_pos h.awake] at hs
    exact .inl (advance_left h.tid hs)
  | returns =>
    change (if _ then _ else _) = some t at hs
    split at hs
    case isTrue hpc =>
      obtain rfl := Option.some.inj hs
      rw [hpc]
      exact .inl (Nat.lt_of_sub_eq_succ rfl)
    case isFalse => cases hs
  | waitExit i =>
    change (if _ then _ else _) = some t at hs
    split at hs
    case isTrue => obtain rfl := Option.some.inj hs; exact .inr rfl
    case isFalse => cases hs
  | storeTid v => obtain rfl := Option.some.inj hs; exact .inr rfl
  | wakeTid => obtain rfl := Option.some.inj hs; exact .inr rfl
  | disturb u => obtain rfl := Option.some.inj hs; exact .inr rfl

theorem progress (task : α) (tcbSet : Reply Unit) {start : Sys α} (hstart : Known task start) :
    Progress (Sys.quietStep task tcbSet) start Act.turn (fun s => s.pc.left) Helps := by
  have hknown {s : Sys α} (h : Reachable (Sys.quietStep task tcbSet) start s) : Known task s :=
    h.invariant hstart fun _ _ _ hs => known_step hs
  refine ⟨fun s a t h hs => ?_, fun s a t k h hs hk => ?_, fun s a h hk => ?_⟩
  · rcases left_step (hknown h) hs with hlt | he
    · exact Nat.le_of_lt hlt
    · exact Nat.le_of_eq (congrArg Pc.left he)
  · refine (left_step (hknown h) hs).imp_right fun he => ?_
    cases k with
    | thread => rw [Helps, he]; exact hk
    | function => exact he.trans hk
    | other => exact hk
  · have hs := hknown h
    cases a with
    | thread interrupted =>
      obtain ⟨t, ht⟩ : ∃ t, s.advance task tcbSet interrupted = some t := by
        obtain ⟨h1, h2, h3⟩ : s.pc ≠ .running ∧ s.pc ≠ .gone ∧ s.pc ≠ .panicked := hk
        unfold Sys.advance
        cases hpc : s.pc with
        | running => exact absurd hpc h1
        | gone => exact absurd hpc h2
        | panicked => exact absurd hpc h3
        | _ => exact ⟨_, rfl⟩
      refine ⟨t, ?_, advance_left hs.tid ht⟩
      show (if _ then _ else _) = some t
      rw [if_pos hs.awake, ht]
    | returns =>
      have hpc : s.pc = .running := hk
      refine ⟨{ s with pc := .storeExit }, if_pos hpc, ?_⟩
      show Pc.left .storeExit < s.pc.left
      rw [hpc]
      exact Nat.lt_of_sub_eq_succ rfl
    | _ => exact False.elim hk

/-- From where the id is known the thread comes to its end. -/
theorem known_finishes {task : α} {tcbSet : Reply Unit} {start : Sys α} (h : Known task start)
    {acts : Nat → Act} (hfair : Fair Act.turn acts) :
    ∃ n, ∀ m, n ≤ m → let s := after (Sys.quietStep task tcbSet) start acts m
      Inv task s ∧ s.words.asleep none = none ∧ (s.pc = .gone ∨ s.pc = .panicked) := by
  obtain ⟨n, hn⟩ := (progress task tcbSet h).finishes hfair
  refine ⟨n, fun m hm => ?_⟩
  have hknown : Known task (after (Sys.quietStep task tcbSet) start acts m) :=
    (after_reachable _ _ _ m).invariant h fun _ _ _ hs => known_step hs
  refine ⟨hknown.inv, hknown.awake, ?_⟩
  by_contra hpc
  obtain ⟨hgone, hpanicked⟩ := not_or.mp hpc
  exact hn m hm .thread ⟨hn m hm .function, hgone, hpanicked⟩

/-- The thread never panics, whatever the kernel says to its `Tcb`. -/
theorem not_panicked {task : α} {tcbSet : Reply Unit} {s : Sys α}
    (h : Reachable (Sys.step task tcbSet) (Sys.start α) s) : s.pc ≠ .panicked := by
  refine h.invariant (I := fun s => s.pc ≠ .panicked) nofun fun s a t hp hs => ?_
  cases a with
  | thread interrupted =>
    change (if _ then _ else _) = some t at hs
    split at hs
    case isTrue =>
      rcases advance_cases hs with ⟨pc, rfl, hpc⟩ | ⟨-, rfl⟩ | ⟨-, rfl⟩ | ⟨-, rfl⟩ | ⟨-, rfl⟩
      · rcases hpc with ⟨-, rfl⟩ | ⟨-, rfl⟩ | ⟨-, rfl⟩
        · exact nofun
        · split <;> exact nofun
        · exact nofun
      all_goals exact nofun
    case isFalse => cases hs
  | returns =>
    change (if _ then _ else _) = some t at hs
    split at hs
    case isTrue => obtain rfl := Option.some.inj hs; exact nofun
    case isFalse => cases hs
  | waitExit i =>
    change (if _ then _ else _) = some t at hs
    split at hs
    case isTrue => obtain rfl := Option.some.inj hs; exact hp
    case isFalse => cases hs
  | storeTid v => obtain rfl := Option.some.inj hs; exact hp
  | wakeTid => obtain rfl := Option.some.inj hs; exact hp
  | disturb u => obtain rfl := Option.some.inj hs; exact hp

/-- A schedule in which the creator stores the id, once and for all, and wakes
the thread some time behind that. -/
structure Told (acts : Nat → Act) (n m : Nat) (v : BitVec 32) : Prop where
  nonzero : v ≠ 0
  stores : acts n = .storeTid v
  last : ∀ j, n < j → ∀ u, acts j ≠ .storeTid u
  later : n < m
  wakes : acts m = .wakeTid

/-- Behind the wake the id is known. -/
theorem told_known {task : α} {tcbSet : Reply Unit} {acts : Nat → Act} {n m : Nat}
    {v : BitVec 32} (h : Told acts n m v) :
    Known task (after (Sys.step task tcbSet) (Sys.start α) acts (m + 1)) := by
  have htid : ∀ j, n < j → (after (Sys.step task tcbSet) (Sys.start α) acts j).words.value .tid = v := by
    intro j hj
    induction j, hj using Nat.le_induction with
    | base =>
      rw [after_succ_some (by rw [h.stores]; rfl)]
      exact Futex.store_value v
    | succ j hj ih =>
      cases hs : Sys.step task tcbSet (after (Sys.step task tcbSet) (Sys.start α) acts j) (acts j) with
      | none => rw [after_succ_none hs]; exact ih
      | some t => rw [after_succ_some hs, step_tid (h.last j hj) hs]; exact ih
  have hinv : Inv task (after (Sys.step task tcbSet) (Sys.start α) acts (m + 1)) :=
    reachable_inv (after_reachable _ _ _ _)
  have hlater := h.later
  refine ⟨hinv, by rw [htid (m + 1) (by omega)]; exact h.nonzero, ?_⟩
  refine Option.eq_none_iff_forall_ne_some.mpr fun w hw => ?_
  have hword := (hinv.own w hw).1
  rw [after_succ_some (by rw [h.wakes]; rfl)] at hw
  exact (Futex.wake_asleep hw).1 hword

/-- **The thread finishes.** In every fair schedule in which the creator stores
the id and then wakes the thread, and the function returns, the function is
called once, and in the end the thread is gone and nobody is asleep. -/
theorem told_finishes (task : α) (tcbSet : Reply Unit) {acts : Nat → Act} {n m : Nat} {v : BitVec 32}
    (h : Told acts n m v) (hfair : Fair Act.turn acts) :
    ∃ k, ∀ j, k ≤ j → let s := after (Sys.step task tcbSet) (Sys.start α) acts j
      s.pc = .gone ∧ s.calls = [task] ∧ ∀ t, s.words.asleep t = none := by
  have hlater := h.later
  have hknown : Known task (after (Sys.step task tcbSet) (Sys.start α) acts (m + 1)) :=
    told_known h
  obtain ⟨k, hk⟩ := known_finishes hknown (hfair.drop (m + 1))
  refine ⟨m + 1 + k, fun j hj => ?_⟩
  obtain ⟨i, rfl⟩ := Nat.exists_eq_add_of_le (show m + 1 ≤ j by omega)
  have hquiet (s : Sys α) (i : Nat) : s.quietStep task tcbSet (acts (m + 1 + i)) =
      s.step task tcbSet (acts (m + 1 + i)) := by
    cases ha : acts (m + 1 + i) with
    | storeTid u => exact absurd ha (h.last _ (by omega) u)
    | _ => rfl
  have hsame : after (Sys.step task tcbSet) (Sys.start α) acts (m + 1 + i) =
      after (Sys.quietStep task tcbSet)
        (after (Sys.step task tcbSet) (Sys.start α) acts (m + 1))
        (fun j => acts (m + 1 + j)) i := by
    rw [after_add]
    exact (after_congr hquiet i).symm
  have hpanic := not_panicked (after_reachable (Sys.step task tcbSet) (Sys.start α) acts
    (m + 1 + i))
  obtain ⟨hinv, hawake, hpc⟩ := hk i (by omega)
  rw [← hsame] at hinv hawake hpc
  generalize after (Sys.step task tcbSet) (Sys.start α) acts (m + 1 + i) = s at *
  have hgone : s.pc = .gone := hpc.resolve_right hpanic
  have hcalls := hinv.calls
  have hexit := hinv.didExit
  rw [hgone] at hcalls hexit
  refine ⟨hgone, hcalls, fun t => ?_⟩
  cases t with
  | none => exact hawake
  | some i =>
    refine Option.eq_none_iff_forall_ne_some.mpr fun w hw => ?_
    obtain rfl := hinv.others i w hw
    refine hinv.exitLatch.nobody (by rw [hgone]; exact nofun) ?_ (some i) hw
    rw [hexit]
    exact nofun

/-- The id is told in the first two steps, and then everybody's turn comes. -/
def telling : Nat → Act
  | 0 => .storeTid 7
  | n + 1 => if n % 3 = 0 then .wakeTid else if n % 3 = 1 then .thread false else .returns

theorem telling_fair : Fair Act.turn telling := by
  intro k n
  cases k with
  | thread => exact ⟨3 * n + 1 + 1, by omega, by rw [telling, if_neg (by omega), if_pos (by omega)]; rfl⟩
  | function =>
    exact ⟨3 * n + 2 + 1, by omega, by rw [telling, if_neg (by omega), if_neg (by omega)]; rfl⟩
  | other => exact ⟨3 * n + 1, by omega, by rw [telling, if_pos (by omega)]; rfl⟩

theorem telling_told : Told telling 0 1 7 where
  nonzero := by decide
  stores := rfl
  last j hj u := by
    obtain ⟨j, rfl⟩ := Nat.exists_eq_succ_of_ne_zero (Nat.ne_of_gt hj)
    rw [telling]
    split
    · exact nofun
    · split <;> exact nofun
  later := Nat.one_pos
  wakes := rfl

theorem telling_finishes : ∃ k, ∀ j, k ≤ j →
    let s := after (Sys.step () (.success 0 ())) (Sys.start Unit) telling j
    s.pc = .gone ∧ s.calls = [()] ∧ ∀ t, s.words.asleep t = none :=
  told_finishes () (.success 0 ()) telling_told telling_fair

end SalernOS.Sysdeps.Trampoline
