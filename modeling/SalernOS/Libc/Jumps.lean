import SalernOS.Libc.Signals

/-! # `__sigsetjmp` and `siglongjmp` of `stdlib.patched.cpp`

What the jumps have to do with signals: a buffer keeps a mask, if it was asked
to, until a jump to it. The registers are left to the compiler and `longjmp`.
-/
namespace SalernOS.Libc.Jumps
open SalernOS.Lib SalernOS.Libc.Signals

/-- `sigjmp_buf`. -/
structure SigjmpBuf where
  savesigs : BitVec 32
  sigset : SigSet

/-- A process and its buffers, each of them under a name. -/
structure Task where
  proc : Proc
  buffers : Nat → SigjmpBuf

/-- The first return of `__sigsetjmp`. -/
def sigsetjmp (b : Nat) (savesigs : BitVec 32) (t : Task) : BitVec 32 × Task :=
  let buffer := { t.buffers b with savesigs := savesigs }
  if savesigs ≠ 0 then
    let (sigset, proc) := sysSigprocmask .block none t.proc
    (0, ⟨proc, Function.update t.buffers b { buffer with sigset := sigset }⟩)
  else (0, { t with buffers := Function.update t.buffers b buffer })

/-- The process at the second return. -/
def siglongjmp (b : Nat) (t : Task) : Task :=
  if (t.buffers b).savesigs ≠ 0 then
    { t with proc := (sysSigprocmask .setMask (some (t.buffers b).sigset) t.proc).2 }
  else t

inductive Act where
  | call (c : Call)
  | sigsetjmp (b : Nat) (savesigs : BitVec 32)
  | siglongjmp (b : Nat)

def Task.step (t : Task) : Act → Option Task
  | .call c => (t.proc.step c).map fun proc => { t with proc := proc }
  | .sigsetjmp b savesigs => some (sigsetjmp b savesigs t).2
  | .siglongjmp b => some (siglongjmp b t)

/-- Other calls set this buffer. -/
def Act.spares (b : Nat) : Act → Prop
  | .sigsetjmp b' _ => b' ≠ b
  | _ => True

variable {b : Nat} {t u : Task} {savesigs : BitVec 32}

/-- What is kept. -/
theorem sigsetjmp_buffer : ((sigsetjmp b savesigs t).2.buffers b).savesigs = savesigs ∧
    (savesigs ≠ 0 → ((sigsetjmp b savesigs t).2.buffers b).sigset = t.proc.mask) := by
  unfold sigsetjmp
  split
  case isTrue =>
    show (Function.update t.buffers b _ b).savesigs = _ ∧
      (_ → (Function.update t.buffers b _ b).sigset = _)
    rw [Function.update_self]
    exact ⟨rfl, fun _ => rfl⟩
  case isFalse hzero =>
    show (Function.update t.buffers b _ b).savesigs = _ ∧ _
    rw [Function.update_self]
    exact ⟨rfl, fun hne => absurd hne hzero⟩

theorem step_buffer {a : Act} (ha : a.spares b) (hs : t.step a = some u) :
    u.buffers b = t.buffers b := by
  cases a with
  | call c =>
    obtain ⟨proc, -, rfl⟩ := Option.map_eq_some_iff.mp hs
    rfl
  | sigsetjmp b' savesigs =>
    obtain rfl := Option.some.inj hs
    have hne : b ≠ b' := fun he => ha he.symm
    unfold sigsetjmp
    split
    · exact Function.update_of_ne hne ..
    · exact Function.update_of_ne hne ..
  | siglongjmp b' =>
    obtain rfl := Option.some.inj hs
    unfold siglongjmp
    split <;> rfl

theorem run_buffer : ∀ {acts : List Act} {t : Task}, (∀ a ∈ acts, a.spares b) →
    runAll Task.step t acts = some u → u.buffers b = t.buffers b := by
  intro acts
  induction acts with
  | nil =>
    intro t _ h
    obtain rfl := Option.some.inj h
    rfl
  | cons a acts ih =>
    intro t hspares h
    obtain ⟨t', hs, h⟩ := Option.bind_eq_some_iff.mp h
    rw [ih (fun a ha => hspares a (List.mem_cons_of_mem _ ha)) h]
    exact step_buffer (hspares a (List.mem_cons_self ..)) hs

/-- **A jump brings the mask back.** Whatever happens between `__sigsetjmp` and
`siglongjmp`, other jumps and commands among it, the jump gives the process the
mask that it had at the first, if the buffer was asked to keep it, and changes
nothing else. -/
theorem jump_restores (acts : List Act) (hspares : ∀ a ∈ acts, a.spares b)
    (hrun : runAll Task.step t (.sigsetjmp b savesigs :: acts) = some u) :
    (siglongjmp b u).buffers = u.buffers ∧
      (siglongjmp b u).proc =
        if savesigs ≠ 0 then { u.proc with mask := t.proc.mask } else u.proc := by
  obtain ⟨t', hset, hrun⟩ := Option.bind_eq_some_iff.mp hrun
  obtain rfl := Option.some.inj hset
  have hbuffer := run_buffer hspares hrun
  obtain ⟨hsaves, hsigset⟩ : ((sigsetjmp b savesigs t).2.buffers b).savesigs = savesigs ∧
      (savesigs ≠ 0 → ((sigsetjmp b savesigs t).2.buffers b).sigset = t.proc.mask) := sigsetjmp_buffer
  unfold siglongjmp
  rw [hbuffer, hsaves]
  split
  case isTrue hne =>
    rw [hsigset hne]
    exact ⟨rfl, rfl⟩
  case isFalse => exact ⟨rfl, rfl⟩

/-- Two buffers, and a mask that changes in between. -/
def blocked : Task := ⟨fresh, fun _ => ⟨0, emptySet⟩⟩

def nested : List Act :=
  [.call (.sigprocmask .block (some fillSet)), .sigsetjmp 1 1, .siglongjmp 0, .siglongjmp 1]

theorem nested_restores : ∃ u, runAll Task.step blocked (.sigsetjmp 0 1 :: nested) = some u ∧
    (siglongjmp 0 u).buffers = u.buffers ∧
      (siglongjmp 0 u).proc =
        if (1 : BitVec 32) ≠ 0 then { u.proc with mask := blocked.proc.mask } else u.proc := by
  refine ⟨_, rfl, jump_restores nested ?_ rfl⟩
  intro a ha
  simp only [nested, List.mem_cons, List.not_mem_nil, or_false] at ha
  rcases ha with rfl | rfl | rfl | rfl
  · trivial
  · exact Nat.one_ne_zero
  · trivial
  · trivial

end SalernOS.Libc.Jumps
