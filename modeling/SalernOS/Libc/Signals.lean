import SalernOS.Lib.Machine
import SalernOS.Libc.Text
import SalernOS.Sysdeps.Syscall

/-! # Signals around a command, and at the end

`system` and `abort` of `stdlib.patched.cpp`, over `sys_sigaction`,
`sys_sigprocmask`, `sys_fork` and `sys_waitpid` of `generic.cpp`. The kernel
accepts what these functions tell it about signals.
-/
namespace SalernOS.Libc.Signals
open SalernOS.Lib SalernOS.Sysdeps

abbrev Signal := Nat

def sigint : Signal := 2
def sigquit : Signal := 3
def sigabrt : Signal := 6
def sigchld : Signal := 17

def saRestorer : BitVec 64 := 0x04000000

def eintr : BitVec 64 := 4

inductive Handler where
  | dfl
  | ign
  | fn (addr : Nat)
deriving DecidableEq, Repr

inductive Restorer where
  | mlibcRestorer
  | other (addr : BitVec 64)
deriving DecidableEq, Repr

abbrev SigSet := Signal → Bool

def emptySet : SigSet := fun _ => false
def fillSet : SigSet := fun _ => true
def SigSet.add (s : SigSet) (sig : Signal) : SigSet := Function.update s sig true
def SigSet.del (s : SigSet) (sig : Signal) : SigSet := Function.update s sig false

/-- `struct sigaction`. -/
structure SigAction where
  handler : Handler
  flags : BitVec 64
  restorer : Restorer
  mask : SigSet

/-- What belongs to a process: its dispositions, its mask, and `errno`. -/
structure Proc where
  actions : Signal → SigAction
  mask : SigSet
  errno : Int

/-! ## The system calls -/

/-- What `sys_sigaction` makes of an action before it hands it on. -/
def withRestorer (act : SigAction) : SigAction :=
  if act.flags &&& saRestorer = 0 then
    { act with restorer := .mlibcRestorer, flags := act.flags ||| saRestorer }
  else act

/-- `sys_sigaction`, with the old action. -/
def sysSigaction (sig : Signal) (act : Option SigAction) (p : Proc) : SigAction × Proc :=
  let callAction := act.map withRestorer
  (p.actions sig,
    match callAction with
    | some act => { p with actions := Function.update p.actions sig act }
    | none => p)

inductive How where
  | block
  | unblock
  | setMask
deriving DecidableEq, Repr

/-- `sys_sigprocmask`, with the old mask. -/
def sysSigprocmask (how : How) (set : Option SigSet) (p : Proc) : SigSet × Proc :=
  (p.mask,
    match set with
    | none => p
    | some set =>
      { p with
        mask := fun sig =>
          match how with
          | .block => p.mask sig || set sig
          | .unblock => p.mask sig && !set sig
          | .setMask => set sig })

/-- `sys_waitpid`: the answers of the kernel to one call after the other, and
`*status`. What is left over answers later calls; `none` is a call that does
not come back. -/
def sysWaitpid (status : BitVec 32) :
    List (Reply (BitVec 32)) → Option (Int × BitVec 32 × List (Reply (BitVec 32)))
  | [] => none
  | .success _ stored :: rest => some (0, stored, rest)
  | .failure _ e :: rest =>
    if e.code = eintr then sysWaitpid status rest else some (cint e.code, status, rest)

/-! ## `system` -/

/-- How the kernel answers, and what `new_sa.sa_restorer` holds, which nobody sets. -/
structure Answers where
  fork : Reply Unit
  waits : List (Reply (BitVec 32))
  execve : Bool
  junk : Restorer

/-- What becomes of a process. -/
inductive Ending where
  | returned (r : BitVec 32)
  /-- Still in `sys_waitpid`. -/
  | waiting
  /-- `sh -c command`, with the dispositions and the mask as they are. -/
  | execs (command : Bytes)
  | exited (code : Int)
deriving DecidableEq, Repr

/-- The loop around `sys_waitpid`. -/
def waitLoop : Nat → BitVec 32 → List (Reply (BitVec 32)) → Int → Option (BitVec 32 × Int)
  | 0, _, _, _ => none
  | fuel + 1, status, waits, errno =>
    match sysWaitpid status waits with
    | none => none
    | some (err, status, waits) =>
      if err < 0 then
        if err = cint eintr then waitLoop fuel status waits errno
        else waitLoop fuel (-1) waits err
      else some (status, errno)

def ignoring (junk : Restorer) : SigAction := ⟨.ign, 0, junk, emptySet⟩

/-- The last three calls, in the parent and in the child. -/
def putBack (oldInt oldQuit : SigAction) (oldMask : SigSet) (p : Proc) : Proc :=
  let (_, p) := sysSigaction sigint (some oldInt) p
  let (_, p) := sysSigaction sigquit (some oldQuit) p
  let (_, p) := sysSigprocmask .setMask (some oldMask) p
  p

/-- `system`, in the process that `fork` returns to. -/
def system (os : Answers) (command : Option Bytes) (p : Proc) : Ending × Proc :=
  match command with
  | none => (.returned 1, p)
  | some command =>
    let (oldInt, p) := sysSigaction sigint (some (ignoring os.junk)) p
    let (oldQuit, p) := sysSigaction sigquit (some (ignoring os.junk)) p
    let (oldMask, p) := sysSigprocmask .block (some (emptySet.add sigchld)) p
    match os.fork with
    | .failure _ e =>
      (.returned (-1), putBack oldInt oldQuit oldMask { p with errno := cint e.code })
    | .success child _ =>
      if child.setWidth 32 = (0 : BitVec 32) then
        (if os.execve then .execs command else .exited 127, putBack oldInt oldQuit oldMask p)
      else
        match waitLoop (os.waits.length + 1) (-1) os.waits p.errno with
        | none => (.waiting, p)
        | some (status, errno) =>
          (.returned status, putBack oldInt oldQuit oldMask { p with errno := errno })

/-! ## `abort` -/

/-- What handlers do: they change the process and return, or do not return. -/
abbrev Handlers := Nat → Proc → Option Proc

inductive Raised where
  | killed
  /-- The handler has gone elsewhere. -/
  | left
  | back (p : Proc)

/-- `raise`: a blocked signal stays pending. -/
def raise (handlers : Handlers) (sig : Signal) (p : Proc) : Raised :=
  if p.mask sig then .back p
  else
    match (p.actions sig).handler with
    | .dfl => .killed
    | .ign => .back p
    | .fn addr =>
      match handlers addr p with
      | some p => .back p
      | none => .left

inductive AbortEnding where
  | killed
  | left
  /-- `__builtin_trap`. -/
  | trapped
deriving DecidableEq, Repr

/-- `abort`; `sa_restorer` of the action is whatever is there. -/
def abort (handlers : Handlers) (junk : Restorer) (p : Proc) : AbortEnding :=
  let (_, p) := sysSigprocmask .unblock (some (emptySet.add sigabrt)) p
  match raise handlers sigabrt p with
  | .killed => .killed
  | .left => .left
  | .back p =>
    let (_, p) := sysSigprocmask .setMask (some (fillSet.del sigabrt)) p
    let (_, p) := sysSigaction sigabrt (some ⟨.dfl, 0, junk, emptySet⟩) p
    match raise handlers sigabrt p with
    | .killed => .killed
    | .left => .left
    | .back _ => .trapped

/-! ## What `system` does on each path -/

/-- What `waitpid` comes to: the first answer that is not an interruption. -/
def settledBy : List (Reply (BitVec 32)) → Option (BitVec 32)
  | [] => none
  | .success _ stored :: _ => some stored
  | .failure _ e :: rest => if e.code = eintr then settledBy rest else some (-1)

theorem sysWaitpid_settled (waits : List (Reply (BitVec 32))) :
    sysWaitpid (-1) waits = none ∧ settledBy waits = none ∨
      ∃ err status rest, sysWaitpid (-1) waits = some (err, status, rest) ∧ 0 ≤ err ∧
        settledBy waits = some status := by
  induction waits with
  | nil => exact .inl ⟨rfl, rfl⟩
  | cons w waits ih =>
    cases w with
    | success ret stored => exact .inr ⟨_, _, _, rfl, Int.le_refl 0, rfl⟩
    | failure ret e =>
      rw [sysWaitpid, settledBy]
      by_cases he : e.code = eintr
      · rw [if_pos he, if_pos he]
        exact ih
      · rw [if_neg he, if_neg he]
        exact .inr ⟨_, _, _, rfl, Int.le_of_lt e.cint_pos, rfl⟩

/-- An error of `sys_waitpid` is never negative, so that the loop is left at once. -/
theorem waitLoop_settled (fuel : Nat) (waits : List (Reply (BitVec 32))) (errno : Int) :
    waitLoop (fuel + 1) (-1) waits errno = (settledBy waits).map (·, errno) := by
  rw [waitLoop]
  rcases sysWaitpid_settled waits with ⟨h, hs⟩ | ⟨err, status, rest, h, hle, hs⟩
  · rw [h, hs]
    rfl
  · rw [h, hs]
    exact if_neg (Int.not_lt.mpr hle)

/-- As it was, with a restorer in the two actions that were put back. -/
structure Restored (p q : Proc) : Prop where
  mask : q.mask = p.mask
  actions : ∀ sig, q.actions sig =
    if sig = sigint ∨ sig = sigquit then withRestorer (p.actions sig) else p.actions sig

/-- As it is while the command runs. -/
structure Guarded (p q : Proc) : Prop where
  mask : ∀ sig, q.mask sig = (p.mask sig || sig == sigchld)
  ignored : ∀ sig, sig = sigint ∨ sig = sigquit → (q.actions sig).handler = .ign
  others : ∀ sig, sig ≠ sigint → sig ≠ sigquit → q.actions sig = p.actions sig

def Behaves (os : Answers) (command : Bytes) (p : Proc) : Ending × Proc → Prop
  | (.returned r, q) => Restored p q ∧
    ((∃ ret e, os.fork = .failure ret e ∧ r = -1 ∧ q.errno = cint e.code) ∨
      settledBy os.waits = some r ∧ q.errno = p.errno)
  | (.waiting, q) => Guarded p q ∧ settledBy os.waits = none
  | (.execs c, q) => Restored p q ∧ c = command
  | (.exited code, q) => Restored p q ∧ code = 127

/-- Behind the first three calls. -/
def guarded (junk : Restorer) (p : Proc) : Proc :=
  (sysSigprocmask .block (some (emptySet.add sigchld))
    (sysSigaction sigquit (some (ignoring junk)) (sysSigaction sigint (some (ignoring junk)) p).2).2).2

theorem withRestorer_handler (act : SigAction) : (withRestorer act).handler = act.handler := by
  unfold withRestorer
  split <;> rfl

theorem guarded_guarded (junk : Restorer) (p : Proc) : Guarded p (guarded junk p) where
  mask sig := by
    show (p.mask sig || Function.update emptySet sigchld true sig) = _
    rw [Function.update_apply]
    by_cases h : sig = sigchld <;> simp [h, emptySet]
  ignored sig h := by
    show (Function.update (Function.update p.actions sigint _) sigquit _ sig).handler = _
    rcases h with rfl | rfl
    · rw [Function.update_of_ne (by decide), Function.update_self, withRestorer_handler]
      rfl
    · rw [Function.update_self, withRestorer_handler]
      rfl
  others sig h1 h2 := by
    show Function.update (Function.update p.actions sigint _) sigquit _ sig = _
    rw [Function.update_of_ne h2, Function.update_of_ne h1]

theorem putBack_restored (junk : Restorer) (p : Proc) (errno : Int) :
    Restored p (putBack (p.actions sigint) (p.actions sigquit) p.mask
      { guarded junk p with errno := errno }) where
  mask := rfl
  actions sig := by
    show Function.update (Function.update (guarded junk p).actions sigint _) sigquit _ sig = _
    by_cases h2 : sig = sigquit
    · subst h2
      rw [Function.update_self, if_pos (.inr rfl)]
    · rw [Function.update_of_ne h2]
      by_cases h1 : sig = sigint
      · subst h1
        rw [Function.update_self, if_pos (.inl rfl)]
      · rw [Function.update_of_ne h1, if_neg (not_or.mpr ⟨h1, h2⟩)]
        exact (guarded_guarded junk p).others sig h1 h2

theorem system_eq (os : Answers) (command : Bytes) (p : Proc) :
    system os (some command) p =
      match os.fork with
      | .failure _ e => (.returned (-1), putBack (p.actions sigint) (p.actions sigquit) p.mask
          { guarded os.junk p with errno := cint e.code })
      | .success child _ =>
        if child.setWidth 32 = (0 : BitVec 32) then
          (if os.execve then .execs command else .exited 127,
            putBack (p.actions sigint) (p.actions sigquit) p.mask (guarded os.junk p))
        else
          match settledBy os.waits with
          | none => (.waiting, guarded os.junk p)
          | some status => (.returned status, putBack (p.actions sigint) (p.actions sigquit) p.mask
              { guarded os.junk p with errno := p.errno }) := by
  -- the old action of the second call is read behind the first one
  have hne : sigquit ≠ sigint := by decide
  have hquit : (sysSigaction sigint (some (ignoring os.junk)) p).2.actions sigquit =
      p.actions sigquit := Function.update_of_ne hne (withRestorer (ignoring os.junk)) p.actions
  have hold : (sysSigaction sigquit (some (ignoring os.junk))
      (sysSigaction sigint (some (ignoring os.junk)) p).2).1 = p.actions sigquit := hquit
  unfold system
  simp only [hold, waitLoop_settled]
  cases os.fork with
  | failure ret e => rfl
  | success child _ =>
    simp only
    split
    · rfl
    · cases settledBy os.waits <;> rfl

/-- **`system` leaves the signals as they were.** On every path the caller gets
back its mask and its dispositions, and so does the command; only in between
are interrupts ignored, and the death of children is held back. -/
theorem system_behaves (os : Answers) (command : Bytes) (p : Proc) :
    Behaves os command p (system os (some command) p) := by
  rw [system_eq]
  cases hfork : os.fork with
  | failure ret e => exact ⟨putBack_restored os.junk p _, .inl ⟨ret, e, hfork, rfl, rfl⟩⟩
  | success child _ =>
    simp only
    split
    · have hback := putBack_restored os.junk p (guarded os.junk p).errno
      split
      · exact ⟨hback, rfl⟩
      · exact ⟨hback, rfl⟩
    · cases hsettled : settledBy os.waits with
      | none => exact ⟨guarded_guarded os.junk p, hsettled⟩
      | some status => exact ⟨putBack_restored os.junk p _, .inr ⟨hsettled, rfl⟩⟩

/-! ## Runs of calls -/

/-- A call of a program that has to do with signals. -/
inductive Call where
  | sigaction (sig : Signal) (act : Option SigAction)
  | sigprocmask (how : How) (set : Option SigSet)
  | system (os : Answers) (command : Bytes)

/-- The process behind a call that comes back to it. -/
def Proc.step (p : Proc) : Call → Option Proc
  | .sigaction sig act => some (sysSigaction sig act p).2
  | .sigprocmask how set => some (sysSigprocmask how set p).2
  | .system os command =>
    match Signals.system os (some command) p with
    | (.returned _, p) => some p
    | _ => none

def Call.isSystem : Call → Bool
  | .system _ _ => true
  | _ => false

/-- Two processes whose signals do the same. -/
structure Alike (p q : Proc) : Prop where
  mask : p.mask = q.mask
  actions : ∀ sig, withRestorer (p.actions sig) = withRestorer (q.actions sig)

theorem Alike.refl (p : Proc) : Alike p p := ⟨rfl, fun _ => rfl⟩

theorem Alike.trans {p q r : Proc} (h : Alike p q) (h' : Alike q r) : Alike p r :=
  ⟨h.mask.trans h'.mask, fun sig => (h.actions sig).trans (h'.actions sig)⟩

theorem withRestorer_flags (act : SigAction) : (withRestorer act).flags &&& saRestorer ≠ 0 := by
  by_cases h : act.flags &&& saRestorer = 0
  · have hor : (act.flags ||| saRestorer) &&& saRestorer = saRestorer := by
      ext i hi
      simp only [BitVec.getElem_and, BitVec.getElem_or]
      cases act.flags[i] <;> cases saRestorer[i] <;> rfl
    rw [withRestorer, if_pos h, hor]
    decide
  · rw [withRestorer, if_neg h]
    exact h

theorem withRestorer_idem (act : SigAction) : withRestorer (withRestorer act) = withRestorer act :=
  if_neg (withRestorer_flags act)

theorem Restored.alike {p q : Proc} (h : Restored p q) : Alike q p where
  mask := h.mask
  actions sig := by
    rw [h.actions sig]
    split
    · exact withRestorer_idem _
    · rfl

theorem Alike.sigaction {p q : Proc} (h : Alike p q) (sig : Signal) (act : Option SigAction) :
    Alike (sysSigaction sig act p).2 (sysSigaction sig act q).2 := by
  cases act with
  | none => exact h
  | some act =>
    refine ⟨h.mask, fun s => ?_⟩
    show withRestorer (Function.update p.actions sig _ s) =
      withRestorer (Function.update q.actions sig _ s)
    by_cases hs : s = sig
    · subst hs
      rw [Function.update_self, Function.update_self]
    · rw [Function.update_of_ne hs, Function.update_of_ne hs]
      exact h.actions s

theorem Alike.sigprocmask {p q : Proc} (h : Alike p q) (how : How) (set : Option SigSet) :
    Alike (sysSigprocmask how set p).2 (sysSigprocmask how set q).2 := by
  cases set with
  | none => exact h
  | some set =>
    refine ⟨funext fun sig => ?_, h.actions⟩
    simp only [sysSigprocmask, h.mask]

/-- **Commands leave no trace.** The calls of `system` can be left out of any
run, and the signals do the same behind it. -/
theorem commands_traceless : ∀ (calls : List Call) {p q r : Proc}, Alike p q →
    runAll Proc.step p calls = some r →
    ∃ r', runAll Proc.step q (calls.filter fun c => !c.isSystem) = some r' ∧ Alike r r' := by
  intro calls
  induction calls with
  | nil =>
    intro p q r h hr
    obtain rfl := Option.some.inj hr
    exact ⟨q, rfl, h⟩
  | cons c calls ih =>
    intro p q r h hr
    obtain ⟨s, hs, hr⟩ := Option.bind_eq_some_iff.mp hr
    cases c with
    | sigaction sig act =>
      obtain rfl := Option.some.inj hs
      exact ih (h.sigaction sig act) hr
    | sigprocmask how set =>
      obtain rfl := Option.some.inj hs
      exact ih (h.sigprocmask how set) hr
    | system os command =>
      have hbehaves := system_behaves os command p
      have hs : (match Signals.system os (some command) p with
        | (.returned _, p) => some p
        | _ => none) = some s := hs
      generalize Signals.system os (some command) p = e at hbehaves hs
      obtain ⟨ending, s'⟩ := e
      cases ending with
      | returned n =>
        obtain rfl := Option.some.inj hs
        exact ih (hbehaves.1.alike.trans h) hr
      | waiting => cases hs
      | execs c => cases hs
      | exited n => cases hs

/-- A run with two commands in it, one of which cannot be started. -/
def shelling (w : Reply (BitVec 32)) (e : Errno) : List Call :=
  [.sigaction 2 (some ⟨.fn 1, 0, .other 0, emptySet⟩),
    .system ⟨.success 5 (), [w, .success 5 0], true, .other 0⟩ [],
    .sigprocmask .block (some fillSet),
    .system ⟨.failure 0 e, [], true, .other 0⟩ []]

def interrupted : Errno := ⟨eintr, by decide, by decide⟩

/-- A process that has not asked for anything yet. -/
def fresh : Proc := ⟨fun _ => ⟨.dfl, 0, .other 0, emptySet⟩, emptySet, 0⟩

theorem shelling_traceless :
    ∃ r r', runAll Proc.step fresh (shelling (.failure 0 interrupted) interrupted) = some r ∧
      runAll Proc.step fresh [.sigaction 2 (some ⟨.fn 1, 0, .other 0, emptySet⟩),
        .sigprocmask .block (some fillSet)] = some r' ∧ Alike r r' := by
  obtain ⟨r', hr', halike⟩ := commands_traceless
    (shelling (.failure 0 interrupted) interrupted) (.refl fresh) rfl
  exact ⟨_, r', rfl, hr', halike⟩

/-! ## `abort` -/

/-- The second signal of `abort` finds the default action and no mask. -/
theorem raise_default (handlers : Handlers) (sig : Signal) {p : Proc} (hmask : p.mask sig = false)
    (hdfl : (p.actions sig).handler = .dfl) : raise handlers sig p = .killed := by
  rw [raise, hmask, if_neg Bool.false_ne_true, hdfl]

/-- **`abort` does not come back.** Whatever is blocked, ignored or handled, the
process is killed, unless a handler of the signal goes elsewhere. -/
theorem abort_ends (handlers : Handlers) (junk : Restorer) (p : Proc) :
    abort handlers junk p = .killed ∨ abort handlers junk p = .left ∧
      ∃ addr q, (p.actions sigabrt).handler = .fn addr ∧ handlers addr q = none := by
  unfold abort
  simp only
  generalize hq : (sysSigprocmask .unblock (some (emptySet.add sigabrt)) p).2 = q
  have hactions : q.actions = p.actions := by rw [← hq]; rfl
  cases hraise : raise handlers sigabrt q with
  | killed => exact .inl rfl
  | left =>
    refine .inr ⟨rfl, ?_⟩
    unfold raise at hraise
    split at hraise
    · cases hraise
    · rw [hactions] at hraise
      cases hhandler : (p.actions sigabrt).handler with
      | dfl => rw [hhandler] at hraise; cases hraise
      | ign => rw [hhandler] at hraise; cases hraise
      | fn addr =>
        rw [hhandler] at hraise
        refine ⟨addr, q, rfl, ?_⟩
        cases hend : handlers addr q with
        | none => rfl
        | some r => simp only [hend] at hraise; cases hraise
  | back r =>
    simp only
    have hdfl : (Function.update r.actions sigabrt
        (withRestorer ⟨.dfl, 0, junk, emptySet⟩) sigabrt).handler = .dfl := by
      rw [Function.update_self, withRestorer_handler]
    have hmask : Function.update fillSet sigabrt false sigabrt = false := Function.update_self ..
    rw [raise_default handlers sigabrt hmask hdfl]
    exact .inl rfl

end SalernOS.Libc.Signals
