import SalernOS.Lib.Chunks
import SalernOS.Lib.Descriptors
import SalernOS.Lib.Machine
import SalernOS.Libc.Text

/-! # `mlibc-salernos/sysdeps/generic/utmpx.c`

The login records are a file without framing, behind one global descriptor.
Other code of the process opens and closes descriptors of its own in between,
and the kernel gives out any number that is free.
-/
namespace SalernOS.Sysdeps.Utmpx
open SalernOS.Lib SalernOS.Libc

abbrev Fd := Nat

/-- `sizeof(struct utmpx)`. -/
def sizeofUtmpx : Nat := 400

/-- The bytes of a `struct utmpx`. -/
abbrev Record := Chunk UInt8 sizeofUtmpx

/-- Who has opened a descriptor. -/
inductive Owner where
  | utmpx
  | other
deriving DecidableEq, Repr

structure OpenFile where
  owner : Owner
  content : Bytes
  offset : Nat
deriving DecidableEq, Repr

/-- What a file becomes when bytes are stored at its offset; a gap reads as zeros. -/
def OpenFile.store (f : OpenFile) (bytes : Bytes) : OpenFile :=
  { f with
    content := f.content.take f.offset ++ List.replicate (f.offset - f.content.length) 0 ++
      bytes ++ f.content.drop (f.offset + bytes.length)
    offset := f.offset + bytes.length }

/-- `touched` lists the owners of the descriptors that the module has read,
written, sought and closed; `none` is a descriptor that was not open. -/
structure State where
  table : Descriptors OpenFile
  utmpxFile : Int
  touched : List (Option Owner)

/-- How the kernel answers: which descriptor `open` gives and what the file holds,
and how much `write` takes, where `none` is a failure. -/
structure Answers where
  opening : Opening OpenFile
  content : Bytes
  write : Option (Fin (sizeofUtmpx + 1))

namespace State

/-! ## System calls on `utmpx_file` -/

def fd (s : State) : Fd := s.utmpxFile.toNat

def current (s : State) : Option OpenFile := s.table.lookup s.fd

def touch (s : State) : State := { s with touched := s.touched ++ [s.current.map OpenFile.owner] }

/-- A call that leaves the descriptor open. -/
def update (g : OpenFile → OpenFile) (s : State) : State :=
  { s.touch with
    table :=
      match s.current with
      | some f => s.table.insert s.fd (g f)
      | none => s.table }

def close (s : State) : State := { s.touch with table := s.table.erase s.fd }

/-- `utmpx_file = open(...)`. -/
def openFile (os : Answers) (s : State) : State :=
  match os.opening s.table with
  | none => { s with utmpxFile := -1 }
  | some new =>
    { s with table := s.table.insert new ⟨.utmpx, os.content, 0⟩, utmpxFile := (new.val : Int) }

def seekSet (s : State) : State := s.update fun f => { f with offset := 0 }

def seekEnd (s : State) : State := s.update fun f => { f with offset := f.content.length }

/-- The bytes that `read` stores, as many as it returns. -/
def read (n : Nat) (s : State) : Bytes × State :=
  let bytes := (s.current.map fun f => (f.content.drop f.offset).take n).getD []
  (bytes, s.update fun f => { f with offset := f.offset + bytes.length })

/-- The number of bytes that `write` takes. -/
def write (os : Answers) (bytes : Bytes) (s : State) : Option Nat × State :=
  match os.write with
  | none => (none, s.touch)
  | some k => (some k, s.update fun f => f.store (bytes.take k))

end State

/-! ## The functions -/

def endutxent (s : State) : State := if s.utmpxFile ≥ 0 then s.close else s

def setutxent (os : Answers) (s : State) : State :=
  if s.utmpxFile < 0 then s.openFile os else s.seekSet

def getutxent (os : Answers) (s : State) : Option Record × State :=
  let s := if s.utmpxFile < 0 then setutxent os s else s
  if s.utmpxFile < 0 then (none, s)
  else
    let (bytes, s) := s.read sizeofUtmpx
    if h : bytes.length = sizeofUtmpx then (some ⟨bytes, h⟩, s) else (none, s)

def pututxline (os : Answers) (added : Record) (s : State) : Option Record × State :=
  let s := if s.utmpxFile < 0 then setutxent os s else s
  if s.utmpxFile < 0 then (none, s)
  else
    let (written, s) := s.seekEnd.write os added.elems
    if written = some sizeofUtmpx then (some added, s) else (none, s)

def utmpxname (os : Answers) (s : State) : Int × State :=
  let s := if s.utmpxFile > 0 then s.close else s
  let s := s.openFile os
  if s.utmpxFile > 0 then (1, s.seekEnd) else (0, s)

/-! ## The process -/

/-- A call of the module, or other code at work on its own descriptors. -/
inductive Action where
  | endutxent
  | setutxent (os : Answers)
  | getutxent (os : Answers)
  | pututxline (os : Answers) (added : Record)
  | utmpxname (os : Answers)
  | otherOpens (opening : Opening OpenFile) (content : Bytes)
  | otherCloses (fd : Fd)

/-- Other code closes only what it has opened. -/
def State.step (s : State) : Action → Option State
  | .endutxent => some (Utmpx.endutxent s)
  | .setutxent os => some (Utmpx.setutxent os s)
  | .getutxent os => some (Utmpx.getutxent os s).2
  | .pututxline os added => some (Utmpx.pututxline os added s).2
  | .utmpxname os => some (Utmpx.utmpxname os s).2
  | .otherOpens opening content =>
    match opening s.table with
    | none => some s
    | some new => some { s with table := s.table.insert new ⟨.other, content, 0⟩ }
  | .otherCloses fd =>
    if (s.table.lookup fd).map OpenFile.owner = some .other then
      some { s with table := s.table.erase fd }
    else none

/-- The module has opened the descriptor, and it is still open. -/
def State.Opened (s : State) (fd : Fd) : Prop :=
  (s.table.lookup fd).map OpenFile.owner = some .utmpx

/-- A process that has not called the module yet. -/
structure Fresh (s : State) : Prop where
  file : s.utmpxFile = -1
  none_opened : ∀ fd, ¬ s.Opened fd
  untouched : s.touched = []

/-- `utmpx_file` is a descriptor of the module or none, there is no second one,
and no call was made on one that the module had not opened. -/
structure Owned (s : State) : Prop where
  current : s.utmpxFile < 0 ∨ s.Opened s.fd
  single : ∀ fd fd', s.Opened fd → s.Opened fd' → fd = fd'
  touched : ∀ o ∈ s.touched, o = some .utmpx

/-- `endutxent` is called only where there is nothing to close, as it does not
reset `utmpx_file`, and `utmpxname` only where that is not `0`, which it takes
for a descriptor that is not open. -/
def careful (s : State) : Action → Bool
  | .endutxent => s.utmpxFile < 0
  | .utmpxname _ => s.utmpxFile != 0
  | _ => true

def State.carefulStep (s : State) (a : Action) : Option State :=
  if careful s a then s.step a else none

/-! ## What the system calls do to the descriptors of the module -/

/-- The descriptor in `utmpx_file`, if it is one, is all that the module has open. -/
structure Inv (s : State) : Prop where
  opened : ∀ fd : Fd, s.Opened fd ↔ (fd : Int) = s.utmpxFile
  touched : ∀ o ∈ s.touched, o = some .utmpx

/-- The module has nothing open. -/
structure Closed (s : State) : Prop where
  none_opened : ∀ fd, ¬ s.Opened fd
  touched : ∀ o ∈ s.touched, o = some .utmpx

theorem fd_cast {s : State} (h : 0 ≤ s.utmpxFile) : (s.fd : Int) = s.utmpxFile :=
  Int.toNat_of_nonneg h

theorem Inv.owned {s : State} (h : Inv s) : Owned s where
  current := (lt_or_ge s.utmpxFile 0).imp_right fun hge => (h.opened _).mpr (fd_cast hge)
  single fd fd' h₁ h₂ := Int.ofNat_inj.mp (((h.opened fd).mp h₁).trans ((h.opened fd').mp h₂).symm)
  touched := h.touched

theorem Inv.closed {s : State} (h : Inv s) (hneg : s.utmpxFile < 0) : Closed s where
  none_opened fd hfd := by
    have := (h.opened fd).mp hfd
    omega
  touched := h.touched

theorem touched_touch {s : State} (h : ∀ o ∈ s.touched, o = some .utmpx) (hfd : s.Opened s.fd) :
    ∀ o ∈ s.touch.touched, o = some .utmpx := by
  intro o ho
  rcases List.mem_append.mp ho with ho | ho
  · exact h o ho
  · rw [List.mem_singleton.mp ho]
    exact hfd

theorem Inv.opened_fd {s : State} (h : Inv s) (hge : 0 ≤ s.utmpxFile) : s.Opened s.fd :=
  (h.opened _).mpr (fd_cast hge)

theorem update_opened {s : State} {g : OpenFile → OpenFile} (hg : ∀ f, (g f).owner = f.owner)
    (fd : Fd) : (s.update g).Opened fd ↔ s.Opened fd := by
  unfold State.update State.Opened State.current
  cases hcur : s.table.lookup s.fd with
  | none => rfl
  | some f =>
    simp only [Descriptors.lookup_insert_eq]
    by_cases hfd : fd = s.fd
    · subst hfd
      rw [if_pos rfl, hcur]
      simp [hg]
    · rw [if_neg hfd]

theorem seekEnd_opened {s : State} (fd : Fd) : s.seekEnd.Opened fd ↔ s.Opened fd :=
  update_opened (g := fun f => { f with offset := f.content.length }) (fun _ => rfl) fd

theorem Inv.update {s : State} (h : Inv s) (hge : 0 ≤ s.utmpxFile) {g : OpenFile → OpenFile}
    (hg : ∀ f, (g f).owner = f.owner) : Inv (s.update g) where
  opened fd := (update_opened hg fd).trans (h.opened fd)
  touched := touched_touch h.touched (h.opened_fd hge)

theorem Inv.close {s : State} (h : Inv s) (hge : 0 ≤ s.utmpxFile) : Closed s.close where
  none_opened fd hfd := by
    unfold State.Opened State.close at hfd
    simp only [Descriptors.lookup_erase_eq] at hfd
    split at hfd
    · cases hfd
    · next hne => exact hne (by have := (h.opened fd).mp hfd; unfold State.fd; omega)
  touched := touched_touch h.touched (h.opened_fd hge)

theorem opened_insert {s : State} {new : Fd} {f : OpenFile} {file : Int} (fd : Fd) :
    State.Opened { s with table := s.table.insert new f, utmpxFile := file } fd ↔
      if fd = new then f.owner = .utmpx else s.Opened fd := by
  unfold State.Opened
  rw [Descriptors.lookup_insert_eq]
  by_cases h : fd = new <;> simp [h]

theorem Closed.openFile {s : State} (h : Closed s) (os : Answers) : Inv (s.openFile os) := by
  unfold State.openFile
  cases os.opening s.table with
  | none =>
    refine ⟨fun fd => iff_of_false (h.none_opened fd) ?_, h.touched⟩
    simp only
    omega
  | some new =>
    refine ⟨fun fd => ?_, h.touched⟩
    rw [opened_insert, Int.ofNat_inj]
    by_cases hfd : fd = new.val
    · simp [hfd]
    · simp [hfd, h.none_opened fd]

/-! ## What a call does -/

theorem Inv.setutxent {s : State} (h : Inv s) (os : Answers) : Inv (setutxent os s) := by
  unfold Utmpx.setutxent
  split
  · next hneg => exact (h.closed hneg).openFile os
  · next hge => exact h.update (Int.not_lt.mp hge) fun _ => rfl

/-- What `getutxent` and `pututxline` begin with. -/
theorem Inv.ensure {s : State} (h : Inv s) (os : Answers) :
    Inv (if s.utmpxFile < 0 then Utmpx.setutxent os s else s) := by
  split
  · exact h.setutxent os
  · exact h

theorem Inv.getutxent {s : State} (h : Inv s) (os : Answers) : Inv (getutxent os s).2 := by
  have hs := h.ensure os
  unfold Utmpx.getutxent
  generalize (if s.utmpxFile < 0 then Utmpx.setutxent os s else s) = s at hs
  simp only
  split
  · exact hs
  · next hge =>
    have hread : Inv (s.read sizeofUtmpx).2 := hs.update (Int.not_lt.mp hge) fun _ => rfl
    split <;> exact hread

theorem Inv.write {s : State} (h : Inv s) (hge : 0 ≤ s.utmpxFile) (os : Answers) (bytes : Bytes) :
    Inv (s.write os bytes).2 := by
  unfold State.write
  cases os.write with
  | none => exact ⟨h.opened, touched_touch h.touched (h.opened_fd hge)⟩
  | some k => exact h.update hge fun _ => rfl

theorem Inv.pututxline {s : State} (h : Inv s) (os : Answers) (added : Record) :
    Inv (pututxline os added s).2 := by
  have hs := h.ensure os
  unfold Utmpx.pututxline
  generalize (if s.utmpxFile < 0 then Utmpx.setutxent os s else s) = s at hs
  simp only
  split
  · exact hs
  · next hge =>
    have hend : Inv s.seekEnd := hs.update (Int.not_lt.mp hge) fun _ => rfl
    have hwrite := hend.write (Int.not_lt.mp hge) os added.elems
    split <;> exact hwrite

/-- `utmpxname` finds the descriptor that it has to close, unless that is `0`. -/
theorem Inv.utmpxname {s : State} (h : Inv s) (hne : s.utmpxFile ≠ 0) (os : Answers) :
    Inv (utmpxname os s).2 := by
  have hclosed : Closed (if s.utmpxFile > 0 then s.close else s) := by
    split
    · next hpos => exact h.close (Int.le_of_lt hpos)
    · next hle => exact h.closed (by omega)
  unfold Utmpx.utmpxname
  generalize (if s.utmpxFile > 0 then s.close else s) = c at hclosed
  have hopen := hclosed.openFile os
  simp only
  split
  · next hpos => exact hopen.update (Int.le_of_lt hpos) fun _ => rfl
  · exact hopen

/-! ## What other code does -/

/-- Other code gets a number that is free. -/
theorem Inv.otherOpens {s t : State} {opening : Opening OpenFile} {content : Bytes} (h : Inv s)
    (hstep : s.step (.otherOpens opening content) = some t) : Inv t := by
  unfold State.step at hstep
  rcases hopening : opening s.table with _ | ⟨new, hnew⟩
  · simp only [hopening] at hstep
    cases hstep
    exact h
  · simp only [hopening] at hstep
    cases hstep
    refine ⟨fun fd => ?_, h.touched⟩
    rw [← h.opened fd, opened_insert]
    by_cases hfd : fd = new
    · subst hfd
      simp [State.Opened, Finmap.lookup_eq_none.mpr hnew]
    · rw [if_neg hfd]

theorem Inv.otherCloses {s t : State} {fd : Fd} (h : Inv s)
    (hstep : s.step (.otherCloses fd) = some t) : Inv t := by
  obtain ⟨howner, ht⟩ := Option.ite_none_right_eq_some.mp hstep
  cases ht
  refine ⟨fun x => ?_, h.touched⟩
  rw [← h.opened x]
  unfold State.Opened
  rw [Descriptors.lookup_erase_eq]
  by_cases hx : x = fd
  · subst hx
    simp [howner]
  · rw [if_neg hx]

/-- A careful step keeps the invariant. -/
theorem Inv.carefulStep {s t : State} {a : Action} (h : Inv s)
    (hstep : s.carefulStep a = some t) : Inv t := by
  unfold State.carefulStep at hstep
  split at hstep
  case isFalse => cases hstep
  case isTrue hcareful =>
    cases a with
    | endutxent =>
      cases hstep
      have hneg : ¬ s.utmpxFile ≥ 0 := by simpa [careful] using hcareful
      unfold Utmpx.endutxent
      rwa [if_neg hneg]
    | setutxent os => cases hstep; exact h.setutxent os
    | getutxent os => cases hstep; exact h.getutxent os
    | pututxline os added => cases hstep; exact h.pututxline os added
    | utmpxname os =>
      cases hstep
      exact h.utmpxname (by simpa [careful] using hcareful) os
    | otherOpens opening content => exact h.otherOpens hstep
    | otherCloses fd => exact h.otherCloses hstep

theorem Fresh.inv {s : State} (h : Fresh s) : Inv s where
  opened fd := iff_of_false (h.none_opened fd) (by rw [h.file]; omega)
  touched := by simp [h.untouched]

/-- **Who owns the descriptors.** As long as every call is careful, the module
works on a descriptor of its own, and on one only. -/
theorem owned_of_careful {start s : State} (hstart : Fresh start)
    (h : Reachable State.carefulStep start s) : Owned s :=
  (h.invariant hstart.inv fun _ _ _ hi hs => hi.carefulStep hs).owned

/-- The least free number is given out, the file is empty, and writes fail. -/
def quietAnswers : Answers := ⟨Descriptors.lowest, [], none⟩

def emptyProcess : State := ⟨∅, -1, []⟩

theorem emptyProcess_fresh : Fresh emptyProcess := ⟨rfl, fun _ => nofun, rfl⟩

/-! ## Careless calls -/

/-- `endutxent` closes the descriptor and keeps its number. -/
theorem endutxent_not_owned {s : State} (h : 0 ≤ s.utmpxFile) : ¬ Owned (endutxent s) := by
  intro howned
  have hclose : Utmpx.endutxent s = s.close := if_pos h
  rw [hclose] at howned
  rcases howned.current with hneg | hfd
  · exact absurd hneg (Int.not_lt.mpr h)
  · unfold State.Opened State.close at hfd
    rw [show State.fd { s.touch with table := s.table.erase s.fd } = s.fd from rfl,
      Finmap.lookup_erase] at hfd
    cases hfd

/-- Two descriptors of the module are open. -/
def State.Double (s : State) : Prop := ∃ fd fd', fd ≠ fd' ∧ s.Opened fd ∧ s.Opened fd'

theorem State.Double.not_owned {s : State} : s.Double → ¬ Owned s
  | ⟨fd, fd', hne, h, h'⟩, howned => hne (howned.single fd fd' h h')

/-- What is opened beside a descriptor that is open is a second one. -/
theorem openFile_double {s : State} {fd : Fd} (hfd : s.Opened fd) {os : Answers}
    {new : {fd : Fd // fd ∉ s.table}} (hos : os.opening s.table = some new) :
    (s.openFile os).Double := by
  have hne : fd ≠ new.val := by
    rintro rfl
    unfold State.Opened at hfd
    rw [Finmap.lookup_eq_none.mpr new.property] at hfd
    cases hfd
  unfold State.openFile
  rw [hos]
  refine ⟨fd, new, hne, ?_, ?_⟩
  · exact (opened_insert fd).mpr ((if_neg hne).mpr hfd)
  · exact (opened_insert new.val).mpr ((if_pos rfl).mpr rfl)

/-- `utmpxname` does not close descriptor `0`. It opens a second one, or the next
call that opens one does. -/
theorem utmpxname_zero {s : State} (h : s.Opened 0) (hfile : s.utmpxFile = 0) (os : Answers) :
    ∃ u, Reachable State.step (utmpxname os s).2 u ∧ u.Double := by
  have hname : (utmpxname os s).2 = if (s.openFile os).utmpxFile > 0
      then (s.openFile os).seekEnd else s.openFile os := by
    unfold utmpxname
    rw [if_neg (show ¬ s.utmpxFile > 0 by omega)]
    simp only
    split <;> rfl
  rw [hname]
  cases hos : os.opening s.table with
  | some new =>
    obtain ⟨fd, fd', hne, hfd, hfd'⟩ := openFile_double h hos
    refine ⟨_, .start, ?_⟩
    split
    · exact ⟨fd, fd', hne, (seekEnd_opened fd).mpr hfd, (seekEnd_opened fd').mpr hfd'⟩
    · exact ⟨fd, fd', hne, hfd, hfd'⟩
  | none =>
    -- the number of the descriptor is lost, while it stays open
    have hlost : s.openFile os = { s with utmpxFile := -1 } := by
      unfold State.openFile
      rw [hos]
    rw [hlost, if_neg (show ¬ (-1 : Int) > 0 by omega)]
    refine ⟨_, Reachable.start.next (.setutxent quietAnswers) rfl, ?_⟩
    have hopen : State.Opened { s with utmpxFile := -1 } 0 := h
    change (State.openFile quietAnswers { s with utmpxFile := -1 }).Double
    exact openFile_double hopen rfl

/-- Each careless call leads out of the ownership. -/
theorem careless_not_owned {s t : State} {a : Action} (h : Inv s) (hstep : s.step a = some t)
    (hcareless : careful s a = false) : ∃ u, Reachable State.step t u ∧ ¬ Owned u := by
  cases a with
  | endutxent =>
    cases hstep
    exact ⟨_, .start, endutxent_not_owned (by simpa [careful] using hcareless)⟩
  | utmpxname os =>
    cases hstep
    have hfile : s.utmpxFile = 0 := by simpa [careful] using hcareless
    obtain ⟨u, hu, hdouble⟩ := utmpxname_zero ((h.opened 0).mpr hfile.symm) hfile os
    exact ⟨u, hu, hdouble.not_owned⟩
  | _ => cases hcareless

/-- `setutxent` and `endutxent` leave the number of a closed descriptor behind. -/
theorem closed_not_owned : ∃ start s, Fresh start ∧ Reachable State.step start s ∧ ¬ Owned s :=
  ⟨emptyProcess, _, emptyProcess_fresh,
    (Reachable.start.next (.setutxent quietAnswers) rfl).next .endutxent rfl,
    endutxent_not_owned (Int.natCast_nonneg _)⟩

/-- A process that opens the records and reads one. -/
theorem owned_of_careful_reading :
    ∃ s, Reachable State.carefulStep emptyProcess s ∧ Owned s := by
  have hread : Reachable State.carefulStep emptyProcess _ :=
    (Reachable.start.next (.setutxent quietAnswers) rfl).next (.getutxent quietAnswers) rfl
  exact ⟨_, hread, owned_of_careful emptyProcess_fresh hread⟩

end SalernOS.Sysdeps.Utmpx
