import SalernOS.Util.Kprofile

/-! # `main` of `util-salernos/src/kprofile.c`

The options are looked at before the command, and the last of them counts; the
device is not opened before both are known to be good.
-/
namespace SalernOS.Util.KprofileMain
open SalernOS.Lib SalernOS.Libc.Qsort SalernOS.Util.Kprofile

/-- What is printed to `stderr` behind the name of the program; a failure of
`ioctl` is told by `perror`. -/
inductive Message where
  | notEnoughArguments
  | unknownOption (option : String)
  | unknownCommand (command : String)
  | unableToOpen
  | outOfMemory
  | ioctl
deriving DecidableEq, Repr

/-- What is printed to `stdout`. -/
inductive Printed (L : Type) where
  | usage (name : String)
  | table (lines : List (FnData × Option L))

structure Ended (L : Type) where
  status : Nat
  stdout : Option (Printed L)
  stderr : Option Message

/-- The loop over the options, which sets `g_comparator`. -/
def options (comparator : Comparator) : List String → Except String Comparator
  | [] => .ok comparator
  | option :: argv =>
    if option = "--by-real" then options .real argv
    else if option = "--by-cpu" then options .cpu argv
    else if option = "--by-calls" then options .calls argv
    else if option = "--by-ratio" then options .ratio argv
    else .error option

/-- Why no table is printed. -/
def complaint (dev : Device) (answers : Answers) : Message :=
  if !dev.opens then .unableToOpen
  else if answers.num = none then .ioctl
  else if !dev.mallocOk then .outOfMemory
  else .ioctl

section
variable {L : Type} [LinearOrder L] (ratio : Nat → Nat → L)

/-- `exit(EXIT_FAILURE)` within `profile_functions` or `profile_syscalls`, or
`EXIT_SUCCESS` behind it. -/
def ended (dev : Device) (answers : Answers) :
    Option (List (FnData × Option L)) → Ended L
  | none => ⟨1, none, some (complaint dev answers)⟩
  | some lines => ⟨0, some (.table lines), none⟩

def main (dev : Device) : (argv : List String) → Except Trap (Ended L)
  | [] => .ok ⟨1, none, none⟩
  | [_] => .ok ⟨1, none, some .notEnoughArguments⟩
  | name :: command :: argv =>
    match options .ratio argv with
    | .error option => .ok ⟨1, none, some (.unknownOption option)⟩
    | .ok comparator =>
      if command = "--help" then .ok ⟨0, some (.usage name), none⟩
      else if command = "--functions" then
        (profileFunctions ratio comparator dev).map (ended dev dev.functions)
      else if command = "--syscalls" then
        (profileSyscalls ratio comparator dev).map (ended dev dev.syscalls)
      else .ok ⟨1, none, some (.unknownCommand command)⟩

end

/-! ## The options -/

def comparatorOf (option : String) : Option Comparator :=
  if option = "--by-real" then some .real
  else if option = "--by-cpu" then some .cpu
  else if option = "--by-calls" then some .calls
  else if option = "--by-ratio" then some .ratio
  else none

/-- The last option counts. -/
def chosen (argv : List String) (comparator : Comparator) : Comparator :=
  (argv.getLast?.bind comparatorOf).getD comparator

/-- The device says how many rows there are and gives them, and there is memory
for them. -/
structure Willing (dev : Device) (answers : Answers) : Prop where
  opens : dev.opens = true
  mallocOk : dev.mallocOk = true
  rows : ∃ n data, answers.num = some n ∧ answers.rows n = some data

section
variable {L : Type} [LinearOrder L] {ratio : Nat → Nat → L}

/-- The rows of the device in the order of the comparator. -/
def InOrder (ratio : Nat → Nat → L) (c : Comparator) (answers : Answers)
    (lines : List (FnData × Option L)) : Prop :=
  ∃ cmp n data, (∀ a b, compareBy ratio c a b = .ok (cmp a b)) ∧ answers.num = some n ∧
    answers.rows n = some data ∧ Sorted cmp c (rowsOf data) (lines.map Prod.fst)

/-- What a command asks the device for. -/
def asks (dev : Device) (command : String) : Option Answers :=
  if command = "--functions" then some dev.functions
  else if command = "--syscalls" then some dev.syscalls
  else none

/-- A command line that is good, for a device that is willing. -/
structure Succeeds (dev : Device) (command : String) (argv : List String) : Prop where
  options : ∀ o ∈ argv, comparatorOf o ≠ none
  command : command = "--help" ∨ ∃ answers, asks dev command = some answers ∧ Willing dev answers

/-- How a run ends. -/
structure Exact (ratio : Nat → Nat → L) (dev : Device) (name command : String)
    (argv : List String) (r : Ended L) : Prop where
  status : r.status = 0 ∧ Succeeds dev command argv ∨ r.status = 1 ∧ ¬ Succeeds dev command argv
  stdout : r.stdout.isSome ↔ r.status = 0
  stderr : r.stderr.isSome ↔ r.status = 1
  help : r.stdout = some (.usage name) ↔ command = "--help" ∧ r.status = 0
  table : ∀ lines, r.stdout = some (.table lines) → ∃ answers, asks dev command = some answers ∧
    InOrder ratio (chosen argv .ratio) answers lines

variable {dev : Device} {command : String} {argv : List String}

/-- A run that comes to an error before the device is opened. -/
theorem Exact.refused (name : String) (message : Message) (h : ¬ Succeeds dev command argv) :
    Exact ratio dev name command argv ⟨1, none, some message⟩ where
  status := .inr ⟨rfl, h⟩
  stdout := ⟨nofun, nofun⟩
  stderr := ⟨fun _ => rfl, fun _ => rfl⟩
  help := ⟨nofun, nofun⟩
  table _ h := nomatch h

end

end SalernOS.Util.KprofileMain
