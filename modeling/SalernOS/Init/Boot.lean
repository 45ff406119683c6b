import SalernOS.Init.ParseSound
import SalernOS.Init.Interpreter

/-! # `init/src/main.c`

`main` allocates one byte more than the file has, and reads the file into it.
What the last byte holds is up to the memory.
-/
namespace SalernOS.Init.Boot
open SalernOS.Lib SalernOS.Libc SalernOS.Init.Parse SalernOS.Init.ParseSound
open SalernOS.Init.Interpreter

/-- What fresh memory holds, by its size. -/
abbrev Memory := (n : Nat) → Vector UInt8 n

/-- What `main` finds outside of itself. -/
structure Outside where
  file : Option CString
  mallocOk : Bool
  fresh : Memory
  reallocOk : Nat → Bool
  sigactionOk : Bool
  os : Nat → OsReply
  env : Env

/-- `fread(buf, len, 1, file)` of a file of `len` bytes. -/
def fread (buf file : Bytes) : Bytes := file ++ buf.drop file.length

/-- What `main` hands to `parse_config`. -/
def configText (fresh : Memory) (file : CString) : Bytes :=
  fread (fresh (file.bytes.length + 1)).toList file.bytes

/-- `*directives` and `*num_directives` are not initialized; no one looks at
them when `parse_config` fails. -/
def parse (w : Outside) (file : CString) :
    Except Fault ((ParseCode × Growable Directive) × Heap) :=
  parseConfig w.reallocOk ⟨none, []⟩ (configText w.fresh file) Heap.empty

/-- The exit status of init, with what it printed to the error log itself. -/
structure Exit where
  status : Nat
  ierr : List String
  /-- How `interpret_config` ended. -/
  ran : Option (Outcome × State)

def main (w : Outside) : Except Fault Exit := do
  let some file := w.file | return ⟨1, ["failed to open configuration file"], none⟩
  if !w.mallocOk then return ⟨1, ["failed to allocate buffer"], none⟩
  match ← parse w file with
  | ((.err, _), _) => return ⟨1, [], none⟩
  | ((.ok, directives), _) =>
    match ← interpretConfig w.sigactionOk w.os directives.elems (State.start w.env) with
    | (.returned .ok, s) => return ⟨0, [], some (.returned .ok, s)⟩
    | (.returned .err, s) => return ⟨0, ["failed to run init"], some (.returned .err, s)⟩
    | (.exited, s) => return ⟨255, [], some (.exited, s)⟩

/-- Booting with either memory is booting from the file alone. -/
structure FileOnly (w : Outside) (file : CString) (m₁ m₂ : Memory) : Prop where
  text₁ : configText m₁ file = file.bytes ++ [nul]
  text₂ : configText m₂ file = file.bytes ++ [nul]
  same : parse { w with fresh := m₁ } file = parse { w with fresh := m₂ } file
  run : main { w with file := some file, fresh := m₁ } =
    main { w with file := some file, fresh := m₂ }
  bounds₁ : parse { w with fresh := m₁ } file ≠ .error .outOfBounds
  bounds₂ : parse { w with fresh := m₂ } file ≠ .error .outOfBounds

/-- The byte that `main` leaves as it is. -/
def lastByte (m : Memory) (file : CString) : UInt8 := (m (file.bytes.length + 1)).back

theorem configText_eq (m : Memory) (file : CString) :
    configText m file = file.bytes ++ [lastByte m file] := by
  unfold configText fread lastByte
  rw [List.drop_eq_getElem_cons (by simp), List.drop_eq_nil_of_le (by simp)]
  simp [Vector.back_eq_getElem]

theorem parse_ok {w : Outside} {file : CString} (h : lastByte w.fresh file = nul) :
    parse w file ≠ .error .outOfBounds := by
  obtain ⟨code, ds, h', hr, _⟩ :=
    parseConfig_spec w.reallocOk [] ⟨none, []⟩ file.bytes Heap.empty file.noNul
  rw [parse, configText_eq, h, hr]
  nofun

/-- **When booting depends on the file alone.** Exactly when both memories hold
a NUL byte behind the file. -/
theorem fileOnly_iff (w : Outside) (file : CString) (m₁ m₂ : Memory) :
    FileOnly w file m₁ m₂ ↔ lastByte m₁ file = nul ∧ lastByte m₂ file = nul := by
  have text_iff : ∀ m, configText m file = file.bytes ++ [nul] ↔ lastByte m file = nul := by
    intro m
    rw [configText_eq]
    simp
  constructor
  · exact fun h => ⟨(text_iff m₁).mp h.text₁, (text_iff m₂).mp h.text₂⟩
  · rintro ⟨h₁, h₂⟩
    have ht₁ := (text_iff m₁).mpr h₁
    have ht₂ := (text_iff m₂).mpr h₂
    have hsame : ∀ w : Outside,
        parse { w with fresh := m₁ } file = parse { w with fresh := m₂ } file := by
      intro w
      simp only [parse, ht₁, ht₂]
    refine ⟨ht₁, ht₂, hsame w, ?_, parse_ok h₁, parse_ok h₂⟩
    unfold main
    simp only [hsame { w with file := some file }]

/-- Memory that holds the letter `s` everywhere. -/
def used : Memory := fun n => Vector.replicate n 115

/-- A file without a line end, read into memory that was used before: the scan
for the end of the word leaves the block. -/
theorem used_not_fileOnly : ¬ FileOnly
    ⟨some ⟨ascii "env", by decide⟩, true, used, fun _ => true, true, fun _ => ⟨true, none⟩, []⟩
    ⟨ascii "env", by decide⟩ used (fun n => Vector.replicate n 0) :=
  fun h => h.bounds₁ (by rfl)

end SalernOS.Init.Boot
