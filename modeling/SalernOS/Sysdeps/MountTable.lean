import SalernOS.Sysdeps.Mntent

/-! # The mount table as a list of entries

What repeated calls of `getmntent_r` come to, whatever the lines hold and
whether or not they fit the buffer, and what a table is read back as behind
calls of `addmntent`.
-/
namespace SalernOS.Sysdeps.MountTable
open SalernOS.Lib SalernOS.Libc SalernOS.Libc.Stdio SalernOS.Libc.FloatConstant
open SalernOS.Sysdeps.Mntent

/-! ## The table -/

/-- A line without its end. -/
structure Line where
  bytes : Bytes
  noNul : nul ∉ bytes
  noNewline : newline ∉ bytes

def Line.empty : Line := ⟨[], List.not_mem_nil, List.not_mem_nil⟩

def Line.text (l : Line) : Bytes := l.bytes ++ [newline]

/-- A file of these lines, with `rest` behind the last line end. -/
def content (rest : Line) (lines : List Line) : Bytes := lines.flatMap Line.text ++ rest.bytes

def zeros : Ints := ⟨0, 0⟩

namespace Line

def word (l : Line) (i : Nat) : Bytes := (words isspace 4 l.text).getD i []

/-- There is no word, or a comment. -/
def skipped (l : Line) : Bool := l.word 0 == [] || (l.word 0).head? == some hash

def numbers (l : Line) (old : Ints) : Ints :=
  Stdio.numbers old (afterWords isspace 4 l.text)

def entry (l : Line) (old : Ints) : Entry where
  fsname := l.word 0
  dir := l.word 1
  type := l.word 2
  opts := l.word 3
  freq := (l.numbers old).first
  passno := (l.numbers old).second

/-- The line and its end fit the buffer. -/
abbrev Fits (l : Line) (room : Option Nat) : Prop := Below room l.bytes.length

end Line

/-- What the calls give. A line without numbers has those of the comments in
front of it, as the loop clears them only once. -/
def expected (room : Option Nat) (rest : Line) : Ints → List Line → List Answer
  | _, [] => if rest.Fits room then [] else [.erange]
  | old, l :: ls =>
    if ¬ l.Fits room then .erange :: expected room rest zeros ls
    else if l.skipped then expected room rest (l.numbers old) ls
    else .entry (l.entry old) :: expected room rest zeros ls

/-! ## One line -/

@[simp] theorem content_nil (rest : Line) : content rest [] = rest.bytes := rfl

theorem content_cons (rest l : Line) (ls : List Line) :
    content rest (l :: ls) = l.bytes ++ newline :: content rest ls := by
  simp [content, Line.text]

/-- The stream stands in front of these lines. -/
def Ahead (rest : Line) (lines : List Line) (f : Stream) : Prop :=
  f.rest = content rest lines ∧ (f.ended = true → f.rest = [])

/-- What the first of the calls returns, and where the others go on. -/
def Gives (linebuf : LineBuf) (answers : List Answer) (result : Option (Returned × Stream)) : Prop :=
  ∃ r f rest lines, result = some (r, f) ∧ Ahead rest lines f ∧
    (answers = r.answer :: expected linebuf.room rest zeros lines ∨
      answers = [] ∧ r = .null ∧ expected linebuf.room rest zeros lines = [])

theorem Ahead.ended {rest : Line} {lines : List Line} {f : Stream} (h : Ahead rest lines f)
    (hf : f.ended = true) : lines = [] ∧ rest.bytes = [] := by
  have hnil := h.2 hf
  rw [h.1] at hnil
  cases lines with
  | nil => exact ⟨rfl, hnil⟩
  | cons l ls =>
    rw [content_cons] at hnil
    cases (List.append_eq_nil_iff.mp hnil).2

/-- Every text without NUL is a file of lines. -/
theorem exists_content {s : Bytes} (h : nul ∉ s) : ∃ rest lines, s = content rest lines := by
  induction s with
  | nil => exact ⟨.empty, [], rfl⟩
  | cons c s ih =>
    obtain ⟨hc, hs⟩ := not_or.mp (mt List.mem_cons.mpr h)
    obtain ⟨rest, lines, rfl⟩ := ih hs
    by_cases hn : c = newline
    · exact ⟨rest, .empty :: lines, by rw [hn, content_cons]; rfl⟩
    · have hno {s : Bytes} (hs : newline ∉ s) : newline ∉ c :: s := by
        simp [hs, Ne.symm hn]
      have hnul {s : Bytes} (hs : nul ∉ s) : nul ∉ c :: s := by
        simp [hs, hc]
      cases lines with
      | nil => exact ⟨⟨c :: rest.bytes, hnul rest.noNul, hno rest.noNewline⟩, [], rfl⟩
      | cons l ls =>
        refine ⟨rest, ⟨c :: l.bytes, hnul l.noNul, hno l.noNewline⟩ :: ls, ?_⟩
        rw [content_cons, content_cons]
        rfl

/-! ## Adding entries -/

/-- A string that is read back as one word. -/
structure Field where
  bytes : Bytes
  ne : bytes ≠ []
  noSpace : ∀ c ∈ bytes, isspace c = false
  noNul : nul ∉ bytes

theorem Field.noNewline (f : Field) : newline ∉ f.bytes := by
  intro h
  have := f.noSpace _ h
  rw [isspace_newline] at this
  cases this

/-- An entry that a line can hold. -/
structure PlainEntry where
  fsname : Field
  dir : Field
  type : Field
  opts : Field
  freq : BitVec 32
  passno : BitVec 32
  noHash : fsname.bytes.head? ≠ some hash

namespace PlainEntry

def entry (e : PlainEntry) : Entry :=
  ⟨e.fsname.bytes, e.dir.bytes, e.type.bytes, e.opts.bytes, e.freq, e.passno⟩

theorem number_notMem (i : Int) : nul ∉ ascii i.repr ∧ newline ∉ ascii i.repr := by
  constructor
  · intro h
    rcases mem_ascii_toString h with h | h <;> cases h
  · intro h
    rcases mem_ascii_toString h with h | h <;> cases h

/-- The line that is written. -/
def line (e : PlainEntry) : Line where
  bytes := e.fsname.bytes ++ tab :: (e.dir.bytes ++ tab :: (e.type.bytes ++ tab ::
    (e.opts.bytes ++ tab :: (ascii (toString e.freq.toInt) ++ tab ::
      ascii (toString e.passno.toInt)))))
  noNul := by
    have htab : nul ≠ tab := by decide
    simp [htab, e.fsname.noNul, e.dir.noNul, e.type.noNul, e.opts.noNul, number_notMem]
  noNewline := by
    have htab : newline ≠ tab := by decide
    simp [htab, e.fsname.noNewline, e.dir.noNewline, e.type.noNewline, e.opts.noNewline,
      number_notMem]

end PlainEntry

/-- The file behind calls of `addmntent` that succeed. -/
def added (file : Bytes) (es : List PlainEntry) : Bytes :=
  es.foldl (fun file e => (addmntent true none file e.entry).2) file

end SalernOS.Sysdeps.MountTable
