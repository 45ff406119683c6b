import SalernOS.Lib.Lines
import SalernOS.Libc.Text

/-! # The configuration language

What a configuration text means, apart from memory: a line is cut into
arguments by an automaton over its bytes, a text into the lines that hold
something else than white space. A quote is closed by the next quote only, so
the automaton may leave its line inside one.
-/
namespace SalernOS.Init.Grammar
open SalernOS.Lib SalernOS.Libc

/-- An argument: its offset, the text from there on, and its length. -/
structure Tok where
  start : Nat
  rest : Bytes
  len : Nat
deriving DecidableEq, Repr

def Tok.word (t : Tok) : Bytes := t.rest.take t.len

/-- The same argument with more text behind the text it was read from. -/
def Tok.extend (u : Bytes) (t : Tok) : Tok := { t with rest := t.rest ++ u }

inductive Mode where
  | gap
  | bare (start : Nat) (rest : Bytes)
  | quoted (start : Nat) (rest : Bytes)

def Mode.extend (u : Bytes) : Mode → Mode
  | .gap => .gap
  | .bare start rest => .bare start (rest ++ u)
  | .quoted start rest => .quoted start (rest ++ u)

/-- The arguments of the line that a text begins with; `none` when a quote is
open where the text ends. -/
def lex : Mode → Nat → Bytes → Option (List Tok)
  | .gap, _, [] => some []
  | .bare start rest, pos, [] => some [⟨start, rest, pos - start⟩]
  | .quoted _ _, _, [] => none
  | .gap, pos, c :: s =>
    if c = newline then some []
    else if c = quote then lex (.quoted (pos + 1) s) (pos + 1) s
    else if isspace c then lex .gap (pos + 1) s
    else lex (.bare pos (c :: s)) (pos + 1) s
  | .bare start rest, pos, c :: s =>
    if c = newline then some [⟨start, rest, pos - start⟩]
    else if isspace c then (lex .gap (pos + 1) s).map (⟨start, rest, pos - start⟩ :: ·)
    else lex (.bare start rest) (pos + 1) s
  | .quoted start rest, pos, c :: s =>
    if c = quote then (lex .gap (pos + 1) s).map (⟨start, rest, pos - start⟩ :: ·)
    else lex (.quoted start rest) (pos + 1) s

/-! ## One byte -/

/-- What the next byte ends of a mode, and the mode behind it, unless the line is
over. -/
def Mode.move (pos : Nat) (c : UInt8) (s : Bytes) : Mode → List Tok × Option Mode
  | .gap =>
    if c = newline then ([], none)
    else if c = quote then ([], some (.quoted (pos + 1) s))
    else if isspace c then ([], some .gap)
    else ([], some (.bare pos (c :: s)))
  | .bare start rest =>
    if c = newline then ([⟨start, rest, pos - start⟩], none)
    else if isspace c then ([⟨start, rest, pos - start⟩], some .gap)
    else ([], some (.bare start rest))
  | .quoted start rest =>
    if c = quote then ([⟨start, rest, pos - start⟩], some .gap)
    else ([], some (.quoted start rest))

/-- A line is read byte by byte. -/
theorem lex_cons (m : Mode) (pos : Nat) (c : UInt8) (s : Bytes) : lex m pos (c :: s) =
    match (m.move pos c s).2 with
    | none => some (m.move pos c s).1
    | some m' => (lex m' (pos + 1) s).map ((m.move pos c s).1 ++ ·) := by
  have hkeep : ∀ o : Option (List Tok), o = o.map ([] ++ ·) := fun o => by simp
  cases m with
  | gap =>
    simp only [lex, Mode.move]
    split
    · rfl
    split
    · exact hkeep _
    split
    · exact hkeep _
    · exact hkeep _
  | bare start rest =>
    simp only [lex, Mode.move]
    split
    · rfl
    split
    · rfl
    · exact hkeep _
  | quoted start rest =>
    simp only [lex, Mode.move]
    split
    · rfl
    · exact hkeep _

theorem lex_cons_some {m : Mode} {pos : Nat} {c : UInt8} {s : Bytes} {toks : List Tok}
    (h : lex m pos (c :: s) = some toks) :
    ((m.move pos c s).2 = none ∧ toks = (m.move pos c s).1) ∨
    ∃ m' more, (m.move pos c s).2 = some m' ∧ lex m' (pos + 1) s = some more ∧
      toks = (m.move pos c s).1 ++ more := by
  rw [lex_cons] at h
  cases hmove : (m.move pos c s).2 with
  | none =>
    rw [hmove] at h
    exact .inl ⟨rfl, (Option.some.inj h).symm⟩
  | some m' =>
    rw [hmove] at h
    obtain ⟨more, hmore, htoks⟩ := Option.map_eq_some_iff.mp h
    exact .inr ⟨m', more, rfl, hmore, htoks.symm⟩

/-! ## Where a quote is open -/

/-- The automaton without its data. `over` is behind the end of the line. -/
inductive Ctx where
  | gap
  | bare
  | quoted
  | over
deriving DecidableEq, Repr

def Mode.ctx : Mode → Ctx
  | .gap => .gap
  | .bare _ _ => .bare
  | .quoted _ _ => .quoted

def Ctx.step : Ctx → UInt8 → Ctx
  | .gap, c =>
    if c = newline then .over else if c = quote then .quoted
    else if isspace c then .gap else .bare
  | .bare, c => if c = newline then .over else if isspace c then .gap else .bare
  | .quoted, c => if c = quote then .gap else .quoted
  | .over, _ => .over

def Ctx.after (x : Ctx) (s : Bytes) : Ctx := s.foldl Ctx.step x

/-- Reading `s` from the start of a line ends inside a quote. -/
def leavesQuoteOpen (s : Bytes) : Bool := Ctx.after .gap s == .quoted

@[simp] theorem Ctx.after_nil (x : Ctx) : x.after [] = x := rfl

@[simp] theorem Ctx.after_cons (x : Ctx) (c : UInt8) (s : Bytes) :
    x.after (c :: s) = (x.step c).after s := rfl

theorem Ctx.after_append (x : Ctx) (s t : Bytes) : x.after (s ++ t) = (x.after s).after t :=
  List.foldl_append

@[simp] theorem Ctx.over_after (s : Bytes) : Ctx.over.after s = .over := by
  induction s with
  | nil => rfl
  | cons c s ih => exact ih

theorem ctx_move (m : Mode) (pos : Nat) (c : UInt8) (s : Bytes) :
    m.ctx.step c = ((m.move pos c s).2.map Mode.ctx).getD .over := by
  cases m with
  | gap =>
    simp only [Mode.ctx, Ctx.step, Mode.move]
    split
    · rfl
    split
    · rfl
    split <;> rfl
  | bare start rest =>
    simp only [Mode.ctx, Ctx.step, Mode.move]
    split
    · rfl
    split <;> rfl
  | quoted start rest =>
    simp only [Mode.ctx, Ctx.step, Mode.move]
    split <;> rfl

/-- The only failure is a quote that is open at the end of the text. -/
theorem lex_eq_none_iff (s : Bytes) : ∀ (m : Mode) (pos : Nat),
    lex m pos s = none ↔ m.ctx.after s = .quoted := by
  induction s with
  | nil => intro m pos; cases m <;> simp [lex, Mode.ctx]
  | cons c s ih =>
    intro m pos
    rw [lex_cons, Ctx.after_cons, ctx_move m pos c s]
    cases (m.move pos c s).2 with
    | none => simp
    | some m' =>
      rw [Option.map_eq_none_iff]
      exact ih m' (pos + 1)

theorem lex_gap_eq_none_iff (pos : Nat) (s : Bytes) :
    lex .gap pos s = none ↔ leavesQuoteOpen s = true := by
  rw [lex_eq_none_iff, leavesQuoteOpen, beq_iff_eq]; rfl

/-! ## What is read from a line does not depend on the lines behind it -/

theorem Tok.word_extend {t : Tok} (h : t.len ≤ t.rest.length) (u : Bytes) :
    (t.extend u).word = t.word := by
  simp only [Tok.word, Tok.extend]
  exact List.take_append_of_le_length h

theorem move_extend (u : Bytes) (m : Mode) (pos : Nat) (c : UInt8) (s : Bytes) :
    (m.extend u).move pos c (s ++ u) =
      ((m.move pos c s).1.map (Tok.extend u), (m.move pos c s).2.map (Mode.extend u)) := by
  cases m with
  | gap =>
    simp only [Mode.extend, Mode.move]
    split
    · rfl
    split
    · rfl
    split <;> rfl
  | bare start rest =>
    simp only [Mode.extend, Mode.move]
    split
    · rfl
    split <;> rfl
  | quoted start rest =>
    simp only [Mode.extend, Mode.move]
    split <;> rfl

/-- A line end behind a text in which no quote is open changes nothing. -/
theorem lex_append_newline (t s : Bytes) : ∀ (m : Mode) (pos : Nat), m.ctx.after s ≠ .quoted →
    lex (m.extend (newline :: t)) pos (s ++ newline :: t) =
      (lex m pos s).map (List.map (Tok.extend (newline :: t))) := by
  induction s with
  | nil =>
    intro m pos h
    cases m with
    | gap => simp [lex, Mode.extend]
    | bare start rest => simp [lex, Mode.extend, Tok.extend]
    | quoted start rest => simp [Mode.ctx] at h
  | cons c s ih =>
    intro m pos h
    rw [Ctx.after_cons, ctx_move m pos c s] at h
    rw [List.cons_append, lex_cons, lex_cons, move_extend]
    cases hmove : (m.move pos c s).2 with
    | none => rfl
    | some m' =>
      rw [hmove] at h
      simp only [Option.map_some, ih m' (pos + 1) h, Option.map_map, Function.comp_def,
        List.map_append]

/-- Skipped blanks move the position and nothing else. -/
theorem lex_skip_blanks (pre s : Bytes) (h : ∀ c ∈ pre, isBlank c = true) :
    ∀ pos, lex .gap pos (pre ++ s) = lex .gap (pos + pre.length) s := by
  induction pre with
  | nil => intro pos; rfl
  | cons c pre ih =>
    intro pos
    have hc := h c (by simp)
    have hq : c ≠ quote := by intro he; subst he; revert hc; decide
    rw [List.cons_append, lex, if_neg (ne_newline_of_isBlank hc), if_neg hq,
      if_pos (isspace_of_isBlank hc), ih (fun d hd => h d (by simp [hd])), List.length_cons]
    congr 1; omega

/-! ## One token -/

/-- A quoted argument ends at the next quote, on whichever line that is. -/
theorem lex_quoted (start : Nat) (rest s : Bytes) : ∀ pos, lex (.quoted start rest) pos s =
    match s.dropWhile (· != quote) with
    | [] => none
    | _ :: u => (lex .gap (pos + (s.takeWhile (· != quote)).length + 1) u).map
        (⟨start, rest, pos + (s.takeWhile (· != quote)).length - start⟩ :: ·) := by
  induction s with
  | nil => intro pos; rfl
  | cons c s ih =>
    intro pos
    by_cases hc : c = quote
    · subst hc; simp [lex]
    · have hb : (c != quote) = true := by simpa using hc
      rw [lex, if_neg hc, ih]
      simp only [List.takeWhile_cons, List.dropWhile_cons, hb, if_true, List.length_cons,
        show ∀ n, pos + 1 + n = pos + (n + 1) from fun n => by omega]

/-- A bare argument ends before the next white space. -/
theorem lex_bare (start : Nat) (rest s : Bytes) : ∀ pos, lex (.bare start rest) pos s =
    (lex .gap (pos + (s.takeWhile (!isspace ·)).length) (s.dropWhile (!isspace ·))).map
      (⟨start, rest, pos + (s.takeWhile (!isspace ·)).length - start⟩ :: ·) := by
  induction s with
  | nil => intro pos; rfl
  | cons c s ih =>
    intro pos
    by_cases hn : c = newline
    · subst hn; simp [lex]
    · by_cases hs : isspace c = true
      · have hq : c ≠ quote := by intro he; subst he; revert hs; decide
        simp [lex, hn, hs, hq]
      · rw [lex, if_neg hn, if_neg hs, ih]
        simp only [List.takeWhile_cons, List.dropWhile_cons, hs, Bool.not_false, if_true,
          List.length_cons, show ∀ n, pos + 1 + n = pos + (n + 1) from fun n => by omega]

/-! ## A text -/

def blankLine (s : Bytes) : Bool := (firstLine newline s).all isspace

/-- The lines that hold something else than white space. -/
def bodyStarts (pos : Nat) (s : Bytes) : List (Nat × Bytes) :=
  (lineStarts newline true pos s).filter fun p => !blankLine p.2

/-- The directives of a text, as the arguments of each. -/
def configToks (pos : Nat) (s : Bytes) : Option (List (List Tok)) :=
  (bodyStarts pos s).mapM fun p => lex .gap p.1 p.2

@[simp] theorem configToks_nil (pos : Nat) : configToks pos [] = some [] := rfl

theorem configToks_unfold (pos : Nat) (s : Bytes) (hne : s ≠ []) : configToks pos s =
    let more := configToks (pos + (firstLine newline s).length + 1) (afterLine newline s)
    if blankLine s then more
    else (lex .gap pos s).bind fun toks => more.map (toks :: ·) := by
  simp only [configToks, bodyStarts, lineStarts_unfold newline s hne pos]
  by_cases hb : blankLine s = true
  · simp [hb]
  · simp only [List.filter_cons, hb, Bool.not_false, if_true, List.mapM_cons]
    cases lex .gap pos s with
    | none => rfl
    | some toks => exact Option.map_eq_bind.symm

end SalernOS.Init.Grammar
