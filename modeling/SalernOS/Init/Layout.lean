import SalernOS.Init.LineLocality

/-! # Writing a configuration

All the ways to write a list of directives: each argument bare or in quotes,
any blanks around and between the arguments, blank lines anywhere, and with or
without a line end behind the last line. Reading the text gives the directives
back, each argument where it was written.
-/
namespace SalernOS.Init.Layout
open SalernOS.Lib SalernOS.Libc SalernOS.Init.Grammar SalernOS.Init.Parse
open SalernOS.Init.ParseSound SalernOS.Init.LineLocality

/-- Blanks, possibly none. -/
structure Blanks where
  bytes : Bytes
  blank : ∀ c ∈ bytes, isBlank c = true

/-- One blank or more. -/
structure Gap extends Blanks where
  ne : bytes ≠ []

/-- An argument as it is written. -/
inductive Written where
  | bare (word : Bytes) (ne : word ≠ []) (solid : ∀ c ∈ word, isspace c = false ∧ c ≠ nul)
      (unquoted : word.head? ≠ some quote)
  | quoted (word : Bytes) (plain : ∀ c ∈ word, c ≠ nul ∧ c ≠ quote ∧ c ≠ newline)

def Written.word : Written → Bytes
  | .bare word _ _ _ => word
  | .quoted word _ => word

def Written.text : Written → Bytes
  | .bare word _ _ _ => word
  | .quoted word _ => quote :: word ++ [quote]

/-- Where the word starts in the text. -/
def Written.offset : Written → Nat
  | .bare _ _ _ _ => 0
  | .quoted _ _ => 1

inductive Line where
  | blank (b : Blanks)
  | directive (lead : Blanks) (first : Written) (more : List (Gap × Written)) (trail : Blanks)

/-- The arguments of a line behind its first, each with the blanks before it. -/
def moreText (more : List (Gap × Written)) : Bytes :=
  more.flatMap fun p => p.1.bytes ++ p.2.text

def Line.text : Line → Bytes
  | .blank b => b.bytes
  | .directive lead first more trail => lead.bytes ++ first.text ++ moreText more ++ trail.bytes

def Line.words : Line → List Bytes
  | .blank _ => []
  | .directive _ first more _ => first.word :: more.map (·.2.word)

/-- Offset and length of the arguments that are written from `pos` on. -/
def moreSlices (pos : Nat) : List (Gap × Written) → List (Nat × Nat)
  | [] => []
  | (g, w) :: more =>
    (pos + g.bytes.length + w.offset, w.word.length) ::
      moreSlices (pos + g.bytes.length + w.text.length) more

def Line.slices (pos : Nat) : Line → List (Nat × Nat)
  | .blank _ => []
  | .directive lead first more _ =>
    (pos + lead.bytes.length + first.offset, first.word.length) ::
      moreSlices (pos + lead.bytes.length + first.text.length) more

/-- Lines, and whether the last one has a line end. -/
structure Document where
  lines : List Line
  final : Bool

def textOf (final : Bool) : List Line → Bytes
  | [] => []
  | [l] => l.text ++ if final then [newline] else []
  | l :: m :: ls => l.text ++ newline :: textOf final (m :: ls)

/-- The words of the directives. -/
def wordsOf (ls : List Line) : List (List Bytes) := (ls.map Line.words).filter (· ≠ [])

/-- The slices of the directives. -/
def slicesOf (pos : Nat) : List Line → List (List (Nat × Nat))
  | [] => []
  | .blank b :: ls => slicesOf (pos + b.bytes.length + 1) ls
  | l :: ls => l.slices pos :: slicesOf (pos + l.text.length + 1) ls

/-! ## A line is one line -/

theorem isBlank_ne {c : UInt8} (h : isBlank c = true) : c ≠ nul ∧ c ≠ newline :=
  ⟨by intro he; subst he; revert h; decide, ne_newline_of_isBlank h⟩

theorem Written.text_plain (w : Written) : ∀ c ∈ w.text, c ≠ nul ∧ c ≠ newline := by
  intro c hc
  cases w with
  | bare word _ solid _ =>
    obtain ⟨hs, hn⟩ := solid c hc
    exact ⟨hn, by intro he; subst he; cases hs⟩
  | quoted word plain =>
    simp only [Written.text, List.cons_append, List.mem_cons, List.mem_append,
      List.not_mem_nil, or_false] at hc
    rcases hc with rfl | hc | rfl
    · exact ⟨by decide, by decide⟩
    · exact ⟨(plain c hc).1, (plain c hc).2.2⟩
    · exact ⟨by decide, by decide⟩

theorem moreText_plain (more : List (Gap × Written)) :
    ∀ c ∈ moreText more, c ≠ nul ∧ c ≠ newline := by
  intro c hc
  obtain ⟨⟨g, w⟩, _, hc⟩ := List.mem_flatMap.mp hc
  rcases List.mem_append.mp hc with hc | hc
  · exact isBlank_ne (g.blank c hc)
  · exact w.text_plain c hc

theorem Line.text_plain (l : Line) : ∀ c ∈ l.text, c ≠ nul ∧ c ≠ newline := by
  intro c hc
  cases l with
  | blank b => exact isBlank_ne (b.blank c hc)
  | directive lead first more trail =>
    simp only [Line.text, List.mem_append] at hc
    rcases hc with ((hc | hc) | hc) | hc
    · exact isBlank_ne (lead.blank c hc)
    · exact first.text_plain c hc
    · exact moreText_plain more c hc
    · exact isBlank_ne (trail.blank c hc)

theorem textOf_noNul (final : Bool) : ∀ ls, nul ∉ textOf final ls
  | [] => by simp [textOf]
  | [l] => by
    intro h
    rcases List.mem_append.mp h with h | h
    · exact (l.text_plain _ h).1 rfl
    · cases final <;> simp [Ne.symm newline_ne_nul] at h
  | l :: m :: ls => by
    intro h
    rcases List.mem_append.mp h with h | h
    · exact (l.text_plain _ h).1 rfl
    · rcases List.mem_cons.mp h with h | h
      · exact newline_ne_nul h.symm
      · exact textOf_noNul final (m :: ls) h

def Document.text (d : Document) : CString := ⟨textOf d.final d.lines, textOf_noNul _ _⟩

/-! ## Reading a line back -/

/-- What ends a line: its line end, or the end of the text. -/
def EndsLine (u : Bytes) : Prop := u = [] ∨ ∃ t, u = newline :: t

theorem lex_endsLine {u : Bytes} (hu : EndsLine u) (pos : Nat) : lex .gap pos u = some [] := by
  rcases hu with rfl | ⟨t, rfl⟩
  · rfl
  · simp [lex]

/-- An argument is read up to the white space behind it. -/
theorem lex_written (w : Written) {u : Bytes} (hu : ∀ c ∈ u.head?, isspace c = true) (pos : Nat) :
    ∃ t, lex .gap pos (w.text ++ u) = (lex .gap (pos + w.text.length) u).map (t :: ·) ∧
      t.word = w.word ∧ (t.start, t.len) = (pos + w.offset, w.word.length) := by
  cases w with
  | bare word ne solid unquoted =>
    have htake : (word ++ u).takeWhile (!isspace ·) = word := by
      rw [List.takeWhile_append_of_pos (fun c hc => by simp [(solid c hc).1])]
      cases u with
      | nil => simp
      | cons c u => simp [hu c (by simp)]
    have hdrop : (word ++ u).dropWhile (!isspace ·) = u := by
      rw [List.dropWhile_append_of_pos (fun c hc => by simp [(solid c hc).1])]
      cases u with
      | nil => rfl
      | cons c u => simp [hu c (by simp)]
    obtain ⟨c, r, rfl⟩ := List.exists_cons_of_ne_nil ne
    have hs := (solid c (by simp)).1
    have hn : c ≠ newline := by intro he; subst he; cases hs
    have hq : c ≠ quote := by simpa using unquoted
    have hlex : lex .gap pos (c :: r ++ u) = lex (.bare pos (c :: r ++ u)) pos (c :: r ++ u) := by
      simp [lex, hn, hq, hs]
    refine ⟨⟨pos, c :: r ++ u, (c :: r).length⟩, ?_, ?_, rfl⟩
    · rw [Written.text, hlex, lex_bare, htake, hdrop, Nat.add_sub_cancel_left]
    · simp [Tok.word, Written.word]
  | quoted word plain =>
    have hne : ∀ c ∈ word, (c != quote) = true := fun c hc => by simpa using (plain c hc).2.1
    have htake : (word ++ quote :: u).takeWhile (· != quote) = word := by
      rw [List.takeWhile_append_of_pos hne]; simp
    have hdrop : (word ++ quote :: u).dropWhile (· != quote) = quote :: u := by
      rw [List.dropWhile_append_of_pos hne]; simp
    refine ⟨⟨pos + 1, word ++ quote :: u, word.length⟩, ?_, ?_, rfl⟩
    · have hlex : lex .gap pos (quote :: (word ++ quote :: u)) =
          lex (.quoted (pos + 1) (word ++ quote :: u)) (pos + 1) (word ++ quote :: u) := by
        simp [lex]
      simp only [Written.text, List.cons_append, List.append_assoc, List.nil_append]
      rw [hlex, lex_quoted, htake, hdrop]
      simp only [Nat.add_sub_cancel_left, List.length_cons, List.length_append, List.length_nil,
        show pos + 1 + word.length + 1 = pos + (word.length + (0 + 1) + 1) by omega]
    · simp [Tok.word, Written.word]

/-- What follows an argument on its line starts with white space. -/
theorem follows_isspace (more : List (Gap × Written)) (trail : Blanks) {u : Bytes}
    (hu : EndsLine u) : ∀ c ∈ (moreText more ++ trail.bytes ++ u).head?, isspace c = true := by
  intro c hc
  cases more with
  | nil =>
    cases ht : trail.bytes with
    | nil =>
      rcases hu with rfl | ⟨t, rfl⟩
      · simp [moreText, ht] at hc
      · simp only [moreText, ht, List.flatMap_nil, List.nil_append, List.head?_cons,
          Option.mem_def, Option.some.injEq] at hc
        subst hc; rfl
    | cons b bs =>
      simp only [moreText, ht, List.flatMap_nil, List.nil_append, List.cons_append,
        List.head?_cons, Option.mem_def, Option.some.injEq] at hc
      subst hc
      exact isspace_of_isBlank (trail.blank b (by simp [ht]))
  | cons p more =>
    obtain ⟨b, bs, hb⟩ := List.exists_cons_of_ne_nil p.1.ne
    simp only [moreText, List.flatMap_cons, hb, List.cons_append, List.head?_cons,
      Option.mem_def, Option.some.injEq] at hc
    subst hc
    exact isspace_of_isBlank (p.1.blank b (by simp [hb]))

/-- Offset and length of an argument. -/
def spanOf (t : Tok) : Nat × Nat := (t.start, t.len)

theorem lex_more (trail : Blanks) {u : Bytes} (hu : EndsLine u) :
    ∀ (more : List (Gap × Written)) (pos : Nat), ∃ toks,
      lex .gap pos (moreText more ++ trail.bytes ++ u) = some toks ∧
      toks.map Tok.word = more.map (·.2.word) ∧ toks.map spanOf = moreSlices pos more
  | [], pos => by
    refine ⟨[], ?_, rfl, rfl⟩
    rw [moreText, List.flatMap_nil, List.nil_append, lex_skip_blanks _ _ trail.blank]
    exact lex_endsLine hu _
  | (g, w) :: more, pos => by
    obtain ⟨toks, hl, hw, hs⟩ := lex_more trail hu more (pos + g.bytes.length + w.text.length)
    obtain ⟨t, ht, htw, hts⟩ :=
      lex_written w (follows_isspace more trail hu) (pos + g.bytes.length)
    refine ⟨t :: toks, ?_, by simp [hw, htw], by simp [moreSlices, hs, spanOf, hts]⟩
    have hsplit : moreText ((g, w) :: more) ++ trail.bytes ++ u =
        g.bytes ++ (w.text ++ (moreText more ++ trail.bytes ++ u)) := by
      simp [moreText]
    rw [hsplit, lex_skip_blanks _ _ g.blank, ht, hl]; rfl

theorem lex_line (lead : Blanks) (first : Written) (more : List (Gap × Written)) (trail : Blanks)
    {u : Bytes} (hu : EndsLine u) (pos : Nat) : ∃ toks,
      lex .gap pos ((Line.directive lead first more trail).text ++ u) = some toks ∧
      toks.map Tok.word = (Line.directive lead first more trail).words ∧
      toks.map spanOf = (Line.directive lead first more trail).slices pos := by
  obtain ⟨toks, hl, hw, hs⟩ :=
    lex_more trail hu more (pos + lead.bytes.length + first.text.length)
  obtain ⟨t, ht, htw, hts⟩ :=
    lex_written first (follows_isspace more trail hu) (pos + lead.bytes.length)
  refine ⟨t :: toks, ?_, by simp [Line.words, hw, htw], by simp [Line.slices, hs, spanOf, hts]⟩
  have hsplit : (Line.directive lead first more trail).text ++ u =
      lead.bytes ++ (first.text ++ (moreText more ++ trail.bytes ++ u)) := by
    simp [Line.text]
  rw [hsplit, lex_skip_blanks _ _ lead.blank, ht, hl]; rfl

/-! ## Reading a document back -/

theorem firstLine_text (l : Line) {u : Bytes} (hu : EndsLine u) :
    firstLine newline (l.text ++ u) = l.text := by
  have hplain : ∀ c ∈ l.text, (c != newline) = true := fun c hc => by
    simpa using (l.text_plain c hc).2
  rw [firstLine, List.takeWhile_append_of_pos hplain]
  rcases hu with rfl | ⟨t, rfl⟩ <;> simp

theorem afterLine_text (l : Line) {u : Bytes} (hu : EndsLine u) :
    afterLine newline (l.text ++ u) = u.tail := by
  have hplain : ∀ c ∈ l.text, (c != newline) = true := fun c hc => by
    simpa using (l.text_plain c hc).2
  rw [afterLine, List.dropWhile_append_of_pos hplain]
  rcases hu with rfl | ⟨t, rfl⟩ <;> simp

/-- An argument holds a byte that is no white space. -/
theorem Written.text_solid (w : Written) : ∃ c ∈ w.text, isspace c = false := by
  cases w with
  | bare word ne solid _ =>
    obtain ⟨c, r, rfl⟩ := List.exists_cons_of_ne_nil ne
    exact ⟨c, by simp [Written.text], (solid c (by simp)).1⟩
  | quoted word _ => exact ⟨quote, by simp [Written.text], rfl⟩

theorem blankLine_text (l : Line) {u : Bytes} (hu : EndsLine u) :
    blankLine (l.text ++ u) = match l with
      | .blank _ => true
      | .directive _ _ _ _ => false := by
  rw [blankLine, firstLine_text l hu]
  cases l with
  | blank b => exact List.all_eq_true.mpr fun c hc => isspace_of_isBlank (b.blank c hc)
  | directive lead first more trail =>
    obtain ⟨c, hc, hs⟩ := first.text_solid
    simp only [List.all_eq_false]
    exact ⟨c, by simp [Line.text, hc], by simp [hs]⟩

/-- The directives of a text are those of its first line and those behind it. -/
structure Reads (pos : Nat) (s : Bytes) (words : List (List Bytes))
    (slices : List (List (Nat × Nat))) (tss : List (List Tok)) : Prop where
  lexed : configToks pos s = some tss
  words : tss.map (List.map Tok.word) = words
  slices : tss.map (List.map spanOf) = slices

theorem reads_line (l : Line) {u : Bytes} (hu : EndsLine u) {pos : Nat} {words slices tss}
    (h : Reads (pos + l.text.length + 1) u.tail words slices tss) :
    ∃ r, Reads pos (l.text ++ u)
      (match l with | .blank _ => words | l => l.words :: words)
      (match l with | .blank _ => slices | l => l.slices pos :: slices) r := by
  by_cases hne : l.text ++ u = []
  · -- an empty line without a line end
    obtain ⟨hl, rfl⟩ := List.append_eq_nil_iff.mp hne
    cases l with
    | blank b => exact ⟨tss, by rw [hne]; exact h.lexed, h.words, h.slices⟩
    | directive lead first more trail =>
      obtain ⟨c, hc, _⟩ := first.text_solid
      have : c ∈ (Line.directive lead first more trail).text := by simp [Line.text, hc]
      rw [hl] at this; cases this
  · have hunfold := configToks_unfold pos (l.text ++ u) hne
    rw [firstLine_text l hu, afterLine_text l hu, h.lexed, blankLine_text l hu] at hunfold
    cases l with
    | blank b => exact ⟨tss, hunfold, h.words, h.slices⟩
    | directive lead first more trail =>
      obtain ⟨toks, hl, hw, hs⟩ := lex_line lead first more trail hu pos
      rw [hl] at hunfold
      exact ⟨toks :: tss, hunfold, by rw [List.map_cons, hw, h.words],
        by rw [List.map_cons, hs, h.slices]⟩

theorem wordsOf_cons (l : Line) (ls : List Line) :
    wordsOf (l :: ls) = match l with | .blank _ => wordsOf ls | l => l.words :: wordsOf ls := by
  cases l <;> simp [wordsOf, Line.words]

theorem slicesOf_cons (pos : Nat) (l : Line) (ls : List Line) : slicesOf pos (l :: ls) =
    match l with
    | .blank _ => slicesOf (pos + l.text.length + 1) ls
    | l => l.slices pos :: slicesOf (pos + l.text.length + 1) ls := by
  cases l <;> rfl

theorem reads_textOf (final : Bool) : ∀ (ls : List Line) (pos : Nat),
    ∃ tss, Reads pos (textOf final ls) (wordsOf ls) (slicesOf pos ls) tss
  | [], pos => ⟨[], rfl, rfl, rfl⟩
  | [l], pos => by
    have hu : EndsLine (if final then [newline] else []) := by
      cases final
      · exact .inl rfl
      · exact .inr ⟨[], rfl⟩
    have hnil : Reads (pos + l.text.length + 1) (if final then [newline] else []).tail [] [] [] :=
      ⟨by cases final <;> rfl, rfl, rfl⟩
    rw [wordsOf_cons, slicesOf_cons]
    cases l <;> exact reads_line _ hu hnil
  | l :: m :: ls, pos => by
    obtain ⟨tss, h⟩ := reads_textOf final (m :: ls) (pos + l.text.length + 1)
    rw [wordsOf_cons, slicesOf_cons]
    cases l <;> exact reads_line _ (.inr ⟨_, rfl⟩) h

/-- Offset and length of the arguments of a directive. -/
def argSpans (d : Directive) : List (Nat × Nat) := d.args.elems.map fun a => (a.str.pos, a.len)

/-- **Reading back what was written.** However a list of directives is laid
out, `parse_config` accepts the text and returns these directives, with each
argument where it was written. -/
theorem parse_text (d : Document) : ∃ ds, configOf d.text = some ds ∧
    ds.map Directive.words = wordsOf d.lines ∧ ds.map argSpans = slicesOf 0 d.lines := by
  obtain ⟨tss, hread⟩ := reads_textOf d.final d.lines 0
  have ht : configToks 0 d.text.bytes = some tss := hread.lexed
  obtain ⟨ds, hd⟩ := Option.isSome_iff_exists.mp
    ((configOf_isSome d.text).trans (by rw [ht]; rfl))
  obtain ⟨hwords, hargs⟩ := directive_words hd ht
  refine ⟨ds, hd, hwords.trans hread.words, ?_⟩
  have hspans := congrArg (List.map (List.map fun a : DirectiveArg => (a.str.pos, a.len))) hargs
  simp only [List.map_map, Function.comp_def] at hspans
  have hslices := hread.slices
  unfold argSpans
  rw [hspans, ← hslices]
  rfl

end SalernOS.Init.Layout
