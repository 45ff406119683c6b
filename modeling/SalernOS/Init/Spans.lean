import SalernOS.Lib.OptionMap
import SalernOS.Init.Grammar

/-! # Where the arguments of a line lie

Bounds on the arguments that the automaton cuts, the line on which the first
of them starts, and how far a quote reaches that its line leaves open.
-/
namespace SalernOS.Init.Grammar
open SalernOS.Lib SalernOS.Libc

/-- The argument lies between `lo` and the end of the text, at `hi`. An empty
argument stands before the quote that closes it. -/
structure Tok.Within (lo hi : Nat) (t : Tok) : Prop where
  lower : lo ≤ t.start
  text : t.start + t.rest.length = hi
  len : t.len ≤ t.rest.length
  empty : t.len = 0 → t.rest.head? = some quote

theorem Tok.Within.upper {lo hi : Nat} {t : Tok} (h : t.Within lo hi) : t.start + t.len ≤ hi := by
  have := h.text; have := h.len; omega

theorem Tok.Within.mono {lo lo' hi : Nat} {t : Tok} (h : t.Within lo hi) (hl : lo' ≤ lo) :
    t.Within lo' hi := ⟨Nat.le_trans hl h.lower, h.text, h.len, h.empty⟩

/-- The argument that a mode has begun started before `pos`, in the same text. -/
def Mode.Begun (pos : Nat) (s : Bytes) : Mode → Prop
  | .gap => True
  | .bare start rest => ∃ pre, rest = pre ++ s ∧ pos = start + pre.length ∧ pre ≠ []
  | .quoted start rest => ∃ pre, rest = pre ++ s ∧ pos = start + pre.length

def Mode.lower (pos : Nat) : Mode → Nat
  | .gap => pos
  | .bare start _ | .quoted start _ => start

/-- A bare argument that ends here. -/
theorem within_bare {start pos : Nat} {rest s : Bytes} (h : Mode.Begun pos s (.bare start rest)) :
    Tok.Within start (pos + s.length) ⟨start, rest, pos - start⟩ := by
  obtain ⟨pre, rfl, rfl, hne⟩ := h
  have := List.length_pos_iff.mpr hne
  refine ⟨Nat.le_refl _, ?_, ?_, fun h0 => ?_⟩
  · simp only [List.length_append]; omega
  · simp only [List.length_append]; omega
  · simp only at h0; omega

/-- A quoted argument that ends here. -/
theorem within_quoted {start pos : Nat} {rest s : Bytes}
    (h : Mode.Begun pos (quote :: s) (.quoted start rest)) :
    Tok.Within start (pos + (quote :: s).length) ⟨start, rest, pos - start⟩ := by
  obtain ⟨pre, rfl, rfl⟩ := h
  refine ⟨Nat.le_refl _, ?_, ?_, fun h0 => ?_⟩
  · simp only [List.length_append]; omega
  · simp only [List.length_append]; omega
  · have : pre = [] := List.length_eq_zero_iff.mp (by simp only at h0; omega)
    subst this; rfl

theorem Mode.Begun.next_bare {start pos : Nat} {rest s : Bytes} {c : UInt8}
    (h : Mode.Begun pos (c :: s) (.bare start rest)) : Mode.Begun (pos + 1) s (.bare start rest) := by
  obtain ⟨pre, rfl, rfl, _⟩ := h
  exact ⟨pre ++ [c], by simp, by simp only [List.length_append, List.length_singleton]; omega,
    by simp⟩

theorem Mode.Begun.next_quoted {start pos : Nat} {rest s : Bytes} {c : UInt8}
    (h : Mode.Begun pos (c :: s) (.quoted start rest)) :
    Mode.Begun (pos + 1) s (.quoted start rest) := by
  obtain ⟨pre, rfl, rfl⟩ := h
  exact ⟨pre ++ [c], by simp, by simp only [List.length_append, List.length_singleton]; omega⟩

theorem Mode.Begun.lower_le {m : Mode} {pos : Nat} {s : Bytes} (h : m.Begun pos s) :
    m.lower pos ≤ pos := by
  cases m with
  | gap => exact Nat.le_refl _
  | bare start rest =>
    obtain ⟨pre, -, rfl, -⟩ := h
    exact Nat.le_add_right _ _
  | quoted start rest =>
    obtain ⟨pre, -, rfl⟩ := h
    exact Nat.le_add_right _ _

/-! ## What a byte does to a mode -/

/-- A byte ends the argument that has begun, keeps it, or begins one. -/
theorem move_some {m m' : Mode} {pos : Nat} {c : UInt8} {s : Bytes}
    (h : (m.move pos c s).2 = some m') :
    m' = .gap ∨ m' = m ∨ m = .gap ∧ (m' = .quoted (pos + 1) s ∨ m' = .bare pos (c :: s)) := by
  cases m with
  | gap =>
    simp only [Mode.move] at h
    split at h
    · cases h
    split at h
    · exact .inr (.inr ⟨rfl, .inl (Option.some.inj h).symm⟩)
    split at h
    · exact .inl (Option.some.inj h).symm
    · exact .inr (.inr ⟨rfl, .inr (Option.some.inj h).symm⟩)
  | bare start rest =>
    simp only [Mode.move] at h
    split at h
    · cases h
    split at h
    · exact .inl (Option.some.inj h).symm
    · exact .inr (.inl (Option.some.inj h).symm)
  | quoted start rest =>
    simp only [Mode.move] at h
    split at h
    · exact .inl (Option.some.inj h).symm
    · exact .inr (.inl (Option.some.inj h).symm)

/-- What it ends is what has begun. -/
theorem mem_move {m : Mode} {pos : Nat} {c : UInt8} {s : Bytes} {t : Tok}
    (h : t ∈ (m.move pos c s).1) : ∃ start rest, t = ⟨start, rest, pos - start⟩ ∧
      (m = .bare start rest ∨ m = .quoted start rest ∧ c = quote) := by
  cases m with
  | gap =>
    simp only [Mode.move] at h
    split at h
    · cases h
    split at h
    · cases h
    split at h <;> cases h
  | bare start rest =>
    simp only [Mode.move] at h
    split at h
    · exact ⟨start, rest, List.mem_singleton.mp h, .inl rfl⟩
    split at h
    · exact ⟨start, rest, List.mem_singleton.mp h, .inl rfl⟩
    · cases h
  | quoted start rest =>
    simp only [Mode.move] at h
    split at h
    · next hq => exact ⟨start, rest, List.mem_singleton.mp h, .inr ⟨rfl, hq⟩⟩
    · cases h

theorem Mode.Begun.move {m m' : Mode} {pos : Nat} {c : UInt8} {s : Bytes}
    (h : m.Begun pos (c :: s)) (hmove : (m.move pos c s).2 = some m') : m'.Begun (pos + 1) s := by
  rcases move_some hmove with rfl | rfl | ⟨-, rfl | rfl⟩
  · trivial
  · cases m' with
    | gap => trivial
    | bare start rest => exact h.next_bare
    | quoted start rest => exact h.next_quoted
  · exact ⟨[], rfl, rfl⟩
  · exact ⟨[c], rfl, rfl, List.cons_ne_nil _ _⟩

theorem lower_move {m m' : Mode} {pos : Nat} {c : UInt8} {s : Bytes} (hle : m.lower pos ≤ pos)
    (hmove : (m.move pos c s).2 = some m') :
    m.lower pos ≤ m'.lower (pos + 1) ∧ m'.lower (pos + 1) ≤ pos + 1 := by
  rcases move_some hmove with rfl | rfl | ⟨rfl, rfl | rfl⟩
  · exact ⟨Nat.le_succ_of_le hle, Nat.le_refl _⟩
  · cases m' with
    | gap => exact ⟨Nat.le_succ _, Nat.le_refl _⟩
    | bare start rest => exact ⟨Nat.le_refl _, Nat.le_succ_of_le hle⟩
    | quoted start rest => exact ⟨Nat.le_refl _, Nat.le_succ_of_le hle⟩
  · exact ⟨Nat.le_succ _, Nat.le_refl _⟩
  · exact ⟨Nat.le_refl _, Nat.le_succ _⟩

/-- What holds of an argument where it ends, and of the arguments behind a byte
with that byte in front, holds of every argument of a line. -/
theorem lex_forall {P : Mode → Nat → Bytes → Tok → Prop}
    (hbare : ∀ {start rest pos s}, Mode.Begun pos s (.bare start rest) →
      P (.bare start rest) pos s ⟨start, rest, pos - start⟩)
    (hquoted : ∀ {start rest pos s}, Mode.Begun pos (quote :: s) (.quoted start rest) →
      P (.quoted start rest) pos (quote :: s) ⟨start, rest, pos - start⟩)
    (hmove : ∀ {m m' : Mode} {pos c s t}, m.Begun pos (c :: s) →
      (m.move pos c s).2 = some m' → P m' (pos + 1) s t → P m pos (c :: s) t) (s : Bytes) :
    ∀ (m : Mode) (pos : Nat) (toks : List Tok), m.Begun pos s → lex m pos s = some toks →
      ∀ t ∈ toks, P m pos s t := by
  induction s with
  | nil =>
    intro m pos toks hm h t ht
    cases m with
    | gap => cases h; cases ht
    | bare start rest =>
      cases h
      cases List.mem_singleton.mp ht
      exact hbare hm
    | quoted start rest => cases h
  | cons c s ih =>
    intro m pos toks hm h t ht
    have hended : t ∈ (m.move pos c s).1 → P m pos (c :: s) t := by
      intro ht
      obtain ⟨start, rest, rfl, rfl | ⟨rfl, rfl⟩⟩ := mem_move ht
      · exact hbare hm
      · exact hquoted hm
    rcases lex_cons_some h with ⟨-, rfl⟩ | ⟨m', more, hnext, hmore, rfl⟩
    · exact hended ht
    · rcases List.mem_append.mp ht with ht | ht
      · exact hended ht
      · exact hmove hm hnext (ih m' (pos + 1) more (hm.move hnext) hmore t ht)

/-! ## Bounds -/

theorem lex_within (s : Bytes) : ∀ (m : Mode) (pos : Nat) (toks : List Tok), m.Begun pos s →
    lex m pos s = some toks → ∀ t ∈ toks, t.Within (m.lower pos) (pos + s.length) := by
  refine lex_forall (P := fun m pos s t => t.Within (m.lower pos) (pos + s.length)) within_bare
    within_quoted ?_ s
  intro m m' pos c s t hm hmove ht
  have hlen : pos + (c :: s).length = pos + 1 + s.length := by
    rw [List.length_cons]
    omega
  rw [hlen]
  exact ht.mono (lower_move hm.lower_le hmove).1

theorem lex_gap_within {pos : Nat} {s : Bytes} {toks : List Tok}
    (h : lex .gap pos s = some toks) : ∀ t ∈ toks, t.Within pos (pos + s.length) :=
  lex_within s .gap pos toks trivial h

/-- An argument that has begun is the next one. -/
theorem lex_begun (s : Bytes) : ∀ (m : Mode) (pos : Nat) (toks : List Tok),
    lex m pos s = some toks → match m with
      | .gap => True
      | .bare start rest | .quoted start rest =>
        ∃ len more, toks = ⟨start, rest, len⟩ :: more := by
  induction s with
  | nil =>
    intro m pos toks h
    cases m with
    | gap => trivial
    | bare start rest => cases h; exact ⟨_, _, rfl⟩
    | quoted start rest => cases h
  | cons c s ih =>
    intro m pos toks h
    cases m with
    | gap => trivial
    | bare start rest =>
      simp only [lex] at h
      split at h
      · cases h; exact ⟨_, _, rfl⟩
      split at h
      · obtain ⟨more, _, rfl⟩ := Option.map_eq_some_iff.mp h
        exact ⟨_, _, rfl⟩
      · exact ih (.bare start rest) (pos + 1) toks h
    | quoted start rest =>
      simp only [lex] at h
      split at h
      · obtain ⟨more, _, rfl⟩ := Option.map_eq_some_iff.mp h
        exact ⟨_, _, rfl⟩
      · exact ih (.quoted start rest) (pos + 1) toks h

/-- The first argument starts before the first line end. -/
theorem lex_head (s : Bytes) : ∀ (pos : Nat) (t : Tok) (more : List Tok),
    lex .gap pos s = some (t :: more) →
    ∃ pre, s = pre ++ t.rest ∧ t.start = pos + pre.length ∧ newline ∉ pre := by
  induction s with
  | nil => intro pos t more h; cases h
  | cons c s ih =>
    intro pos t more h
    simp only [lex] at h
    split at h
    · cases h
    rename_i hn
    split at h
    · rename_i hq
      obtain ⟨len, _, he⟩ := lex_begun s (.quoted (pos + 1) s) _ _ h
      cases he
      exact ⟨[c], rfl, rfl, by simpa using Ne.symm hn⟩
    split at h
    · obtain ⟨pre, hs, ht, hp⟩ := ih (pos + 1) t more h
      refine ⟨c :: pre, by rw [hs]; rfl, ?_, ?_⟩
      · simp only [List.length_cons]; omega
      · simp only [List.mem_cons, not_or]; exact ⟨Ne.symm hn, hp⟩
    · obtain ⟨len, _, he⟩ := lex_begun s (.bare pos (c :: s)) _ _ h
      cases he
      exact ⟨[], rfl, rfl, by simp⟩

/-- The argument is a piece of a text at `pos`. -/
def Tok.In (pos : Nat) (s : Bytes) (t : Tok) : Prop :=
  ∃ pre, s = pre ++ t.rest ∧ t.start = pos + pre.length

/-- A piece of what stands behind `pre` is one of the whole. -/
theorem Tok.In.append {pos : Nat} {s : Bytes} {t : Tok} (pre : Bytes)
    (h : t.In (pos + pre.length) s) : t.In pos (pre ++ s) := by
  obtain ⟨gap, rfl, hstart⟩ := h
  exact ⟨pre ++ gap, (List.append_assoc _ _ _).symm, by
    rw [hstart, List.length_append, Nat.add_assoc]⟩

/-- What a mode reads from: the argument it has begun, or the text ahead. -/
def Mode.text (s : Bytes) : Mode → Bytes
  | .gap => s
  | .bare _ rest | .quoted _ rest => rest

/-- The text ahead is a piece of what is read from. -/
theorem Mode.Begun.split {m : Mode} {pos : Nat} {s : Bytes} (h : m.Begun pos s) :
    ∃ pre, m.text s = pre ++ s ∧ pos = m.lower pos + pre.length := by
  cases m with
  | gap => exact ⟨[], rfl, rfl⟩
  | bare start rest =>
    obtain ⟨pre, hrest, hpos, -⟩ := h
    exact ⟨pre, hrest, hpos⟩
  | quoted start rest => exact h

theorem Tok.In.split {m : Mode} {pos : Nat} {s : Bytes} {t : Tok} (h : m.Begun pos s)
    (ht : t.In pos s) : t.In (m.lower pos) (m.text s) := by
  obtain ⟨pre, htext, hpos⟩ := h.split
  rw [htext]
  exact Tok.In.append pre (hpos ▸ ht)

/-- So is a piece of what stands behind the next byte. -/
theorem Tok.In.next {m : Mode} {pos : Nat} {c : UInt8} {s : Bytes} {t : Tok}
    (h : m.Begun pos (c :: s)) (ht : t.In (pos + 1) s) : t.In (m.lower pos) (m.text (c :: s)) :=
  Tok.In.split h (Tok.In.append [c] ht)

theorem Tok.In.move {m m' : Mode} {pos : Nat} {c : UInt8} {s : Bytes} {t : Tok}
    (h : m.Begun pos (c :: s)) (hmove : (m.move pos c s).2 = some m')
    (ht : t.In (m'.lower (pos + 1)) (m'.text s)) : t.In (m.lower pos) (m.text (c :: s)) := by
  rcases move_some hmove with rfl | rfl | ⟨rfl, rfl | rfl⟩
  · exact Tok.In.next h ht
  · cases m' with
    | gap => exact Tok.In.next h ht
    | bare start rest => exact ht
    | quoted start rest => exact ht
  · exact Tok.In.next h ht
  · exact ht

/-- Every argument is a piece of the text that it is read from. -/
theorem lex_in (s : Bytes) : ∀ (m : Mode) (pos : Nat) (toks : List Tok), m.Begun pos s →
    lex m pos s = some toks → ∀ t ∈ toks, t.In (m.lower pos) (m.text s) :=
  lex_forall (P := fun m pos s t => t.In (m.lower pos) (m.text s)) (fun _ => ⟨[], rfl, rfl⟩)
    (fun _ => ⟨[], rfl, rfl⟩) Tok.In.move s

/-- A line that begins with something else than white space has an argument. -/
theorem lex_ne_nil {pos : Nat} {c : UInt8} {s : Bytes} {toks : List Tok} (hc : isspace c = false)
    (h : lex .gap pos (c :: s) = some toks) : toks ≠ [] := by
  have hn : c ≠ newline := by
    rintro rfl
    cases hc
  simp only [lex, hn, hc, if_false, Bool.false_eq_true] at h
  split at h
  · obtain ⟨len, more, rfl⟩ := lex_begun s (.quoted (pos + 1) s) _ _ h
    exact List.cons_ne_nil _ _
  · obtain ⟨len, more, rfl⟩ := lex_begun s (.bare pos (c :: s)) _ _ h
    exact List.cons_ne_nil _ _

/-! ## A quote that its line leaves open -/

/-- An open quote reaches to where the scan stands, and over the next byte if
that is none. -/
theorem lex_quoted_reaches (s : Bytes) : ∀ (start : Nat) (rest : Bytes) (pos : Nat)
    (toks : List Tok), start ≤ pos → lex (.quoted start rest) pos s = some toks →
    ∃ t ∈ toks, pos ≤ t.start + t.len := by
  induction s with
  | nil => intro start rest pos toks _ h; cases h
  | cons c s ih =>
    intro start rest pos toks hle h
    simp only [lex] at h
    split at h
    · obtain ⟨more, _, rfl⟩ := Option.map_eq_some_iff.mp h
      exact ⟨_, List.mem_cons_self, by simp only; omega⟩
    · obtain ⟨t, ht, hr⟩ := ih start rest (pos + 1) toks (by omega) h
      exact ⟨t, ht, by omega⟩

/-- Read up to an open quote, the rest of the text is read in that quote. -/
theorem lex_of_open (l s : Bytes) : ∀ (m : Mode) (pos : Nat) (toks : List Tok),
    m.lower pos ≤ pos → m.ctx.after l = .quoted → lex m pos (l ++ s) = some toks →
    ∃ start rest more, start ≤ pos + l.length ∧
      lex (.quoted start rest) (pos + l.length) s = some more ∧ ∀ t ∈ more, t ∈ toks := by
  induction l with
  | nil =>
    intro m pos toks hle hq h
    cases m with
    | gap => cases hq
    | bare start rest => cases hq
    | quoted start rest => exact ⟨start, rest, toks, hle, h, fun _ ht => ht⟩
  | cons c l ih =>
    intro m pos toks hle hq h
    have hlen : pos + (c :: l).length = pos + 1 + l.length := by
      rw [List.length_cons]
      omega
    rw [Ctx.after_cons, ctx_move m pos c (l ++ s)] at hq
    rw [List.cons_append] at h
    rw [hlen]
    rcases lex_cons_some h with ⟨hover, -⟩ | ⟨m', more, hmove, hmore, rfl⟩
    · rw [hover, Option.map_none, Option.getD_none, Ctx.over_after] at hq
      cases hq
    · rw [hmove] at hq
      obtain ⟨start, rest, ts, hstart, hl, hsub⟩ :=
        ih m' (pos + 1) more (lower_move hle hmove).2 hq hmore
      exact ⟨start, rest, ts, hstart, hl, fun t ht => List.mem_append_right _ (hsub t ht)⟩

/-- A line that leaves a quote open and is accepted all the same has an
argument that reaches over the end of the line. -/
theorem lex_open_line {pos : Nat} {s : Bytes} {toks : List Tok}
    (ho : leavesQuoteOpen (firstLine newline s) = true) (h : lex .gap pos s = some toks) :
    ∃ t ∈ toks, pos + (firstLine newline s).length < t.start + t.len := by
  have hq : Mode.gap.ctx.after (firstLine newline s) = .quoted := eq_of_beq ho
  rcases firstLine_cases newline s with he | he
  · rw [he, ← lex_gap_eq_none_iff pos, h] at ho
    cases ho
  · rw [he] at h
    obtain ⟨start, rest, more, hle, hl, hsub⟩ :=
      lex_of_open _ _ .gap pos toks (Nat.le_refl _) hq h
    rw [lex, if_neg (Ne.symm quote_ne_newline)] at hl
    obtain ⟨t, ht, hr⟩ := lex_quoted_reaches _ start rest _ more (by omega) hl
    exact ⟨t, hsub t ht, by omega⟩

/-! ## Moving a text -/

def Tok.shift (k : Nat) (t : Tok) : Tok := { t with start := t.start + k }

def Mode.shift (k : Nat) : Mode → Mode
  | .gap => .gap
  | .bare start rest => .bare (start + k) rest
  | .quoted start rest => .quoted (start + k) rest

@[simp] theorem Tok.word_shift (k : Nat) (t : Tok) : (t.shift k).word = t.word := rfl

theorem move_shift (k : Nat) (m : Mode) (pos : Nat) (c : UInt8) (s : Bytes) :
    (m.shift k).move (pos + k) c s =
      ((m.move pos c s).1.map (Tok.shift k), (m.move pos c s).2.map (Mode.shift k)) := by
  cases m with
  | gap =>
    simp only [Mode.shift, Mode.move, Nat.add_right_comm pos k 1]
    split
    · rfl
    split
    · rfl
    split <;> rfl
  | bare start rest =>
    simp only [Mode.shift, Mode.move, Nat.add_sub_add_right]
    split
    · rfl
    split <;> rfl
  | quoted start rest =>
    simp only [Mode.shift, Mode.move, Nat.add_sub_add_right]
    split <;> rfl

theorem lex_shift (k : Nat) (s : Bytes) : ∀ (m : Mode) (pos : Nat),
    lex (m.shift k) (pos + k) s = (lex m pos s).map (List.map (Tok.shift k)) := by
  induction s with
  | nil =>
    intro m pos
    cases m <;> simp [lex, Mode.shift, Tok.shift, Nat.add_sub_add_right]
  | cons c s ih =>
    intro m pos
    rw [lex_cons, lex_cons, move_shift]
    cases (m.move pos c s).2 with
    | none => rfl
    | some m' =>
      simp only [Option.map_some, Nat.add_right_comm pos k 1, ih m' (pos + 1), Option.map_map,
        Function.comp_def, List.map_append]

theorem configToks_shift (k pos : Nat) (s : Bytes) :
    configToks (pos + k) s = (configToks pos s).map (List.map (List.map (Tok.shift k))) := by
  have hlex : ∀ p : Nat × Bytes, lex .gap (p.1 + k) p.2 =
      (lex .gap p.1 p.2).map (List.map (Tok.shift k)) := fun p => lex_shift k p.2 .gap p.1
  have hmap : ∀ l : List (Nat × Bytes),
      (l.map fun p => (p.1 + k, p.2)).mapM (fun p => lex .gap p.1 p.2) =
      (l.mapM fun p => lex .gap p.1 p.2).map (List.map (List.map (Tok.shift k))) := by
    intro l
    induction l with
    | nil => rfl
    | cons p l ih =>
      rw [List.map_cons, List.mapM_cons, List.mapM_cons, ih, hlex]
      cases lex .gap p.1 p.2 <;> cases l.mapM (fun p => lex .gap p.1 p.2) <;> rfl
  rw [configToks, bodyStarts, lineStarts_shift, List.filter_map, hmap]
  rfl

/-! ## Joining two texts with a line end -/

theorem blankLine_append (s t : Bytes) : blankLine (s ++ newline :: t) = blankLine s := by
  rw [blankLine, firstLine_append]; rfl

theorem bodyStarts_join (s t : Bytes) (pos : Nat) : bodyStarts pos (s ++ newline :: t) =
    (bodyStarts pos s).map (fun p => (p.1, p.2 ++ newline :: t)) ++
      bodyStarts (pos + s.length + 1) t := by
  obtain ⟨gap, hgap, he⟩ := lineStarts_join newline s t true pos
  have hg : gap.filter (fun p => !blankLine p.2) = [] := by
    rw [List.filter_eq_nil_iff]
    intro p hp
    simp [blankLine, hgap p hp]
  rw [bodyStarts, he, List.filter_append, List.filter_append, hg, List.nil_append,
    List.filter_map]
  simp only [bodyStarts, Function.comp_def, blankLine_append]

/-- The directives of a text that is accepted stay the same before more lines. -/
theorem configToks_join {s : Bytes} {pos : Nat} {tss : List (List Tok)} (t : Bytes)
    (h : configToks pos s = some tss) : configToks pos (s ++ newline :: t) =
      (configToks (pos + s.length + 1) t).map fun more =>
        tss.map (List.map (Tok.extend (newline :: t))) ++ more := by
  have hmap : ∀ (l : List (Nat × Bytes)) (r : List (List Tok)),
      l.mapM (fun p => lex .gap p.1 p.2) = some r →
      (l.map fun p => (p.1, p.2 ++ newline :: t)).mapM (fun p => lex .gap p.1 p.2) =
        some (r.map (List.map (Tok.extend (newline :: t)))) := by
    intro l r hl
    rw [mapM_eq_some_iff] at hl ⊢
    have hcongr : ∀ p ∈ l, lex .gap p.1 (p.2 ++ newline :: t) =
        (lex .gap p.1 p.2).map (List.map (Tok.extend (newline :: t))) := by
      intro p hp
      refine lex_append_newline t p.2 .gap p.1 fun hq => ?_
      have hnone := (lex_eq_none_iff p.2 .gap p.1).mpr hq
      have : lex .gap p.1 p.2 ∈ l.map (fun p => lex .gap p.1 p.2) :=
        List.mem_map_of_mem (f := fun p : Nat × Bytes => lex .gap p.1 p.2) hp
      rw [hl, hnone] at this
      obtain ⟨_, _, he⟩ := List.mem_map.mp this
      cases he
    rw [List.map_map, List.map_map]
    have := congrArg (List.map (Option.map (List.map (Tok.extend (newline :: t))))) hl
    rw [List.map_map, List.map_map] at this
    exact (List.map_congr_left hcongr).trans this
  rw [configToks, bodyStarts_join, List.mapM_append, hmap _ _ h]
  exact Option.map_eq_bind.symm

end SalernOS.Init.Grammar
