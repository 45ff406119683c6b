import Mathlib.Data.List.TakeWhile

/-! # Lines of a text, as suffixes

A scanner that works line by line is handed, for every line, the text from
the start of that line on. Lines are ended by one element, and the empty text
has no line.
-/
namespace SalernOS.Lib

variable {α : Type} [DecidableEq α] (sep : α)

/-- The start of every line of a text at `pos`: its offset and the rest of the
text. The flag says whether the text begins a line. -/
def lineStarts : Bool → Nat → List α → List (Nat × List α)
  | _, _, [] => []
  | true, pos, a :: l => (pos, a :: l) :: lineStarts (a == sep) (pos + 1) l
  | false, pos, a :: l => lineStarts (a == sep) (pos + 1) l

/-- The line that a text begins with, without its end. -/
def firstLine (s : List α) : List α := s.takeWhile (· != sep)

/-- The text after the first line and its end. -/
def afterLine (s : List α) : List α := (s.dropWhile (· != sep)).tail

theorem firstLine_append (s t : List α) : firstLine sep (s ++ sep :: t) = firstLine sep s := by
  induction s with
  | nil => simp [firstLine]
  | cons a s ih =>
    simp only [firstLine, List.cons_append, List.takeWhile_cons] at ih ⊢
    rw [ih]

theorem sep_notMem_firstLine (s : List α) : sep ∉ firstLine sep s := by
  intro h
  simpa using List.mem_takeWhile_imp h

/-- A text is one line without end, or a line, its end and more text. -/
theorem firstLine_cases (s : List α) :
    firstLine sep s = s ∨ s = firstLine sep s ++ sep :: afterLine sep s := by
  induction s with
  | nil => exact .inl rfl
  | cons a s ih =>
    by_cases ha : a = sep
    · subst ha; right; simp [firstLine, afterLine]
    · have hb : (a != sep) = true := by simpa using ha
      simp only [firstLine, afterLine, List.takeWhile_cons, List.dropWhile_cons, hb, if_true,
        List.cons_append, List.cons.injEq, true_and] at ih ⊢
      exact ih

/-- Inside a line there is no further start. -/
theorem lineStarts_inside (l t : List α) (h : sep ∉ l) (pos : Nat) :
    lineStarts sep false pos (l ++ sep :: t) = lineStarts sep true (pos + l.length + 1) t := by
  induction l generalizing pos with
  | nil => simp [lineStarts]
  | cons a l ih =>
    simp only [List.mem_cons, not_or] at h
    have ha : (a == sep) = false := by simpa using Ne.symm h.1
    rw [List.cons_append, lineStarts, ha, ih h.2, List.length_cons]
    congr 1; omega

theorem lineStarts_last (l : List α) (h : sep ∉ l) (pos : Nat) :
    lineStarts sep false pos l = [] := by
  induction l generalizing pos with
  | nil => rfl
  | cons a l ih =>
    simp only [List.mem_cons, not_or] at h
    have ha : (a == sep) = false := by simpa using Ne.symm h.1
    rw [lineStarts, ha, ih h.2]

/-- The first line contributes its start unless the text ends there. -/
theorem lineStarts_cons_line (l t : List α) (h : sep ∉ l) (pos : Nat) :
    lineStarts sep true pos (l ++ sep :: t) =
      (pos, l ++ sep :: t) :: lineStarts sep true (pos + l.length + 1) t := by
  cases l with
  | nil => simp [lineStarts]
  | cons a l =>
    simp only [List.mem_cons, not_or] at h
    have ha : (a == sep) = false := by simpa using Ne.symm h.1
    rw [List.cons_append, lineStarts, ha, lineStarts_inside sep l t h.2, List.length_cons]
    congr 2; omega

theorem lineStarts_single (l : List α) (h : sep ∉ l) (hne : l ≠ []) (pos : Nat) :
    lineStarts sep true pos l = [(pos, l)] := by
  cases l with
  | nil => exact absurd rfl hne
  | cons a l =>
    simp only [List.mem_cons, not_or] at h
    have ha : (a == sep) = false := by simpa using Ne.symm h.1
    rw [lineStarts, ha, lineStarts_last sep l h.2]

/-- The starts of a text, line by line. -/
theorem lineStarts_unfold (s : List α) (hne : s ≠ []) (pos : Nat) :
    lineStarts sep true pos s =
      (pos, s) :: lineStarts sep true (pos + (firstLine sep s).length + 1) (afterLine sep s) := by
  rcases firstLine_cases sep s with h | h
  · have hs : sep ∉ s := h ▸ sep_notMem_firstLine sep s
    have ha : afterLine sep s = [] := by
      rw [firstLine, List.takeWhile_eq_self_iff] at h
      rw [afterLine, List.dropWhile_eq_nil_iff.mpr h, List.tail_nil]
    rw [lineStarts_single sep s hs hne, ha]; rfl
  · have hl := lineStarts_cons_line sep _ (afterLine sep s) (sep_notMem_firstLine sep s) pos
    rwa [← h] at hl

/-- Joining two texts with a line end joins their lines: the first text's
starts see more text behind them, the second text's are moved, and an empty
line appears where the first text is empty or ends with a line end. -/
theorem lineStarts_join (s t : List α) (b : Bool) (pos : Nat) :
    ∃ gap : List (Nat × List α), (∀ g ∈ gap, firstLine sep g.2 = []) ∧
      lineStarts sep b pos (s ++ sep :: t) =
        (lineStarts sep b pos s).map (fun p => (p.1, p.2 ++ sep :: t)) ++
          (gap ++ lineStarts sep true (pos + s.length + 1) t) := by
  induction s generalizing b pos with
  | nil =>
    cases b with
    | false => exact ⟨[], by simp, by simp [lineStarts]⟩
    | true => exact ⟨[(pos, sep :: t)], by simp [firstLine], by simp [lineStarts]⟩
  | cons a s ih =>
    obtain ⟨gap, hg, he⟩ := ih (a == sep) (pos + 1)
    refine ⟨gap, hg, ?_⟩
    rw [show pos + 1 + s.length + 1 = pos + (a :: s).length + 1 by
      simp only [List.length_cons]; omega] at he
    cases b <;> simp [lineStarts, he]

/-- Every start is a start of its text. -/
theorem lineStarts_suffix (s : List α) :
    ∀ (b : Bool) (pos : Nat), ∀ p ∈ lineStarts sep b pos s,
      ∃ pre, s = pre ++ p.2 ∧ p.1 = pos + pre.length ∧ p.2 ≠ [] := by
  induction s with
  | nil => intro b pos p hp; simp [lineStarts] at hp
  | cons a s ih =>
    intro b pos p hp
    have tail : p ∈ lineStarts sep (a == sep) (pos + 1) s →
        ∃ pre, a :: s = pre ++ p.2 ∧ p.1 = pos + pre.length ∧ p.2 ≠ [] := by
      intro h
      obtain ⟨pre, hs, hp, hne⟩ := ih _ _ p h
      exact ⟨a :: pre, by rw [hs]; rfl, by simp only [List.length_cons]; omega, hne⟩
    cases b with
    | false => exact tail hp
    | true =>
      rcases List.mem_cons.mp hp with rfl | h
      · exact ⟨[], rfl, rfl, by simp⟩
      · exact tail h

/-- Later starts lie behind the line of an earlier one. -/
theorem lineStarts_behind (s : List α) : ∀ (b : Bool) (pos : Nat),
    ∀ p ∈ lineStarts sep b pos s,
      if b = true then pos ≤ p.1 else pos + (firstLine sep s).length < p.1 := by
  induction s with
  | nil => intro b pos p hp; simp [lineStarts] at hp
  | cons a s ih =>
    have tail : ∀ pos, ∀ p ∈ lineStarts sep (a == sep) (pos + 1) s,
        pos + (firstLine sep (a :: s)).length < p.1 := by
      intro pos p hp
      have h := ih _ _ p hp
      by_cases ha : a = sep
      · subst ha
        simp only [beq_self_eq_true, if_true] at h
        simp [firstLine]; omega
      · have hb : (a == sep) = false := by simpa using ha
        have hc : (a != sep) = true := by simpa using ha
        simp only [hb, Bool.false_eq_true, if_false] at h
        simp only [firstLine, List.takeWhile_cons, hc, if_true, List.length_cons] at h ⊢
        omega
    intro b pos p hp
    cases b with
    | false => simpa using tail pos p hp
    | true =>
      rcases List.mem_cons.mp hp with rfl | hp
      · simp
      · have := tail pos p hp
        simp only [if_true]; omega

theorem lineStarts_pairwise (s : List α) : ∀ (b : Bool) (pos : Nat),
    (lineStarts sep b pos s).Pairwise fun p q => p.1 + (firstLine sep p.2).length < q.1 := by
  induction s with
  | nil => intro b pos; simp [lineStarts]
  | cons a s ih =>
    intro b pos
    cases b with
    | false => exact ih _ _
    | true =>
      refine List.pairwise_cons.mpr ⟨fun q hq => ?_, ih _ _⟩
      have := lineStarts_behind sep (a :: s) false pos q hq
      simpa using this

/-- Where a text lies does not matter for how it is cut. -/
theorem lineStarts_shift (k : Nat) (s : List α) : ∀ (b : Bool) (pos : Nat),
    lineStarts sep b (pos + k) s = (lineStarts sep b pos s).map fun p => (p.1 + k, p.2) := by
  induction s with
  | nil => intro b pos; rfl
  | cons a s ih =>
    intro b pos
    cases b <;> simp [lineStarts, ← ih, Nat.add_right_comm]

end SalernOS.Lib
