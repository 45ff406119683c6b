import SalernOS.Init.Spans
import SalernOS.Init.ParseSound

/-! # Is the configuration read line by line?

`parse_config` hands `parse_line` the text from the start of a line on, and
goes on behind the line end whatever `parse_line` consumed. A quote that its
line leaves open is closed on a later line, which is then read again.
-/
namespace SalernOS.Init.LineLocality
open SalernOS.Lib SalernOS.Libc SalernOS.Init.Grammar SalernOS.Init.Parse
open SalernOS.Init.ParseSound

/-! ## What line locality says -/

/-- Where the line ends that a pointer lies on. -/
def lineEnd (p : Ptr) : Nat := p.pos + (p.rest.takeWhile fun c => c != newline && c != nul).length

/-- No argument reaches past the end of the line on which the first one starts. -/
def WithinLine (args : List DirectiveArg) : Prop :=
  ∀ a₀ ∈ args.head?, ∀ a ∈ args, a.str.pos + a.len ≤ lineEnd a₀.str

/-- No byte of the text belongs to an argument of both. -/
def Apart (args args' : List DirectiveArg) : Prop :=
  ∀ a ∈ args, ∀ b ∈ args', ∀ k,
    ¬ ((a.str.pos ≤ k ∧ k < a.str.pos + a.len) ∧ (b.str.pos ≤ k ∧ k < b.str.pos + b.len))

/-- Joining two texts with a line end joins their directives. -/
structure LineLocal (c₁ c₂ : CString) : Prop where
  accepted : (configOf (c₁.joinLine c₂)).isSome ↔ (configOf c₁).isSome ∧ (configOf c₂).isSome
  words : ∀ ds ds₁ ds₂, configOf (c₁.joinLine c₂) = some ds → configOf c₁ = some ds₁ →
    configOf c₂ = some ds₂ → ds.map Directive.words = ds₁.map Directive.words ++ ds₂.map Directive.words
  within : ∀ ds, configOf (c₁.joinLine c₂) = some ds → ∀ d ∈ ds, WithinLine d.args.elems
  apart : ∀ ds, configOf (c₁.joinLine c₂) = some ds →
    ds.Pairwise fun d d' => Apart d.args.elems d'.args.elems

/-- Every line closes the quotes it opens. -/
def QuotesClosed (s : Bytes) : Prop :=
  ∀ p ∈ lineStarts newline true 0 s, leavesQuoteOpen (firstLine newline p.2) = false

/-- Some line opens a quote that nothing behind it closes. -/
def QuoteUnclosed (s : Bytes) : Prop :=
  ∃ p ∈ lineStarts newline true 0 s, leavesQuoteOpen p.2 = true

/-! ## Open quotes, line by line -/

theorem after_blanks {l : Bytes} (h : ∀ c ∈ l, isBlank c = true) : Ctx.gap.after l = .gap := by
  induction l with
  | nil => rfl
  | cons c l ih =>
    have hc := h c (by simp)
    have hq : c ≠ quote := by intro he; subst he; revert hc; decide
    rw [Ctx.after_cons, Ctx.step, if_neg (ne_newline_of_isBlank hc), if_neg hq,
      if_pos (isspace_of_isBlank hc)]
    exact ih fun d hd => h d (by simp [hd])

/-- A line end outside a quote ends the reading. -/
theorem after_newline {x : Ctx} (t : Bytes) (h : x ≠ .quoted) : x.after (newline :: t) = .over := by
  cases x <;> simp_all [Ctx.step]

theorem leavesQuoteOpen_append {s : Bytes} (t : Bytes) (h : leavesQuoteOpen s = false) :
    leavesQuoteOpen (s ++ newline :: t) = false := by
  have hs : Ctx.gap.after s ≠ .quoted := by simpa [leavesQuoteOpen] using h
  rw [leavesQuoteOpen, Ctx.after_append, after_newline t hs]; rfl

theorem leavesQuoteOpen_of_line {s : Bytes} (h : leavesQuoteOpen (firstLine newline s) = false) :
    leavesQuoteOpen s = false := by
  rcases firstLine_cases newline s with he | he
  · rwa [he] at h
  · rw [he]; exact leavesQuoteOpen_append _ h

theorem closed_of_blankLine {s : Bytes} (h : blankLine s = true) :
    leavesQuoteOpen (firstLine newline s) = false := by
  have hb : ∀ c ∈ firstLine newline s, isBlank c = true := by
    intro c hc
    have hn : c ≠ newline := fun he => sep_notMem_firstLine newline s (he ▸ hc)
    rw [isBlank, List.all_eq_true.mp h c hc]; simpa using hn
  rw [leavesQuoteOpen, after_blanks hb]; rfl

theorem mem_bodyStarts_of_open {s : Bytes} {pos : Nat} {p : Nat × Bytes}
    (hp : p ∈ lineStarts newline true pos s) (ho : leavesQuoteOpen (firstLine newline p.2) = true) :
    p ∈ bodyStarts pos s := by
  refine List.mem_filter.mpr ⟨hp, ?_⟩
  cases hb : blankLine p.2 with
  | false => rfl
  | true => rw [closed_of_blankLine hb] at ho; cases ho

/-- A text is refused exactly for a quote that is never closed. -/
theorem configToks_eq_none_iff (s : Bytes) : configToks 0 s = none ↔ QuoteUnclosed s := by
  rw [configToks, mapM_eq_none_iff]
  constructor
  · rintro ⟨p, hp, hl⟩
    exact ⟨p, (List.mem_filter.mp hp).1, (lex_gap_eq_none_iff _ _).mp hl⟩
  · rintro ⟨p, hp, ho⟩
    have hline : leavesQuoteOpen (firstLine newline p.2) = true := by
      by_contra hc
      rw [leavesQuoteOpen_of_line (by simpa using hc)] at ho; cases ho
    exact ⟨p, mem_bodyStarts_of_open hp hline, (lex_gap_eq_none_iff _ _).mpr ho⟩

theorem QuotesClosed.not_unclosed {s : Bytes} (h : QuotesClosed s) : ¬ QuoteUnclosed s := by
  rintro ⟨p, hp, ho⟩
  rw [leavesQuoteOpen_of_line (h p hp)] at ho; cases ho

/-! ## Lines that close their quotes -/

/-- The arguments of a line that closes its quotes end on that line. -/
theorem lex_closed_upper {pos : Nat} {s : Bytes} {toks : List Tok}
    (hc : leavesQuoteOpen (firstLine newline s) = false) (h : lex .gap pos s = some toks) :
    ∀ t ∈ toks, t.start + t.len ≤ pos + (firstLine newline s).length := by
  rcases firstLine_cases newline s with he | he
  · rw [he]
    exact fun t ht => (lex_gap_within h t ht).upper
  · have hq : Mode.gap.ctx.after (firstLine newline s) ≠ .quoted := by
      intro hq; rw [leavesQuoteOpen, beq_eq_false_iff_ne] at hc; exact hc hq
    rw [he] at h
    have hcut := (lex_append_newline (afterLine newline s) _ .gap pos hq).symm.trans h
    obtain ⟨line, hline, rfl⟩ := Option.map_eq_some_iff.mp hcut
    intro t ht
    obtain ⟨u, hu, rfl⟩ := List.mem_map.mp ht
    exact (lex_gap_within hline u hu).upper

/-- The first argument lies on the line that was handed to the scanner. -/
theorem lineEnd_head {pos : Nat} {s : Bytes} {t : Tok} {more : List Tok} (hs : nul ∉ s)
    (h : lex .gap pos s = some (t :: more)) :
    lineEnd (toArg [] t).str = pos + (firstLine newline s).length := by
  obtain ⟨pre, hpre, hstart, hn⟩ := lex_head s pos t more h
  have hrest : nul ∉ t.rest := fun hm => hs (by rw [hpre]; exact List.mem_append_right _ hm)
  have hline : ∀ r : Bytes, nul ∉ r →
      (r ++ [nul]).takeWhile (fun c => c != newline && c != nul) = firstLine newline r := by
    intro r hr
    induction r with
    | nil => rfl
    | cons c r ih =>
      simp only [List.mem_cons, not_or] at hr
      have hc : (c != nul) = true := by simpa using Ne.symm hr.1
      simp only [firstLine] at ih
      simp only [List.cons_append, List.takeWhile_cons, hc, Bool.and_true, firstLine, ih hr.2]
  have hfirst : firstLine newline s = pre ++ firstLine newline t.rest := by
    rw [hpre, firstLine, List.takeWhile_append_of_pos]
    · rfl
    · intro c hc
      have : c ≠ newline := fun he => hn (he ▸ hc)
      simpa using this
  rw [lineEnd, toArg, hline t.rest hrest, hfirst, hstart, List.length_append]
  exact Nat.add_assoc _ _ _

/-- The arguments of one line and the line they were read from. -/
structure ReadFrom (p : Nat × Bytes) (toks : List Tok) : Prop where
  noNul : nul ∉ p.2
  lexed : lex .gap p.1 p.2 = some toks

theorem within_iff_closed {p : Nat × Bytes} {toks : List Tok} (h : ReadFrom p toks) :
    WithinLine (toks.map (toArg [])) ↔ leavesQuoteOpen (firstLine newline p.2) = false := by
  cases toks with
  | nil =>
    refine ⟨fun _ => ?_, fun _ => by intro a₀ ha₀; cases ha₀⟩
    cases ho : leavesQuoteOpen (firstLine newline p.2) with
    | false => rfl
    | true =>
      obtain ⟨t, ht, _⟩ := lex_open_line ho h.lexed
      cases ht
  | cons t₀ more =>
    have hend := lineEnd_head h.noNul h.lexed
    constructor
    · intro hw
      cases ho : leavesQuoteOpen (firstLine newline p.2) with
      | false => rfl
      | true =>
        obtain ⟨t, ht, hlt⟩ := lex_open_line ho h.lexed
        have := hw (toArg [] t₀) (by simp) (toArg [] t) (List.mem_map_of_mem ht)
        rw [hend] at this
        simp only [toArg] at this; omega
    · intro hc a₀ ha₀ a ha
      obtain ⟨t, ht, rfl⟩ := List.mem_map.mp ha
      simp only [List.map_cons, List.head?_cons, Option.mem_def, Option.some.injEq] at ha₀
      subst ha₀
      rw [hend]
      exact lex_closed_upper hc h.lexed t ht

theorem readFrom_of_mapM {c : CString} {tss : List (List Tok)}
    (h : configToks 0 c.bytes = some tss) : ∀ toks ∈ tss,
    ∃ p ∈ lineStarts newline true 0 c.bytes, ReadFrom p toks := by
  intro toks ht
  obtain ⟨p, hp, hl⟩ := mem_of_mapM h ht
  have hp := (List.mem_filter.mp hp).1
  obtain ⟨pre, hs, _, _⟩ := lineStarts_suffix newline c.bytes true 0 p hp
  exact ⟨p, hp, fun hm => c.noNul (by rw [hs]; exact List.mem_append_right _ hm), hl⟩

/-- Line by line, the arguments stay apart. -/
theorem apart_of_closed {c : CString} {tss : List (List Tok)} (hc : QuotesClosed c.bytes)
    (h : configToks 0 c.bytes = some tss) :
    tss.Pairwise fun ts us => Apart (ts.map (toArg [])) (us.map (toArg [])) := by
  refine pairwise_of_mapM h ((lineStarts_pairwise newline c.bytes true 0).filter _) ?_
  intro p hp q _ hpq ts us hts hus a ha b hb k hk
  obtain ⟨t, ht, rfl⟩ := List.mem_map.mp ha
  obtain ⟨u, hu, rfl⟩ := List.mem_map.mp hb
  have hupper := lex_closed_upper (hc p (List.mem_filter.mp hp).1) hts t ht
  have hlower := (lex_gap_within hus u hu).lower
  simp only [toArg] at hk
  omega

/-! ## Two texts -/

theorem words_extend {pos : Nat} {s : Bytes} {tss : List (List Tok)} (u : Bytes)
    (h : configToks pos s = some tss) :
    (tss.map (List.map (Tok.extend u))).map (List.map Tok.word) = tss.map (List.map Tok.word) := by
  rw [List.map_map]
  refine List.map_congr_left fun ts hts => ?_
  obtain ⟨p, _, hl⟩ := mem_of_mapM h hts
  simp only [Function.comp_apply, List.map_map]
  exact List.map_congr_left fun t ht => Tok.word_extend (lex_gap_within hl t ht).len u

/-- The words of a joined text, when the first text is accepted. -/
theorem configToks_join_words {c₁ : CString} (c₂ : CString) {tss : List (List Tok)}
    (h : configToks 0 c₁.bytes = some tss) :
    (configToks 0 (c₁.joinLine c₂).bytes).map (List.map (List.map Tok.word)) =
      ((configToks 0 c₂.bytes).map (List.map (List.map Tok.word))).map
        fun more => tss.map (List.map Tok.word) ++ more := by
  have hj := configToks_join c₂.bytes h
  rw [show 0 + c₁.bytes.length + 1 = 0 + (c₁.bytes.length + 1) by omega, configToks_shift] at hj
  rw [CString.joinLine, hj]
  simp only [Option.map_map, Function.comp_def, List.map_append, words_extend _ h, List.map_map,
    Tok.word_shift]

theorem directive_words {c : CString} {ds : List Directive} {tss : List (List Tok)}
    (hd : configOf c = some ds) (ht : configToks 0 c.bytes = some tss) :
    ds.map Directive.words = tss.map (List.map Tok.word) ∧
      ds.map (·.args.elems) = tss.map (List.map (toArg [])) := by
  have h := configOf_eq c
  rw [hd, ht] at h
  have h : ds.map (·.args.elems) = tss.map (List.map (toArg [])) := Option.some.inj h
  refine ⟨?_, h⟩
  have hw := congrArg (List.map (List.map DirectiveArg.word)) h
  simp only [List.map_map, Function.comp_def] at hw
  have hword : ∀ ts ∈ tss, ts.map (fun t => (toArg [] t).word) = ts.map Tok.word := by
    intro ts hts
    obtain ⟨p, _, hl⟩ := mem_of_mapM ht hts
    refine List.map_congr_left fun t ht => ?_
    exact List.take_append_of_le_length (lex_gap_within hl t ht).len
  exact hw.trans (List.map_congr_left hword)

theorem unclosed_of_first {c₁ : CString} (c₂ : CString) (h : QuotesClosed (c₁.joinLine c₂).bytes) :
    QuotesClosed c₁.bytes := by
  intro p hp
  obtain ⟨gap, _, he⟩ := lineStarts_join newline c₁.bytes c₂.bytes true 0
  have hm : (p.1, p.2 ++ newline :: c₂.bytes) ∈
      lineStarts newline true 0 (c₁.joinLine c₂).bytes := by
    rw [CString.joinLine, he]
    exact List.mem_append_left _ (List.mem_map_of_mem
      (f := fun p : Nat × Bytes => (p.1, p.2 ++ newline :: c₂.bytes)) hp)
  have := h _ hm
  rwa [firstLine_append] at this

theorem isSome_configOf_iff (c : CString) : (configOf c).isSome ↔ ¬ QuoteUnclosed c.bytes := by
  rw [configOf_isSome, ← configToks_eq_none_iff, Option.isSome_iff_ne_none]

/-- Behind an accepted text, the second text decides. -/
theorem accepted_join {c₁ : CString} (c₂ : CString) (h : (configOf c₁).isSome) :
    (configOf (c₁.joinLine c₂)).isSome = (configOf c₂).isSome := by
  rw [configOf_isSome] at h
  obtain ⟨tss, ht⟩ := Option.isSome_iff_exists.mp h
  have := congrArg Option.isSome (configToks_join_words c₂ ht)
  rw [configOf_isSome, configOf_isSome]
  simpa using this

/-- A line of an accepted text has its directive, unless it is blank. -/
theorem directive_of_start {c : CString} {ds : List Directive} (hd : configOf c = some ds)
    {p : Nat × Bytes} (hp : p ∈ bodyStarts 0 c.bytes) :
    ∃ d ∈ ds, ∃ toks, d.args.elems = toks.map (toArg []) ∧ ReadFrom p toks := by
  have hs : (configToks 0 c.bytes).isSome := by rw [← configOf_isSome, hd]; rfl
  obtain ⟨tss, ht⟩ := Option.isSome_iff_exists.mp hs
  obtain ⟨toks, hm, hl⟩ := mapM_mem ht hp
  obtain ⟨pre, hpre, _, _⟩ :=
    lineStarts_suffix newline c.bytes true 0 p (List.mem_filter.mp hp).1
  have hargs : toks.map (toArg []) ∈ ds.map (·.args.elems) := by
    rw [(directive_words hd ht).2]; exact List.mem_map_of_mem hm
  obtain ⟨d, hdm, he⟩ := List.mem_map.mp hargs
  exact ⟨d, hdm, toks, he,
    ⟨fun hn => c.noNul (by rw [hpre]; exact List.mem_append_right _ hn), hl⟩⟩

theorem quotesClosed_of_within {c : CString} {ds : List Directive} (hd : configOf c = some ds)
    (hw : ∀ d ∈ ds, WithinLine d.args.elems) : QuotesClosed c.bytes := by
  intro p hp
  cases ho : leavesQuoteOpen (firstLine newline p.2) with
  | false => rfl
  | true =>
    obtain ⟨d, hdm, toks, he, hread⟩ := directive_of_start hd (mem_bodyStarts_of_open hp ho)
    have := (within_iff_closed hread).mp (he ▸ hw d hdm)
    rw [ho] at this; cases this

theorem lineLocal_of_closed {c₁ c₂ : CString} (h : QuotesClosed (c₁.joinLine c₂).bytes) :
    LineLocal c₁ c₂ := by
  have hs := (isSome_configOf_iff _).mpr h.not_unclosed
  have h₁ := (isSome_configOf_iff _).mpr (unclosed_of_first c₂ h).not_unclosed
  have h₂ := (accepted_join c₂ h₁).symm.trans hs
  obtain ⟨tss, ht⟩ := Option.isSome_iff_exists.mp (configOf_isSome _ ▸ hs)
  refine ⟨⟨fun _ => ⟨h₁, h₂⟩, fun _ => hs⟩, ?_, ?_, ?_⟩
  · intro ds ds₁ ds₂ hd hd₁ hd₂
    obtain ⟨ts₁, ht₁⟩ := Option.isSome_iff_exists.mp (configOf_isSome _ ▸ h₁)
    obtain ⟨ts₂, ht₂⟩ := Option.isSome_iff_exists.mp (configOf_isSome _ ▸ h₂)
    have hj := configToks_join_words c₂ ht₁
    rw [ht, ht₂] at hj
    rw [(directive_words hd ht).1, (directive_words hd₁ ht₁).1, (directive_words hd₂ ht₂).1]
    exact Option.some.inj hj
  · intro ds hd d hdm
    have hargs : d.args.elems ∈ tss.map (List.map (toArg [])) := by
      rw [← (directive_words hd ht).2]; exact List.mem_map_of_mem (f := (·.args.elems)) hdm
    obtain ⟨toks, hm, he⟩ := List.mem_map.mp hargs
    obtain ⟨p, hp, hread⟩ := readFrom_of_mapM ht toks hm
    exact he ▸ (within_iff_closed hread).mpr (h p hp)
  · intro ds hd
    have hpair := apart_of_closed h ht
    have hargs := (directive_words hd ht).2
    rw [← List.pairwise_map (f := List.map (toArg [])) (R := Apart), ← hargs,
      List.pairwise_map] at hpair
    exact hpair

/-- **When the language is line local.** It is, for two texts, exactly when
every line of the joined text closes the quotes it opens, or when the joined
text is refused because some line opens a quote that nothing closes. -/
theorem lineLocal_iff (c₁ c₂ : CString) : LineLocal c₁ c₂ ↔
    QuotesClosed (c₁.joinLine c₂).bytes ∨ QuoteUnclosed (c₁.joinLine c₂).bytes := by
  constructor
  · intro hl
    by_cases hu : QuoteUnclosed (c₁.joinLine c₂).bytes
    · exact .inr hu
    · obtain ⟨ds, hd⟩ := Option.isSome_iff_exists.mp ((isSome_configOf_iff _).mpr hu)
      exact .inl (quotesClosed_of_within hd (hl.within ds hd))
  · rintro (hc | hu)
    · exact lineLocal_of_closed hc
    · -- the joined text is refused, so one of the two texts is
      have hnone : configOf (c₁.joinLine c₂) = none := by
        rw [← Option.not_isSome_iff_eq_none, isSome_configOf_iff, not_not]; exact hu
      have hn : ∀ ds, configOf (c₁.joinLine c₂) ≠ some ds := by
        intro ds; rw [hnone]; simp
      refine ⟨⟨fun hs => ?_, fun ⟨h₁, h₂⟩ => ?_⟩, fun ds _ _ hd => absurd hd (hn ds),
        fun ds hd => absurd hd (hn ds), fun ds hd => absurd hd (hn ds)⟩
      · rw [hnone] at hs; cases hs
      · rw [accepted_join c₂ h₁]; exact h₂

/-- A quote that is opened on one line and closed on the next. -/
def splitQuote : CString × CString := (⟨[34, 97], by decide⟩, ⟨[98, 34], by decide⟩)

/-- `"a`, a line end and `b"` is accepted, but `"a` is not. -/
theorem splitQuote_not_local : ¬ LineLocal splitQuote.1 splitQuote.2 := by
  intro h
  have hs : (configOf (splitQuote.1.joinLine splitQuote.2)).isSome := by decide
  exact absurd (h.accepted.mp hs).1 (by decide)

end SalernOS.Init.LineLocality
