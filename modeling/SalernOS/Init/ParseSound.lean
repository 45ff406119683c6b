import SalernOS.Init.Grammar
import SalernOS.Init.Rounds

/-! # `parse.c` reads the configuration language

On a block that holds a text, its terminator and anything behind it, the
scanners of `parse.c` never leave the text, every loop ends, and when no
allocation fails the result is the one the grammar gives. What lies behind
the terminator is visible in the pointers only.
-/
namespace SalernOS.Init.ParseSound
open SalernOS.Lib SalernOS.Libc SalernOS.Init.Grammar SalernOS.Init.Parse SalernOS.Init.Rounds

variable (ok : Nat → Bool) (junk : Bytes)

/-- An argument of the grammar as a pointer into the block. -/
def toArg (t : Tok) : DirectiveArg := ⟨⟨t.start, t.rest ++ nul :: junk⟩, t.len⟩

theorem ne_nul_of_mem {s : Bytes} (h : nul ∉ s) {c : UInt8} (hc : c ∈ s) : c ≠ nul := by
  intro he; subst he; exact h hc

theorem bne_nul_of_mem {s : Bytes} (h : nul ∉ s) {c : UInt8} (hc : c ∈ s) : (c != nul) = true :=
  bne_iff_ne.mpr (ne_nul_of_mem h hc)

theorem nul_notMem_dropWhile {s : Bytes} (h : nul ∉ s) (f : UInt8 → Bool) :
    nul ∉ s.dropWhile f := fun hm => h ((List.dropWhile_sublist f).subset hm)

/-! ## Tokens -/

theorem skipWhitespace_closed {s : Bytes} (pos : Nat) (h : nul ∉ s) :
    skipWhitespace ⟨pos, s ++ nul :: junk⟩ =
      .ok ⟨pos + (s.takeWhile isBlank).length, s.dropWhile isBlank ++ nul :: junk⟩ := by
  apply Cursor.scanWhile_closed (by rfl)
  intro c hc
  simp only [isBlank, bne_nul_of_mem h hc, Bool.true_and]

theorem parseToken_quote {t : Bytes} (pos : Nat) (h : nul ∉ t) :
    parseToken ⟨pos, quote :: (t ++ nul :: junk)⟩ = .ok (
      match t.dropWhile (· != quote) with
      | [] => none
      | _ :: u => some (⟨pos + 1, t ++ nul :: junk⟩, (t.takeWhile (· != quote)).length,
          ⟨pos + 1 + (t.takeWhile (· != quote)).length + 1, u ++ nul :: junk⟩)) := by
  have hscan := Cursor.scanWhile_closed (f := fun c => c != nul && c != quote)
    (g := (· != quote)) (z := nul) (by rfl) junk t (pos + 1)
    (fun c hc => by simp only [bne_nul_of_mem h hc, Bool.true_and])
  simp only [parseToken, Cursor.deref_cons, Cursor.next_cons, hscan, bind, Except.bind, if_true]
  cases hu : t.dropWhile (· != quote) with
  | nil => simp only [List.nil_append, Cursor.deref_cons]; rfl
  | cons d u =>
    have hd : d = quote := by
      have := List.head?_dropWhile_not (· != quote) t
      rw [hu] at this
      simpa using this
    subst hd
    simp only [List.cons_append, Cursor.deref_cons, Cursor.next_cons, ne_eq, not_true_eq_false,
      if_false, Nat.add_sub_cancel_left]
    rfl

theorem parseToken_bare {s : Bytes} (pos : Nat) (h : nul ∉ s) (hq : s.head? ≠ some quote)
    (hne : s ≠ []) :
    parseToken ⟨pos, s ++ nul :: junk⟩ = .ok (some (⟨pos, s ++ nul :: junk⟩,
      (s.takeWhile (!isspace ·)).length,
      ⟨pos + (s.takeWhile (!isspace ·)).length, s.dropWhile (!isspace ·) ++ nul :: junk⟩)) := by
  have hscan := Cursor.scanWhile_closed
    (f := fun c => c != nul && !isspace c && c != newline) (g := (!isspace ·)) (z := nul)
    (by rfl) junk s pos (fun c hc => by
      by_cases hn : c = newline
      · subst hn; rfl
      · simp [bne_nul_of_mem h hc, hn])
  obtain ⟨c, s, rfl⟩ := List.exists_cons_of_ne_nil hne
  have hc : c ≠ quote := by simpa using hq
  simp only [List.cons_append] at hscan ⊢
  simp only [parseToken, Cursor.deref_cons, bind, Except.bind, hc, if_false, hscan,
    Nat.add_sub_cancel_left]
  rfl

/-- A token of `parse_line` is the next argument of the grammar, and brings the
scan forward. -/
theorem parseToken_spec {d : UInt8} {u : Bytes} (pos : Nat) (hs : nul ∉ d :: u)
    (hn : d ≠ newline) (hb : isBlank d = false) :
    (parseToken ⟨pos, d :: u ++ nul :: junk⟩ = .ok none ∧ lex .gap pos (d :: u) = none) ∨
    ∃ t pos' v, parseToken ⟨pos, d :: u ++ nul :: junk⟩ =
        .ok (some ((toArg junk t).str, t.len, ⟨pos', v ++ nul :: junk⟩)) ∧
      lex .gap pos (d :: u) = (lex .gap pos' v).map (t :: ·) ∧
      nul ∉ v ∧ v.length < (d :: u).length := by
  by_cases hq : d = quote
  · subst hq
    have hu : nul ∉ u := fun hm => hs (List.mem_cons_of_mem _ hm)
    have hlex : lex .gap pos (quote :: u) = lex (.quoted (pos + 1) u) (pos + 1) u := by
      simp [lex]
    have hlen := List.length_dropWhile_le (· != quote) u
    have hnv := nul_notMem_dropWhile hu (· != quote)
    rw [hlex, lex_quoted, List.cons_append, parseToken_quote junk pos hu]
    cases hv : u.dropWhile (· != quote) with
    | nil => exact .inl ⟨rfl, rfl⟩
    | cons e v =>
      rw [hv] at hlen hnv
      refine .inr ⟨⟨pos + 1, u, (u.takeWhile (· != quote)).length⟩, _, v, rfl, ?_, ?_, ?_⟩
      · simp only [Nat.add_sub_cancel_left]
      · exact fun hm => hnv (List.mem_cons_of_mem _ hm)
      · simp only [List.length_cons] at hlen ⊢; omega
  · -- a byte that is neither blank nor a line end is no white space
    have hsp : isspace d = false := by
      simpa [isBlank, hn] using hb
    have hlex : lex .gap pos (d :: u) = lex (.bare pos (d :: u)) pos (d :: u) := by
      simp [lex, hn, hq, hsp]
    refine .inr ⟨⟨pos, d :: u, ((d :: u).takeWhile (!isspace ·)).length⟩, _, _,
      parseToken_bare junk pos hs (by simpa using hq) (by simp), ?_,
      nul_notMem_dropWhile hs _, ?_⟩
    · rw [hlex, lex_bare]; simp only [Nat.add_sub_cancel_left]
    · have := List.length_dropWhile_le (!isspace ·) u
      simp only [List.dropWhile_cons, hsp, Bool.not_false, if_true, List.length_cons]
      omega

/-! ## A line -/

/-- The result is as `P` says, or it is missing because an allocation failed. -/
def OrNoMemory {α : Type} (r : Option α) (P : Prop) : Prop := P ∨ r = none ∧ ∃ k, ok k = false

theorem OrNoMemory.imp {α β : Type} {r : Option α} {q : Option β} {P Q : Prop}
    (h : OrNoMemory ok r P) (hr : r = none → q = none) (hPQ : P → Q) : OrNoMemory ok q Q :=
  Or.imp hPQ (fun hnone => ⟨hr hnone.1, hnone.2⟩) h

/-- What the loop of `parse_line` returns when no allocation fails. -/
def LineResult (args : Growable DirectiveArg) (lexed : Option (List Tok))
    (r : Option (Growable DirectiveArg)) : Prop :=
  r.map (·.elems) = lexed.map fun toks => args.elems ++ toks.map (toArg junk)

theorem LineResult.stop {args : Growable DirectiveArg} {lexed : Option (List Tok)}
    (h : lexed = some []) : LineResult junk args lexed (some args) := by
  subst h; simp [LineResult]

theorem LineResult.push {args : Growable DirectiveArg} {block : Option Block} {t : Tok}
    {lexed : Option (List Tok)} {r : Option (Growable DirectiveArg)}
    (h : LineResult junk ⟨block, args.elems ++ [toArg junk t]⟩ lexed r) :
    LineResult junk args (lexed.map (t :: ·)) r := by
  simpa [LineResult, Function.comp_def] using h

/-- What stands behind the blanks of a line is a token, the end of the line or
the end of the text. -/
theorem lex_at_token (pos : Nat) (s : Bytes) : lex .gap pos s =
    lex .gap (pos + (s.takeWhile isBlank).length) (s.dropWhile isBlank) := by
  have h := lex_skip_blanks (s.takeWhile isBlank) (s.dropWhile isBlank)
    (fun c hc => List.mem_takeWhile_imp hc) pos
  rwa [List.takeWhile_append_dropWhile] at h

theorem not_isBlank_of_dropWhile {s u : Bytes} {d : UInt8} (h : s.dropWhile isBlank = d :: u) :
    isBlank d = false := by
  have := List.head?_dropWhile_not isBlank s
  rw [h] at this
  simpa using this

/-- A round of `parse_line` ends the line, fails or brings the scan forward by the
next argument of the grammar. -/
theorem lineRound_spec {s : Bytes} (pos : Nat) (hs : nul ∉ s) :
    (lineRound ⟨pos, s ++ nul :: junk⟩ = .ok .stop ∧ lex .gap pos s = some []) ∨
    (lineRound ⟨pos, s ++ nul :: junk⟩ = .ok .unclosed ∧ lex .gap pos s = none) ∨
    ∃ t pos' v, lineRound ⟨pos, s ++ nul :: junk⟩ =
        .ok (.token (toArg junk t).str t.len ⟨pos', v ++ nul :: junk⟩) ∧
      lex .gap pos s = (lex .gap pos' v).map (t :: ·) ∧ nul ∉ v ∧ v.length < s.length := by
  cases s with
  | nil => exact .inl ⟨rfl, rfl⟩
  | cons c s =>
    have hc : c ≠ nul := ne_nul_of_mem hs (by simp)
    by_cases hn : c = newline
    · subst hn
      exact .inl ⟨rfl, by simp [lex]⟩
    have hskip := skipWhitespace_closed junk pos hs
    rw [lex_at_token pos (c :: s)]
    have hlen := List.length_dropWhile_le isBlank (c :: s)
    have hsu := nul_notMem_dropWhile hs isBlank
    have hblank := fun d u => not_isBlank_of_dropWhile (s := c :: s) (d := d) (u := u)
    generalize pos + ((c :: s).takeWhile isBlank).length = pos' at hskip ⊢
    generalize (c :: s).dropWhile isBlank = u at hskip hlen hsu hblank ⊢
    simp only [lineRound, List.cons_append, Cursor.deref_cons, bind, Except.bind] at hskip ⊢
    simp only [hc, hn, or_self, if_false, hskip]
    cases u with
    | nil => exact .inl ⟨rfl, rfl⟩
    | cons d u =>
      have hd : d ≠ nul := ne_nul_of_mem hsu (by simp)
      by_cases hdn : d = newline
      · subst hdn
        exact .inl ⟨rfl, by simp [lex]⟩
      simp only [List.cons_append, Cursor.deref_cons, hd, hdn, or_self, if_false]
      rcases parseToken_spec junk pos' hsu hdn (hblank d u rfl) with
        ⟨htok, hlex⟩ | ⟨t, pos'', v, htok, hlex, hv, hlt⟩
      · rw [List.cons_append] at htok
        rw [htok, hlex]
        exact .inr (.inl ⟨rfl, rfl⟩)
      · rw [List.cons_append] at htok
        rw [htok, hlex]
        exact .inr (.inr ⟨t, pos'', v, rfl, rfl, hv, Nat.lt_of_lt_of_le hlt hlen⟩)

/-- The loop of `parse_line` on a text of fewer bytes than it has rounds. -/
theorem parseLineLoop_spec : ∀ (fuel : Nat) (s : Bytes) (pos : Nat)
    (args : Growable DirectiveArg) (h : Heap), nul ∉ s → s.length < fuel →
    ∃ r h', parseLineLoop ok fuel ⟨pos, s ++ nul :: junk⟩ args h = .ok (r, h') ∧
      OrNoMemory ok r (LineResult junk args (lex .gap pos s) r)
  | 0, _, _, _, _, _, hf => by omega
  | fuel + 1, s, pos, args, h, hs, hf => by
    rw [parseLineLoop_succ]
    rcases lineRound_spec junk pos hs with
      ⟨hround, hlex⟩ | ⟨hround, hlex⟩ | ⟨t, pos', v, hround, hlex, hv, hlt⟩
    · rw [hround]
      exact ⟨_, _, rfl, .inl (.stop junk hlex)⟩
    · rw [hround, hlex]
      exact ⟨_, _, rfl, .inl rfl⟩
    · rw [hround, hlex]
      simp only [Except.bind, afterLineRound, Heap.realloc]
      by_cases hok : ok h.calls = true
      · simp only [hok, if_true]
        obtain ⟨r, h', hr, hspec⟩ := parseLineLoop_spec fuel v pos'
          ⟨some h.calls, args.elems ++ [toArg junk t]⟩ _ hv (by omega)
        exact ⟨r, h', hr, hspec.imp ok id (·.push)⟩
      · simp only [hok]
        exact ⟨_, _, rfl, .inr ⟨rfl, _, (Bool.not_eq_true _).mp hok⟩⟩

theorem parseLine_spec (s : Bytes) (pos : Nat) (h : Heap) (hs : nul ∉ s) :
    ∃ r h', parseLine ok ⟨pos, s ++ nul :: junk⟩ h = .ok (r, h') ∧
      OrNoMemory ok r (r.map (·.args.elems) = (lex .gap pos s).map (List.map (toArg junk))) := by
  obtain ⟨r, h', hr, hspec⟩ := parseLineLoop_spec ok junk ((s ++ nul :: junk).length + 1) s pos
    ⟨none, []⟩ h hs (by simp only [List.length_append, List.length_cons]; omega)
  refine ⟨r.map Directive.mk, h', ?_, hspec.imp ok (congrArg (Option.map Directive.mk)) ?_⟩
  · simp only [parseLine, hr]; rfl
  · intro hline
    simpa [LineResult, Function.comp_def] using hline

/-! ## A text -/

/-- What the loop of `parse_config` returns when no allocation fails. -/
def ConfigResult (ds : Growable Directive) (lexed : Option (List (List Tok)))
    (r : Option (Growable Directive)) : Prop :=
  r.map (fun g => g.elems.map (·.args.elems)) = lexed.map fun tss =>
    ds.elems.map (·.args.elems) ++ tss.map (List.map (toArg junk))

theorem ConfigResult.push {ds : Growable Directive} {block : Option Block} {d : Directive}
    {toks : List Tok} {lexed : Option (List (List Tok))} {r : Option (Growable Directive)}
    (hd : d.args.elems = toks.map (toArg junk))
    (h : ConfigResult junk ⟨block, ds.elems ++ [d]⟩ lexed r) :
    ConfigResult junk ds (lexed.map (toks :: ·)) r := by
  simpa [ConfigResult, Function.comp_def, hd] using h

/-- The part of a line behind its leading white space. -/
theorem lex_at_lineStart (pos : Nat) (s : Bytes) : lex .gap pos s =
    lex .gap (pos + ((firstLine newline s).takeWhile isspace).length)
      ((firstLine newline s).dropWhile isspace ++ s.dropWhile (· != newline)) := by
  have h := lex_skip_blanks ((firstLine newline s).takeWhile isspace)
    ((firstLine newline s).dropWhile isspace ++ s.dropWhile (· != newline)) (by
      intro c hc
      have hm : c ∈ s.takeWhile (· != newline) := (List.takeWhile_sublist isspace).subset hc
      have hn := List.mem_takeWhile_imp hm
      rw [isBlank, List.mem_takeWhile_imp hc]; exact hn) pos
  rwa [← List.append_assoc, List.takeWhile_append_dropWhile, firstLine,
    List.takeWhile_append_dropWhile] at h

theorem length_afterLine_lt {s : Bytes} (hne : s ≠ []) :
    (afterLine newline s).length < s.length := by
  have h := List.length_dropWhile_le (· != newline) s
  have : 0 < s.length := List.length_pos_iff.mpr hne
  simp only [afterLine, List.length_tail]; omega

/-- `line_start < line_end` after the leading white space. -/
theorem lineStart_lt_iff (pos : Nat) (s : Bytes) :
    pos + ((firstLine newline s).takeWhile isspace).length <
      pos + (firstLine newline s).length ↔ blankLine s = false := by
  have hsub := (List.takeWhile_prefix (l := firstLine newline s) isspace).sublist
  constructor
  · intro h
    cases hb : blankLine s with
    | false => rfl
    | true =>
      rw [blankLine, List.all_eq_true] at hb
      rw [List.takeWhile_eq_self_iff.mpr hb] at h
      omega
  · intro hb
    have hne : (firstLine newline s).takeWhile isspace ≠ firstLine newline s := by
      intro he
      rw [List.takeWhile_eq_self_iff, ← List.all_eq_true] at he
      rw [blankLine, he] at hb; cases hb
    have hl : _ ≠ _ := fun he => hne (hsub.eq_of_length he)
    have := hsub.length_le
    omega

/-- `parse_line` on a line behind its leading white space. -/
theorem parseLine_at_lineStart (s : Bytes) (pos : Nat) (h : Heap) (hs : nul ∉ s) :
    ∃ r h', parseLine ok ⟨pos + ((firstLine newline s).takeWhile isspace).length,
        (firstLine newline s).dropWhile isspace ++
          (s.dropWhile (· != newline) ++ nul :: junk)⟩ h = .ok (r, h') ∧
      OrNoMemory ok r (r.map (·.args.elems) = (lex .gap pos s).map (List.map (toArg junk))) := by
  have hline : nul ∉ (firstLine newline s).dropWhile isspace ++ s.dropWhile (· != newline) := by
    intro hm
    rcases List.mem_append.mp hm with hm | hm
    · exact hs ((List.takeWhile_sublist _).subset ((List.dropWhile_sublist _).subset hm))
    · exact nul_notMem_dropWhile hs _ hm
  rw [lex_at_lineStart, ← List.append_assoc]
  exact parseLine_spec ok junk _ _ h hline

/-- The pointer with which `parse_config` goes on. The lines behind it are read
from there, also when there are none and it stands at the terminator. -/
theorem next_line (pos : Nat) {s : Bytes} (hs : nul ∉ s) : ∃ c pos',
    Cursor.deref ⟨pos, s.dropWhile (· != newline) ++ nul :: junk⟩ = .ok c ∧
    (if c = newline then Cursor.next ⟨pos, s.dropWhile (· != newline) ++ nul :: junk⟩
      else ⟨pos, s.dropWhile (· != newline) ++ nul :: junk⟩) =
        ⟨pos', afterLine newline s ++ nul :: junk⟩ ∧
    configToks (pos + 1) (afterLine newline s) = configToks pos' (afterLine newline s) := by
  have hv := nul_notMem_dropWhile hs (· != newline)
  cases hu : s.dropWhile (· != newline) with
  | nil => exact ⟨nul, pos, rfl, by simp [afterLine, hu, Ne.symm newline_ne_nul],
      by simp [afterLine, hu]⟩
  | cons c v =>
    have hc : c = newline := by
      have := List.head?_dropWhile_not (· != newline) s
      rw [hu] at this
      simpa using this
    subst hc
    exact ⟨newline, pos + 1, rfl, by simp [afterLine, hu], rfl⟩

/-- A round of `parse_config` steps over a line. Unless it is blank, the round
hands on what stands behind its leading white space. -/
theorem configRound_spec {s : Bytes} (pos : Nat) (hs : nul ∉ s) (hne : s ≠ []) : ∃ pos',
    configRound ⟨pos, s ++ nul :: junk⟩ = .ok (
      if blankLine s then .blank ⟨pos', afterLine newline s ++ nul :: junk⟩
      else .line ⟨pos + ((firstLine newline s).takeWhile isspace).length,
        (firstLine newline s).dropWhile isspace ++ (s.dropWhile (· != newline) ++ nul :: junk)⟩
        ⟨pos', afterLine newline s ++ nul :: junk⟩) ∧
    configToks (pos + (firstLine newline s).length + 1) (afterLine newline s) =
      configToks pos' (afterLine newline s) := by
  have hscan := Cursor.scanWhile_closed (f := fun c => c != nul && c != newline)
    (g := (· != newline)) (z := nul) (by rfl) junk s pos
    (fun d hd => by simp only [bne_nul_of_mem hs hd, Bool.true_and])
  have hbelow := Cursor.scanWhileBelow_append (f := isspace) (firstLine newline s)
    (s.dropWhile (· != newline) ++ nul :: junk) pos
  have hsplit : firstLine newline s ++ (s.dropWhile (· != newline) ++ nul :: junk) =
      s ++ nul :: junk := by
    rw [← List.append_assoc, firstLine, List.takeWhile_append_dropWhile]
  obtain ⟨e, pos', he, hnext, hmore⟩ := next_line junk (pos + (firstLine newline s).length) hs
  rw [hsplit] at hbelow
  change Cursor.scanWhile _ _ = .ok ⟨pos + (firstLine newline s).length, _⟩ at hscan
  refine ⟨pos', ?_, hmore⟩
  have hfirst : ∃ c, Cursor.deref ⟨pos, s ++ nul :: junk⟩ = .ok c ∧ c ≠ nul := by
    obtain ⟨c, s, rfl⟩ := List.exists_cons_of_ne_nil hne
    exact ⟨c, rfl, ne_nul_of_mem hs (by simp)⟩
  obtain ⟨c, hc, hcn⟩ := hfirst
  simp only [configRound, hc, hcn, bind, Except.bind, if_false, hscan, hbelow, he, hnext,
    lineStart_lt_iff]
  cases blankLine s <;> rfl

/-- The loop of `parse_config` on a text of fewer bytes than it has rounds. -/
theorem parseConfigLoop_spec : ∀ (fuel : Nat) (s : Bytes) (pos : Nat)
    (ds : Growable Directive) (h : Heap), nul ∉ s → s.length < fuel →
    ∃ r h', parseConfigLoop ok fuel ⟨pos, s ++ nul :: junk⟩ ds h = .ok (r, h') ∧
      OrNoMemory ok r (ConfigResult junk ds (configToks pos s) r)
  | 0, _, _, _, _, _, hf => by omega
  | fuel + 1, [], pos, ds, h, _, _ => ⟨_, _, rfl, .inl (by simp [ConfigResult])⟩
  | fuel + 1, c :: s, pos, ds, h, hs, hf => by
    obtain ⟨pos', hround, hmore⟩ := configRound_spec junk pos hs (List.cons_ne_nil c s)
    have hafter : nul ∉ afterLine newline (c :: s) := fun hm =>
      nul_notMem_dropWhile hs (· != newline) (List.mem_of_mem_tail hm)
    have hlt := length_afterLine_lt (List.cons_ne_nil c s)
    rw [parseConfigLoop_succ, hround, configToks_unfold pos (c :: s) (by simp), hmore]
    cases hb : blankLine (c :: s) with
    | true => exact parseConfigLoop_spec fuel _ pos' ds h hafter (by omega)
    | false =>
      simp only [Bool.false_eq_true, if_false, Except.bind, afterConfigRound, Heap.realloc]
      by_cases hok : ok h.calls = true
      · simp only [hok, if_true]
        obtain ⟨r, h', hr, hspec⟩ := parseLine_at_lineStart ok junk (c :: s) pos
          ⟨h.calls + 1, h.trace ++ [.realloc ds.block ((ds.elems.length + 1) * sizeofDirective)
            (some h.calls)]⟩ hs
        rw [hr]
        cases r with
        | none =>
          refine ⟨_, _, rfl, hspec.imp ok (fun _ => rfl) fun hline => ?_⟩
          have hl : lex .gap pos (c :: s) = none := by simpa using hline.symm
          rw [hl]; rfl
        | some d =>
          obtain ⟨r, h'', hr, hrec⟩ := parseConfigLoop_spec fuel _ pos'
            ⟨some h.calls, ds.elems ++ [d]⟩ h' hafter (by omega)
          refine ⟨r, h'', hr, hrec.imp ok id fun hmore => ?_⟩
          -- the line has been read, so no allocation failed in it
          have hline := hspec.resolve_right fun hnone => Option.some_ne_none d hnone.1
          obtain ⟨toks, hl, hd⟩ := Option.map_eq_some_iff.mp hline.symm
          rw [hl]
          exact hmore.push junk hd.symm
      · simp only [hok]
        exact ⟨_, _, rfl, .inr ⟨rfl, _, (Bool.not_eq_true _).mp hok⟩⟩

/-- What `parse_config` returns, when no allocation fails. -/
def Accepted (out : Growable Directive) (s : Bytes) (code : ParseCode)
    (ds : Growable Directive) : Prop :=
  match configToks 0 s with
  | none => code = .err ∧ ds = out
  | some tss => code = .ok ∧ ds.elems.map (·.args.elems) = tss.map (List.map (toArg junk))

/-- **`parse_config` on a terminated text.** It ends, without leaving the text,
whatever the allocator does. Unless an allocation has failed, it accepts what the
grammar accepts, with the grammar's arguments. -/
theorem parseConfig_result (out : Growable Directive) (s : Bytes) (h : Heap) (hs : nul ∉ s) :
    ∃ code ds h', parseConfig ok out (s ++ nul :: junk) h = .ok ((code, ds), h') ∧
      (Accepted junk out s code ds ∨ (code = .err ∧ ds = out) ∧ ∃ k, ok k = false) := by
  obtain ⟨r, h', hr, hspec⟩ := parseConfigLoop_spec ok junk ((s ++ nul :: junk).length + 1) s 0
    ⟨none, []⟩ h hs (by simp only [List.length_append, List.length_cons]; omega)
  have hspec' : OrNoMemory ok r (r.map (fun g => g.elems.map (·.args.elems)) =
      (configToks 0 s).map (List.map (List.map (toArg junk)))) :=
    hspec.imp ok id fun hconfig => by simpa [ConfigResult] using hconfig
  cases r with
  | none =>
    refine ⟨.err, out, h', by simp only [parseConfig, hr]; rfl, ?_⟩
    refine Or.imp (fun hconfig => ?_) (fun hnone => ⟨⟨rfl, rfl⟩, hnone.2⟩) hspec'
    have hnone : configToks 0 s = none := by simpa using hconfig.symm
    rw [Accepted, hnone]
    exact ⟨rfl, rfl⟩
  | some ds =>
    refine ⟨.ok, ds, h', by simp only [parseConfig, hr]; rfl, .inl ?_⟩
    have hconfig := hspec'.resolve_right fun hnone => Option.some_ne_none ds hnone.1
    obtain ⟨tss, ht, hd⟩ := Option.map_eq_some_iff.mp hconfig.symm
    rw [Accepted, ht]
    exact ⟨rfl, hd.symm⟩

theorem parseConfig_spec (out : Growable Directive) (s : Bytes) (h : Heap) (hs : nul ∉ s) :
    ∃ code ds h', parseConfig ok out (s ++ nul :: junk) h = .ok ((code, ds), h') ∧
      ((∀ k, ok k = true) → Accepted junk out s code ds) := by
  obtain ⟨code, ds, h', hr, hspec⟩ := parseConfig_result ok junk out s h hs
  refine ⟨code, ds, h', hr, fun hall => hspec.resolve_right ?_⟩
  rintro ⟨-, k, hk⟩
  rw [hall k] at hk
  cases hk

/-- What is accepted, whatever the allocator does, is what the grammar accepts. -/
theorem parseConfig_accepted {out : Growable Directive} {s : Bytes} {h h' : Heap}
    {ds : Growable Directive} (hs : nul ∉ s)
    (hr : parseConfig ok out (s ++ nul :: junk) h = .ok ((.ok, ds), h')) :
    ∃ tss, configToks 0 s = some tss ∧
      ds.elems.map (·.args.elems) = tss.map (List.map (toArg junk)) := by
  obtain ⟨code, ds', h'', hr', hspec⟩ := parseConfig_result ok junk out s h hs
  cases hr.symm.trans hr'
  have haccepted : Accepted junk out s .ok ds := hspec.resolve_right fun hnone => nomatch hnone.1.1
  unfold Accepted at haccepted
  cases ht : configToks 0 s with
  | none =>
    rw [ht] at haccepted
    cases haccepted.1
  | some tss =>
    rw [ht] at haccepted
    exact ⟨tss, rfl, haccepted.2⟩

/-! ## When no allocation fails -/

/-- The directives of a text, when no allocation fails; `none` is `PARSE_ERR`. -/
def configOf (c : CString) : Option (List Directive) :=
  match parseConfig (fun _ => true) ⟨none, []⟩ c.block Heap.empty with
  | .ok ((.ok, ds), _) => some ds.elems
  | _ => none

theorem configOf_eq (c : CString) : (configOf c).map (List.map (·.args.elems)) =
    (configToks 0 c.bytes).map (List.map (List.map (toArg []))) := by
  obtain ⟨code, ds, h', hr, hspec⟩ :=
    parseConfig_spec (fun _ => true) [] ⟨none, []⟩ c.bytes Heap.empty c.noNul
  have h := hspec fun _ => rfl
  unfold Accepted at h
  unfold configOf
  rw [CString.block, hr]
  cases ht : configToks 0 c.bytes with
  | none =>
    rw [ht] at h
    rw [h.1]; rfl
  | some tss =>
    rw [ht] at h
    rw [h.1]; exact congrArg some h.2

theorem configOf_isSome (c : CString) : (configOf c).isSome = (configToks 0 c.bytes).isSome := by
  have := congrArg Option.isSome (configOf_eq c)
  simpa using this

end SalernOS.Init.ParseSound
