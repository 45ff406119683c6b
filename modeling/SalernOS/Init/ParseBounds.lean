import SalernOS.Init.Rounds
import SalernOS.Init.Slices

/-! # The parser stays inside its text

A run on a block that ends with the terminator has not looked behind it, or it
would have been a fault. In a larger block it takes the same steps.
-/
namespace SalernOS.Init.ParseBounds
open SalernOS.Lib SalernOS.Libc SalernOS.Init.Parse SalernOS.Init.Rounds SalernOS.Init.Slices

variable {ok : Nat → Bool} (more : Bytes)

def extendArg (a : DirectiveArg) : DirectiveArg := ⟨a.str.extend more, a.len⟩

def extendArgs (args : Growable DirectiveArg) : Growable DirectiveArg :=
  ⟨args.block, args.elems.map (extendArg more)⟩

def extendDirective (d : Directive) : Directive := ⟨extendArgs more d.args⟩

def extendDirectives (ds : Growable Directive) : Growable Directive :=
  ⟨ds.block, ds.elems.map (extendDirective more)⟩

/-! ## Steps in a larger block -/

theorem parseToken_extend {p : Ptr} {r : Option (Ptr × Nat × Ptr)} (h : parseToken p = .ok r) :
    parseToken (p.extend more) =
      .ok (r.map fun t => (t.1.extend more, t.2.1, t.2.2.extend more)) := by
  unfold parseToken at h ⊢
  obtain ⟨c, hc, h⟩ := ok_of_bind h
  obtain ⟨hc', hnext⟩ := Cursor.deref_extend more hc
  rw [hc', hnext]
  simp only [bind, Except.bind]
  split at h
  · next hq =>
    obtain ⟨q, hscan, h⟩ := ok_of_bind h
    obtain ⟨d, hd, h⟩ := ok_of_bind h
    obtain ⟨hd', hnext'⟩ := Cursor.deref_extend more hd
    rw [if_pos hq, Cursor.scanWhile_extend more hscan]
    simp only [hd', hnext']
    split at h
    · next hne =>
      cases h
      rw [if_pos hne]
      rfl
    · next hne =>
      cases h
      rw [if_neg hne]
      rfl
  · next hq =>
    obtain ⟨q, hscan, h⟩ := ok_of_bind h
    cases h
    rw [if_neg hq, Cursor.scanWhile_extend more hscan]
    rfl

def extendLineRound : LineRound → LineRound
  | .stop => .stop
  | .unclosed => .unclosed
  | .token start len next => .token (start.extend more) len (next.extend more)

theorem lineRound_extend {p : Ptr} {round : LineRound} (hr : lineRound p = .ok round) :
    lineRound (p.extend more) = .ok (extendLineRound more round) := by
  unfold lineRound at hr ⊢
  obtain ⟨c, hc, hr⟩ := ok_of_bind hr
  rw [(Cursor.deref_extend more hc).1]
  simp only [bind, Except.bind]
  split at hr
  · next hend =>
    cases hr
    rw [if_pos hend]
    rfl
  next hend =>
  obtain ⟨q, hskip, hr⟩ := ok_of_bind hr
  obtain ⟨d, hd, hr⟩ := ok_of_bind hr
  have hskip' : skipWhitespace (p.extend more) = .ok (q.extend more) :=
    Cursor.scanWhile_extend more hskip
  rw [if_neg hend, hskip']
  simp only [(Cursor.deref_extend more hd).1]
  split at hr
  · next hend' =>
    cases hr
    rw [if_pos hend']
    rfl
  next hend' =>
  obtain ⟨token, htoken, hr⟩ := ok_of_bind hr
  rw [if_neg hend', parseToken_extend more htoken]
  cases hr
  cases token <;> rfl

theorem extendArgs_push (block : Block) (as : List DirectiveArg) (start : Ptr) (len : Nat) :
    extendArgs more ⟨some block, as ++ [⟨start, len⟩]⟩ =
      ⟨some block, as.map (extendArg more) ++ [⟨start.extend more, len⟩]⟩ := by
  simp only [extendArgs, List.map_append, List.map_cons, List.map_nil, extendArg]

theorem parseLineLoop_extend : ∀ {fuel fuel' : Nat} {p : Ptr} {args : Growable DirectiveArg}
    {h h' : Heap} {r : Option (Growable DirectiveArg)}, fuel ≤ fuel' →
    parseLineLoop ok fuel p args h = .ok (r, h') →
    parseLineLoop ok fuel' (p.extend more) (extendArgs more args) h =
      .ok (r.map (extendArgs more), h')
  | 0, _, _, _, _, _, _, _, hr => by cases hr
  | fuel + 1, 0, _, _, _, _, _, hle, _ => by omega
  | fuel + 1, fuel' + 1, p, args, h, h', r, hle, hr => by
    rw [parseLineLoop_succ] at hr ⊢
    obtain ⟨round, hround, hr⟩ := ok_of_bind hr
    rw [lineRound_extend more hround]
    cases round with
    | stop =>
      cases hr
      rfl
    | unclosed =>
      cases hr
      rfl
    | token start len next =>
      have hblock : (extendArgs more args).block = args.block := rfl
      have hsize : (extendArgs more args).elems.length = args.elems.length := List.length_map _
      simp only [Except.bind, extendLineRound, afterLineRound, hblock, hsize] at hr ⊢
      cases hnew : h.realloc ok args.block ((args.elems.length + 1) * sizeofDirectiveArg) with
      | mk new h₁ =>
        rw [hnew] at hr
        cases new with
        | none =>
          cases hr
          rfl
        | some block =>
          have hmore := parseLineLoop_extend (Nat.le_of_succ_le_succ hle) hr
          rw [extendArgs_push] at hmore
          exact hmore

theorem parseLine_extend {p : Ptr} {h h' : Heap} {r : Option Directive}
    (hr : parseLine ok p h = .ok (r, h')) :
    parseLine ok (p.extend more) h = .ok (r.map (extendDirective more), h') := by
  unfold parseLine at hr ⊢
  obtain ⟨⟨args, h₁⟩, hloop, hr⟩ := ok_of_bind hr
  cases hr
  have hle : p.rest.length + 1 ≤ (p.extend more).rest.length + 1 := by
    simp only [Cursor.extend, List.length_append]
    omega
  have hloop' := parseLineLoop_extend more hle hloop
  have hempty : extendArgs more ⟨none, []⟩ = ⟨none, []⟩ := rfl
  rw [hempty] at hloop'
  rw [hloop']
  simp only [bind, Except.bind, pure, Except.pure, Option.map_map]
  rfl

theorem freeArgs_extend : ∀ (ds : List Directive) (h : Heap),
    freeArgs (ds.map (extendDirective more)) h = freeArgs ds h
  | [], _ => rfl
  | d :: ds, h => freeArgs_extend ds (h.free d.args.block)

def extendConfigRound : ConfigRound → ConfigRound
  | .stop => .stop
  | .blank next => .blank (next.extend more)
  | .line lineStart next => .line (lineStart.extend more) (next.extend more)

theorem configRound_extend {p : Ptr} {round : ConfigRound} (hr : configRound p = .ok round) :
    configRound (p.extend more) = .ok (extendConfigRound more round) := by
  unfold configRound at hr ⊢
  obtain ⟨c, hc, hr⟩ := ok_of_bind hr
  rw [(Cursor.deref_extend more hc).1]
  simp only [bind, Except.bind]
  split at hr
  · next hend =>
    cases hr
    rw [if_pos hend]
    rfl
  next hend =>
  obtain ⟨stop, hscan, hr⟩ := ok_of_bind hr
  obtain ⟨lineStart, hbelow, hr⟩ := ok_of_bind hr
  obtain ⟨e, he, hr⟩ := ok_of_bind hr
  obtain ⟨he', hnext⟩ := Cursor.deref_extend more he
  have hnext' : (if e = newline then (stop.extend more).next else stop.extend more) =
      (if e = newline then stop.next else stop).extend more := by
    rw [hnext]
    split <;> rfl
  have hbelow' : (p.extend more).scanWhileBelow isspace (stop.extend more).pos =
      .ok (lineStart.extend more) := Cursor.scanWhileBelow_extend more hbelow
  rw [if_neg hend, Cursor.scanWhile_extend more hscan]
  simp only [hbelow', he', hnext']
  generalize (if e = newline then stop.next else stop) = next at hr ⊢
  change (if lineStart.pos < stop.pos then _ else _) = _
  split at hr
  · next hlt =>
    cases hr
    rw [if_pos hlt]
    rfl
  · next hlt =>
    cases hr
    rw [if_neg hlt]
    rfl

theorem extendDirectives_push (block : Block) (ds : List Directive) (d : Directive) :
    extendDirectives more ⟨some block, ds ++ [d]⟩ =
      ⟨some block, ds.map (extendDirective more) ++ [extendDirective more d]⟩ := by
  simp only [extendDirectives, List.map_append, List.map_cons, List.map_nil]

theorem parseConfigLoop_extend : ∀ {fuel fuel' : Nat} {p : Ptr} {ds : Growable Directive}
    {h h' : Heap} {r : Option (Growable Directive)}, fuel ≤ fuel' →
    parseConfigLoop ok fuel p ds h = .ok (r, h') →
    parseConfigLoop ok fuel' (p.extend more) (extendDirectives more ds) h =
      .ok (r.map (extendDirectives more), h')
  | 0, _, _, _, _, _, _, _, hr => by cases hr
  | fuel + 1, 0, _, _, _, _, _, hle, _ => by omega
  | fuel + 1, fuel' + 1, p, ds, h, h', r, hle, hr => by
    rw [parseConfigLoop_succ] at hr ⊢
    obtain ⟨round, hround, hr⟩ := ok_of_bind hr
    rw [configRound_extend more hround]
    cases round with
    | stop =>
      cases hr
      rfl
    | blank next => exact parseConfigLoop_extend (Nat.le_of_succ_le_succ hle) hr
    | line lineStart next =>
      have hblock : (extendDirectives more ds).block = ds.block := rfl
      have hsize : (extendDirectives more ds).elems.length = ds.elems.length := List.length_map _
      have hfree : freeArgs (extendDirectives more ds).elems = freeArgs ds.elems :=
        funext fun h => freeArgs_extend more ds.elems h
      simp only [Except.bind, extendConfigRound, afterConfigRound, hblock, hsize, hfree] at hr ⊢
      cases hnew : h.realloc ok ds.block ((ds.elems.length + 1) * sizeofDirective) with
      | mk new h₁ =>
        rw [hnew] at hr
        cases new with
        | none =>
          cases hr
          rfl
        | some block =>
          obtain ⟨⟨d, h₂⟩, hline, hr⟩ := ok_of_bind hr
          simp only [parseLine_extend more hline]
          cases d with
          | none =>
            cases hr
            rfl
          | some d =>
            have hmore := parseConfigLoop_extend (Nat.le_of_succ_le_succ hle) hr
            rw [extendDirectives_push] at hmore
            exact hmore

/-! ## The result -/

/-- What `parse_config` returns, with the pointers into the larger block. -/
def extendResult (code : ParseCode) (ds : Growable Directive) : Growable Directive :=
  match code with
  | .ok => extendDirectives more ds
  | .err => ds

theorem parseConfig_extend {out ds : Growable Directive} {config : Bytes} {h h' : Heap}
    {code : ParseCode} (hr : parseConfig ok out config h = .ok ((code, ds), h')) :
    parseConfig ok out (config ++ more) h = .ok ((code, extendResult more code ds), h') := by
  unfold parseConfig at hr ⊢
  obtain ⟨⟨r, h₁⟩, hloop, hr⟩ := ok_of_bind hr
  have hle : config.length + 1 ≤ (config ++ more).length + 1 := by
    rw [List.length_append]
    omega
  have hloop' := parseConfigLoop_extend more hle hloop
  have hempty : extendDirectives more ⟨none, []⟩ = ⟨none, []⟩ := rfl
  have hstart : Cursor.extend more ⟨0, config⟩ = ⟨0, config ++ more⟩ := rfl
  rw [hempty, hstart] at hloop'
  rw [hloop']
  cases r with
  | none =>
    cases hr
    rfl
  | some g =>
    cases hr
    rfl

/-- **The parser stays inside its text.** Whatever the allocator does, it ends on
the block that holds the text and its terminator without reading behind it, and
no argument that it returns reaches over the terminator; whatever stands behind,
it does the same. -/
theorem parseConfig_inside (ok : Nat → Bool) (out : Growable Directive) (c : CString) (h : Heap) :
    ∃ code ds h', parseConfig ok out c.block h = .ok ((code, ds), h') ∧
      (code = .ok → ∀ d ∈ ds.elems, ∀ a ∈ d.args.elems, a.str.pos + a.len ≤ c.bytes.length) ∧
      ∀ more, parseConfig ok out (c.block ++ more) h =
        .ok ((code, extendResult more code ds), h') := by
  obtain ⟨code, ds, h', hr, -⟩ := ParseSound.parseConfig_spec ok [] out c.bytes h c.noNul
  refine ⟨code, ds, h', hr, ?_, fun more => parseConfig_extend more hr⟩
  rintro rfl d hd a ha
  exact ((slices_of_accepted c.noNul hr hd).2 a ha).stop

end SalernOS.Init.ParseBounds
