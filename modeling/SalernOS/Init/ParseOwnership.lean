import SalernOS.Libc.Ownership
import SalernOS.Init.Rounds
import SalernOS.Init.Slices

/-! # What the parser owns

Each function of `parse.c` keeps track of every block it has allocated, on
whatever text it is run.
-/
namespace SalernOS.Init.ParseOwnership
open SalernOS.Lib SalernOS.Libc SalernOS.Init.Parse SalernOS.Init.Rounds SalernOS.Init.Slices

variable {ok : Nat → Bool} {h h' : Heap} {ps : List (Option Block)}

/-- The argument arrays of directives. -/
def argBlocks (ds : List Directive) : List (Option Block) := ds.map (·.args.block)

/-- An array has a block once it has an element. -/
def Grown {α : Type} (g : Growable α) : Prop := g.block = none ↔ g.elems = []

theorem grown_empty {α : Type} : Grown (⟨none, []⟩ : Growable α) := iff_of_true rfl rfl

theorem grown_push {α : Type} (block : Block) (as : List α) (a : α) :
    Grown ⟨some block, as ++ [a]⟩ := iff_of_false nofun (List.append_ne_nil_of_right_ne_nil as nofun)

/-! ## The functions -/

/-- What `parse_line` has in the end: its array, or nothing. -/
theorem parseLineLoop_owns : ∀ (fuel : Nat) {p : Ptr} {args : Growable DirectiveArg} {h : Heap}
    {r : Option (Growable DirectiveArg)}, h.Owns (args.block :: ps) → Grown args →
    parseLineLoop ok fuel p args h = .ok (r, h') →
    match r with
    | some g => h'.Owns (g.block :: ps) ∧ Grown g
    | none => h'.Owns ps
  | 0, _, _, _, _, _, _, hr => by cases hr
  | fuel + 1, p, args, h, r, hown, hgrown, hr => by
    rw [parseLineLoop_succ] at hr
    obtain ⟨round, -, hr⟩ := ok_of_bind hr
    cases round with
    | stop =>
      cases hr
      exact ⟨hown, hgrown⟩
    | unclosed =>
      cases hr
      exact (hown.ierr _).free
    | token start len next =>
      simp only [afterLineRound] at hr
      cases hnew : h.realloc ok args.block ((args.elems.length + 1) * sizeofDirectiveArg) with
      | mk new h₁ =>
        have hown₁ := hown.realloc hnew
        rw [hnew] at hr
        cases new with
        | none =>
          cases hr
          exact (hown₁.ierr _).free
        | some block => exact parseLineLoop_owns fuel hown₁ (grown_push _ _ _) hr

theorem parseLine_owns {p : Ptr} {r : Option Directive} (hown : h.Owns ps)
    (hr : parseLine ok p h = .ok (r, h')) :
    match r with
    | some d => h'.Owns (d.args.block :: ps) ∧ Grown d.args
    | none => h'.Owns ps := by
  unfold parseLine at hr
  obtain ⟨⟨args, h₁⟩, hloop, hr⟩ := ok_of_bind hr
  cases hr
  have hown' := parseLineLoop_owns _ hown.cons_none grown_empty hloop
  cases args with
  | none => exact hown'
  | some g => exact hown'

theorem freeArgs_owns : ∀ (ds : List Directive) {h : Heap},
    h.Owns (argBlocks ds ++ ps) → (freeArgs ds h).Owns ps
  | [], _, hown => hown
  | _ :: ds, _, hown => freeArgs_owns ds hown.free

/-- Behind an error, `parse_config` frees all that it owns. -/
theorem giveUp_owns {ds : List Directive} {p : Option Block} (hown : h.Owns (p :: argBlocks ds)) :
    ((freeArgs ds h).free p).Owns [] := by
  have hperm : (p :: argBlocks ds).Perm (argBlocks ds ++ [p]) :=
    (List.perm_append_singleton p _).symm
  exact (freeArgs_owns ds (hown.perm hperm)).free

/-- The arrays of `parse_config` are grown. -/
structure AllGrown (ds : Growable Directive) : Prop where
  array : Grown ds
  args : ∀ d ∈ ds.elems, Grown d.args

theorem AllGrown.push {ds : Growable Directive} (hds : AllGrown ds) (block : Block) {d : Directive}
    (hd : Grown d.args) : AllGrown ⟨some block, ds.elems ++ [d]⟩ where
  array := grown_push _ _ _
  args e he := by
    rcases List.mem_append.mp he with he | he
    · exact hds.args e he
    · rw [List.mem_singleton.mp he]
      exact hd

theorem parseConfigLoop_owns : ∀ (fuel : Nat) {p : Ptr} {ds : Growable Directive} {h : Heap}
    {r : Option (Growable Directive)}, h.Owns (ds.block :: argBlocks ds.elems) → AllGrown ds →
    parseConfigLoop ok fuel p ds h = .ok (r, h') →
    match r with
    | some g => h'.Owns (g.block :: argBlocks g.elems) ∧ AllGrown g
    | none => h'.Owns []
  | 0, _, _, _, _, _, _, hr => by cases hr
  | fuel + 1, p, ds, h, r, hown, hgrown, hr => by
    rw [parseConfigLoop_succ] at hr
    obtain ⟨round, -, hr⟩ := ok_of_bind hr
    cases round with
    | stop =>
      cases hr
      exact ⟨hown, hgrown⟩
    | blank next => exact parseConfigLoop_owns fuel hown hgrown hr
    | line lineStart next =>
      simp only [afterConfigRound] at hr
      cases hnew : h.realloc ok ds.block ((ds.elems.length + 1) * sizeofDirective) with
      | mk new h₁ =>
        have hown₁ := hown.realloc hnew
        rw [hnew] at hr
        cases new with
        | none =>
          cases hr
          exact giveUp_owns (hown₁.ierr _)
        | some block =>
          obtain ⟨⟨d, h₂⟩, hline, hr⟩ := ok_of_bind hr
          have hown₂ := parseLine_owns hown₁ hline
          cases d with
          | none =>
            cases hr
            exact giveUp_owns hown₂
          | some d =>
            have hperm : (d.args.block :: some block :: argBlocks ds.elems).Perm
                (some block :: argBlocks (ds.elems ++ [d])) := by
              rw [argBlocks, argBlocks, List.map_append]
              exact (List.Perm.swap _ _ _).trans ((List.perm_append_singleton _ _).symm.cons _)
            exact parseConfigLoop_owns fuel (hown₂.1.perm hperm) (hgrown.push block hown₂.2) hr

/-! ## The result -/

/-- The blocks that `parse_config` returns. -/
def returned (ds : Growable Directive) : List Block :=
  (ds.block :: argBlocks ds.elems).reduceOption

/-- `*out` and `*out_num` are as before, and every block has been freed. -/
structure CleanFailure (out ds : Growable Directive) (t : List HeapEvent) : Prop where
  untouched : ds = out
  live : leftLive t = some ∅
  freed : ∀ b ∈ allocated t, (freed t).count b = 1

/-- What is left is the array of directives, if there are any, and an array of
arguments for each. -/
structure CleanSuccess (ds : Growable Directive) (t : List HeapEvent) : Prop where
  array : ds.block = none ↔ ds.elems = []
  args : ∀ d ∈ ds.elems, d.args.block ≠ none
  distinct : (returned ds).Nodup
  live : leftLive t = some (returned ds).toFinset
  freed : ∀ b ∈ allocated t, (freed t).count b = if b ∈ returned ds then 0 else 1

/-- **Nothing is lost by `parse_config`.** Whatever the allocator does, the call
ends; a failure frees every block once, and a success returns the others. -/
theorem parseConfig_clean (ok : Nat → Bool) (out : Growable Directive) (c : CString)
    (junk : Bytes) : ∃ code ds h',
      parseConfig ok out (c.bytes ++ nul :: junk) Heap.empty = .ok ((code, ds), h') ∧
      match code with
      | .err => CleanFailure out ds h'.trace
      | .ok => CleanSuccess ds h'.trace := by
  obtain ⟨code, ds, h', hr, -⟩ := ParseSound.parseConfig_spec ok junk out c.bytes Heap.empty c.noNul
  refine ⟨code, ds, h', hr, ?_⟩
  have hconfig := hr
  unfold parseConfig at hr
  obtain ⟨⟨r, h₁⟩, hloop, hr⟩ := ok_of_bind hr
  have hown := parseConfigLoop_owns _ (Heap.Owns.empty.cons_none) ⟨grown_empty, nofun⟩ hloop
  cases r with
  | none =>
    cases hr
    exact ⟨rfl, hown.live, fun b hb => (hown.count_freed hb).trans (if_neg List.not_mem_nil)⟩
  | some g =>
    cases hr
    obtain ⟨hown, hgrown⟩ := hown
    refine ⟨hgrown.array, fun d hd hnone => ?_, hown.nodup, hown.live, fun b hb => ?_⟩
    · exact (slices_of_accepted c.noNul hconfig hd).1 ((hgrown.args d hd).mp hnone)
    · rw [hown.count_freed hb]
      simp only [returned, List.reduceOption_mem_iff]

end SalernOS.Init.ParseOwnership
