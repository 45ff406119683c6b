import SalernOS.Init.ParseSound
import SalernOS.Init.Spans

/-! # The slices of an accepted text

What an argument of an accepted text points to, whatever the allocator does.
-/
namespace SalernOS.Init.Slices
open SalernOS.Lib SalernOS.Libc SalernOS.Init.Grammar SalernOS.Init.Parse
open SalernOS.Init.ParseSound

/-- The argument is a piece of the text `s`, in a block with `junk` behind the
terminator. An empty one points to the quote that closes it. -/
structure Slice (s junk : Bytes) (a : DirectiveArg) : Prop where
  pointer : a.str.rest = (s ++ nul :: junk).drop a.str.pos
  first : a.str.pos < s.length
  stop : a.str.pos + a.len ≤ s.length
  empty : a.len = 0 → a.str.rest.head? = some quote

theorem slice_of_tok {s : Bytes} (junk : Bytes) {t : Tok} {lo hi : Nat} (hin : t.In 0 s)
    (hwithin : t.Within lo hi) : Slice s junk (toArg junk t) := by
  obtain ⟨pre, rfl, hstart⟩ := hin
  rw [Nat.zero_add] at hstart
  have hlen := hwithin.len
  have hempty := hwithin.empty
  have hrest : 0 < t.rest.length := by
    rcases Nat.eq_zero_or_pos t.len with hzero | hpos
    · have hhead := hempty hzero
      cases hr : t.rest with
      | nil => rw [hr] at hhead; cases hhead
      | cons c u => exact Nat.succ_pos _
    · exact Nat.lt_of_lt_of_le hpos hlen
  refine ⟨?_, ?_, ?_, fun hzero => ?_⟩
  · simp only [toArg, hstart, List.append_assoc, List.drop_left]
  · simp only [toArg, hstart, List.length_append]
    omega
  · simp only [toArg, hstart, List.length_append]
    omega
  · have hhead := hempty hzero
    cases hr : t.rest with
    | nil => rw [hr] at hhead; cases hhead
    | cons c u =>
      rw [hr] at hhead
      simp only [toArg, hr]
      exact hhead

/-- A line that is not blank has an argument. -/
theorem lex_of_not_blank {pos : Nat} {s : Bytes} {toks : List Tok} (hb : blankLine s = false)
    (h : lex .gap pos s = some toks) : toks ≠ [] := by
  rw [lex_at_lineStart] at h
  cases hl : (firstLine newline s).dropWhile isspace with
  | nil =>
    rw [List.dropWhile_eq_nil_iff] at hl
    rw [blankLine, List.all_eq_true.mpr hl] at hb
    cases hb
  | cons c u =>
    have hc : isspace c = false := by
      have := List.head?_dropWhile_not isspace (firstLine newline s)
      rw [hl] at this
      simpa using this
    rw [hl, List.cons_append] at h
    exact lex_ne_nil hc h

/-- The arguments of a directive of an accepted text. -/
theorem slices_of_accepted {ok : Nat → Bool} {junk : Bytes} {out ds : Growable Directive}
    {s : Bytes} {h h' : Heap} (hs : nul ∉ s)
    (hr : parseConfig ok out (s ++ nul :: junk) h = .ok ((.ok, ds), h')) {d : Directive}
    (hd : d ∈ ds.elems) : d.args.elems ≠ [] ∧ ∀ a ∈ d.args.elems, Slice s junk a := by
  obtain ⟨tss, htss, hargs⟩ := parseConfig_accepted ok junk hs hr
  have hmem : d.args.elems ∈ tss.map (List.map (toArg junk)) :=
    hargs ▸ List.mem_map_of_mem (f := fun d : Directive => d.args.elems) hd
  obtain ⟨toks, htoks, hd⟩ := List.mem_map.mp hmem
  obtain ⟨p, hp, hlex⟩ := mem_of_mapM htss htoks
  obtain ⟨hstart, hbody⟩ := List.mem_filter.mp hp
  obtain ⟨pre, hpre, hpos, -⟩ := lineStarts_suffix newline s true 0 p hstart
  rw [← hd]
  constructor
  · intro hnil
    exact lex_of_not_blank (by simpa using hbody) hlex (List.map_eq_nil_iff.mp hnil)
  · intro a ha
    obtain ⟨t, ht, rfl⟩ := List.mem_map.mp ha
    have hin : t.In p.1 p.2 := lex_in p.2 .gap p.1 toks trivial hlex t ht
    rw [hpos] at hin
    exact slice_of_tok junk (hpre ▸ hin.append) (lex_gap_within hlex t ht)

end SalernOS.Init.Slices
