import SalernOS.Init.Interpreter
import SalernOS.Init.Slices

/-! # What the evaluator is handed

`eval` looks at the first byte of its argument before it looks at the length,
and takes one from the length when that byte is a dollar sign.
-/
namespace SalernOS.Init.EvalBounds
open SalernOS.Lib SalernOS.Libc SalernOS.Init.Parse SalernOS.Init.Table
open SalernOS.Init.Interpreter SalernOS.Init.Slices

/-- `value[0]`. -/
def firstByte (a : DirectiveArg) : UInt8 := a.str.rest.headD nul

/-- The slice that `eval` hands to `table_lookup`, if it looks a name up. -/
def lookupSlice (a : DirectiveArg) : Option DirectiveArg :=
  if firstByte a = dollar then some ⟨a.str.next, sizePred a.len⟩ else none

/-- It is this slice that decides. -/
theorem eval_lookupSlice (table : List (TableEntry Callback)) (a : DirectiveArg) (expType : Ty) :
    eval (some table) a.str a.len expType =
      match lookupSlice a with
      | some name =>
        match tableLookup name.str.rest name.len expType table with
        | some e => evalEntry e
        | none => .notRecognized
      | none => if expType = .string then .ok (.str a.word) .string else .notRecognized := by
  by_cases hd : firstByte a = dollar
  · have hname : lookupSlice a = some ⟨a.str.next, sizePred a.len⟩ := if_pos hd
    rw [hname]
    exact if_pos hd
  · have hname : lookupSlice a = none := if_neg hd
    rw [hname]
    exact if_neg hd

/-- A slice of an argument. -/
structure InsideArg (name a : DirectiveArg) : Prop where
  start : a.str.pos ≤ name.str.pos
  stop : name.str.pos + name.len ≤ a.str.pos + a.len
  bytes : name.str.rest = a.str.rest.drop (name.str.pos - a.str.pos)

/-- What `eval` relies on. -/
structure Evaluable (s : Bytes) (a : DirectiveArg) : Prop where
  first : s[a.str.pos]? = some (firstByte a)
  dollar : firstByte a = dollar → 1 ≤ a.len
  inside : ∀ name ∈ lookupSlice a, InsideArg name a

theorem Evaluable.of_slice {s junk : Bytes} {a : DirectiveArg} (h : Slice s junk a) :
    Evaluable s a := by
  have hfirst : s[a.str.pos]? = some (firstByte a) := by
    rw [firstByte, h.pointer, List.drop_eq_getElem_cons (by
      rw [List.length_append]
      exact Nat.lt_add_right _ h.first), List.headD_cons, List.getElem_append_left h.first]
    exact List.getElem?_eq_getElem h.first
  have hdollar : firstByte a = Libc.dollar → 1 ≤ a.len := by
    intro hd
    by_contra hzero
    -- an empty argument begins with the quote that closes it
    have hquote := h.empty (by omega)
    rw [firstByte, List.headD_eq_head?_getD, hquote] at hd
    cases hd
  refine ⟨hfirst, hdollar, fun name hname => ?_⟩
  obtain ⟨hd, hname⟩ := Option.ite_none_right_eq_some.mp hname
  obtain rfl := Option.some.inj hname
  have hlen := hdollar hd
  have hpred : sizePred a.len = a.len - 1 := if_neg (by omega)
  refine ⟨Nat.le_succ _, ?_, ?_⟩
  · rw [hpred]
    change a.str.pos + 1 + (a.len - 1) ≤ _
    omega
  · change a.str.rest.tail = a.str.rest.drop (a.str.pos + 1 - a.str.pos)
    rw [Nat.add_sub_cancel_left, List.drop_one]

/-- **What is handed to the evaluator is well formed.** Whatever the allocator
does and whatever stands behind the text, an accepted text has no directive
without arguments, and `eval` can take every argument. -/
theorem directives_evaluable (ok : Nat → Bool) (out : Growable Directive) (c : CString)
    (junk : Bytes) (h : Heap) : ∃ code ds h',
      parseConfig ok out (c.bytes ++ nul :: junk) h = .ok ((code, ds), h') ∧
      (code = .ok → ∀ d ∈ ds.elems,
        d.args.elems ≠ [] ∧ ∀ a ∈ d.args.elems, Evaluable c.bytes a) := by
  obtain ⟨code, ds, h', hr, -⟩ := ParseSound.parseConfig_spec ok junk out c.bytes h c.noNul
  refine ⟨code, ds, h', hr, ?_⟩
  rintro rfl d hd
  obtain ⟨hne, hslices⟩ := slices_of_accepted c.noNul hr hd
  exact ⟨hne, fun a ha => .of_slice (hslices a ha)⟩

end SalernOS.Init.EvalBounds
