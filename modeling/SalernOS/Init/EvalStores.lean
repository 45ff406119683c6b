import SalernOS.Init.Interpreter

/-! # What `eval` writes

`eval` and `eval_entry` call each other and write through two pointers of the
caller, one of them untyped. Here they are with their stores, one by one, over
any table.
-/
namespace SalernOS.Init.EvalStores
open SalernOS.Lib SalernOS.Libc SalernOS.Init.Table
open SalernOS.Init.Interpreter (Callback EvalResult evalBody evalNoTable)

variable {φ : Type}

inductive EvalCode where
  | ok
  | notable
  | notRecognized
  | wrongType
deriving DecidableEq, Repr

/-- What stands behind `out`: an `int`, or a pointer to a block of its own. -/
inductive Val where
  | int (n : BitVec 32)
  | buf (block : Bytes)
deriving DecidableEq, Repr

/-- What `out_type` points to; `scratch` is the local variable of `eval`. -/
inductive TypePtr where
  | null
  | caller
  | scratch
deriving DecidableEq, Repr

def TypePtr.orScratch : TypePtr → TypePtr
  | .null => .scratch
  | p => p

inductive Store where
  | out (v : Val)
  | outType (p : TypePtr) (type : Ty)
deriving DecidableEq, Repr

/-- `malloc(len + 1)`, `memcpy` and the terminator. -/
def copyString (value : Ptr) (len : Nat) : Except Fault Bytes :=
  if len ≤ value.rest.length then .ok (value.rest.take len ++ [nul]) else .error .outOfBounds

-- An entry's text is evaluated without a table, so the calls nest at most once.
mutual

def evalEntry (outType : TypePtr) (e : TableEntry φ) : Except Fault (EvalCode × List Store) :=
  match e.value with
  | .string s => eval outType none ⟨0, s.block⟩ s.bytes.length .string
  | .int n => return (.ok, [.out (.int (n.setWidth 32)), .outType outType .int])
  | _ => return (.wrongType, [])
termination_by 1

def eval (outType : TypePtr) (table : Option (List (TableEntry φ))) (value : Ptr)
    (valueLen : Nat) (expType : Ty) : Except Fault (EvalCode × List Store) := do
  let outType := outType.orScratch
  let first ← value.deref
  if first = dollar then
    match table with
    | none => return (.notable, [])
    | some table =>
      match tableLookup value.next.rest (sizePred valueLen) expType table with
      | some e => evalEntry outType e
      | none => return (.notRecognized, [])
  else if expType = .string then
    let buf ← copyString value valueLen
    return (.ok, [.out (.buf buf), .outType outType .string])
  else return (.notRecognized, [])
termination_by if table.isSome then 2 else 0

end

/-! ## What a caller asks for, and what it gets -/

inductive Expected where
  | int
  | string
deriving DecidableEq, Repr

def Expected.type : Expected → Ty
  | .int => .int
  | .string => .string

/-- The value of an entry at the type that was asked for. -/
inductive EntryHolds (e : TableEntry φ) : Expected → Val → Prop where
  | int {n : BitVec 64} (value : e.value = .int n) : EntryHolds e .int (.int (n.setWidth 32))
  | string {s : CString} (value : e.value = .string s) : EntryHolds e .string (.buf s.block)

/-- The tables are written with `(int)` values, and these come back. -/
theorem EntryHolds.of_cast {e : TableEntry φ} {m : BitVec 32}
    (value : e.value = .int (m.signExtend 64)) : EntryHolds e .int (.int m) := by
  have hm : (m.signExtend 64).setWidth 32 = m := by
    ext i hi
    have hi' : i < 64 := by omega
    rw [BitVec.getElem_setWidth, BitVec.getLsbD_signExtend]
    simp [hi, hi']
  exact hm ▸ EntryHolds.int value

/-- The value of a slice: that of the entry it names, or the slice itself. -/
inductive Holds (table : Option (List (TableEntry φ))) (slice : Bytes) (expected : Expected) :
    Val → Prop where
  | entry {entries : List (TableEntry φ)} {name : Bytes} {e : TableEntry φ} {v : Val}
    (given : table = some entries) (named : slice = dollar :: name)
    (found : tableLookup name name.length expected.type entries = some e) (mem : e ∈ entries)
    (holds : EntryHolds e expected v) : Holds table slice expected v
  | copy (plain : slice.head? ≠ some dollar) (string : expected = .string) :
    Holds table slice expected (.buf (slice ++ [nul]))

/-- Success has stored a value and then the type of it, anything else nothing. -/
structure Sound (table : Option (List (TableEntry φ))) (slice : Bytes) (expected : Expected)
    (outType : TypePtr) (r : EvalCode × List Store) : Prop where
  ok : r.1 = .ok → ∃ v, r.2 = [.out v, .outType outType.orScratch expected.type] ∧
    Holds table slice expected v
  other : r.1 ≠ .ok → r.2 = []

/-! ## The two functions -/

theorem copyString_append (pos : Nat) (slice after : Bytes) :
    copyString ⟨pos, slice ++ after⟩ slice.length = .ok (slice ++ [nul]) := by
  unfold copyString
  rw [if_pos (by rw [List.length_append]; exact Nat.le_add_right _ _), List.take_left]

@[simp] theorem TypePtr.orScratch_orScratch (p : TypePtr) :
    p.orScratch.orScratch = p.orScratch := by
  cases p <;> rfl

/-- Without the dollar sign, the slice is taken as it stands. -/
theorem eval_plain (outType : TypePtr) (table : Option (List (TableEntry φ))) (pos : Nat)
    {c : UInt8} (name after : Bytes) (expType : Ty) (h : c ≠ dollar) :
    eval outType table ⟨pos, c :: name ++ after⟩ (name.length + 1) expType =
      .ok (if expType = .string then
        (.ok, [.out (.buf (c :: name ++ [nul])), .outType outType.orScratch .string])
      else (.notRecognized, [])) := by
  have hcopy := copyString_append pos (c :: name) after
  rw [eval.eq_def]
  simp only [List.cons_append, Cursor.deref_cons, List.length_cons] at hcopy ⊢
  change (if c = dollar then _ else if expType = .string then _ else _) = _
  rw [if_neg h]
  split
  · rw [hcopy]
    rfl
  · rfl

/-- With it, the rest of the slice is looked up. -/
theorem eval_dollar (outType : TypePtr) (table : Option (List (TableEntry φ))) (pos : Nat)
    (name after : Bytes) (expType : Ty) :
    eval outType table ⟨pos, dollar :: name ++ after⟩ (name.length + 1) expType =
      match table with
      | none => .ok (.notable, [])
      | some table =>
        match tableLookup name name.length expType table with
        | some e => evalEntry outType.orScratch e
        | none => .ok (.notRecognized, []) := by
  rw [eval.eq_def]
  cases table with
  | none => rfl
  | some table =>
    have hlookup : tableLookup (name ++ after) name.length expType table =
        tableLookup name name.length expType table := by
      rw [← tableLookup_take, List.take_left]
    change (match tableLookup (name ++ after) name.length expType table with
      | some e => evalEntry outType.orScratch e
      | none => .ok (.notRecognized, [])) = _
    rw [hlookup]

/-- The text of an entry is not looked up again: it is copied, or refused when it
begins with a dollar sign. -/
theorem eval_text (outType : TypePtr) (s : CString) :
    eval outType.orScratch (none : Option (List (TableEntry φ))) ⟨0, s.block⟩ s.bytes.length
        .string =
      .ok (if s.bytes.head? = some dollar then (.notable, [])
      else (.ok, [.out (.buf s.block), .outType outType.orScratch .string])) := by
  obtain ⟨text, noNul⟩ := s
  cases text with
  | nil =>
    -- the terminator stands where the first byte is looked for
    simp only [eval, TypePtr.orScratch_orScratch]
    rfl
  | cons c text =>
    by_cases hc : c = dollar
    · obtain rfl := hc
      exact eval_dollar _ none 0 text [nul] .string
    · have hhead : (c :: text).head? ≠ some dollar := fun h => hc (Option.some.inj h)
      have hplain := eval_plain outType.orScratch (none : Option (List (TableEntry φ))) 0 text
        [nul] .string hc
      rw [TypePtr.orScratch_orScratch, if_pos rfl] at hplain
      rw [if_neg hhead]
      exact hplain

/-- Only entries with a value can be asked for. -/
theorem value_of_type {e : TableEntry φ} {expected : Expected} (h : e.type = expected.type) :
    (∃ n, e.value = .int n ∧ expected = .int) ∨ ∃ s, e.value = .string s ∧ expected = .string := by
  unfold TableEntry.type at h
  cases hvalue : e.value with
  | int n =>
    rw [hvalue] at h
    cases expected with
    | int => exact .inl ⟨n, rfl, rfl⟩
    | string => cases h
  | string s =>
    rw [hvalue] at h
    cases expected with
    | int => cases h
    | string => exact .inr ⟨s, rfl, rfl⟩
  | function | any | undef | entry =>
    rw [hvalue] at h
    cases expected <;> cases h

/-- An entry gives its value at its own type, or an error. -/
theorem evalEntry_sound (outType : TypePtr) (e : TableEntry φ) (expected : Expected)
    (h : e.type = expected.type) : ∃ r, evalEntry outType.orScratch e = .ok r ∧
      (r.1 = .ok → ∃ v, r.2 = [.out v, .outType outType.orScratch expected.type] ∧
        EntryHolds e expected v) ∧
      (r.1 ≠ .ok → r.2 = []) := by
  rw [evalEntry]
  rcases value_of_type h with ⟨n, hvalue, rfl⟩ | ⟨s, hvalue, rfl⟩
  · rw [hvalue]
    exact ⟨_, rfl, fun _ => ⟨_, rfl, .int hvalue⟩, fun hne => absurd rfl hne⟩
  · rw [hvalue]
    refine ⟨_, eval_text outType s, ?_⟩
    split
    · exact ⟨nofun, fun _ => rfl⟩
    · exact ⟨fun _ => ⟨_, rfl, .string hvalue⟩, fun hne => absurd rfl hne⟩

/-! ## The evaluation of the interpreter

The callbacks only look at the code and at what stands in `*out` after success,
where a text is named without its terminator.
-/

def outcome : EvalCode × List Store → EvalResult
  | (.ok, .out (.int n) :: .outType _ type :: _) => .ok (.int n) type
  | (.ok, .out (.buf block) :: .outType _ type :: _) => .ok (.str block.dropLast) type
  | (.notable, _) => .notable
  | (.notRecognized, _) => .notRecognized
  | _ => .wrongType

theorem outcome_of_body {outType : TypePtr} {table : Option (List (TableEntry Callback))}
    {value : Ptr} {valueLen : Nat} {expType : Ty} {r : EvalCode × List Store}
    {entryResult : TableEntry Callback → EvalResult}
    (hentry : table ≠ none → ∀ e r, evalEntry outType.orScratch e = .ok r →
      outcome r = entryResult e)
    (h : eval outType table value valueLen expType = .ok r) :
    outcome r = evalBody entryResult table value valueLen expType := by
  rw [eval.eq_def] at h
  obtain ⟨first, hfirst, h⟩ := ok_of_bind h
  have hhead : value.rest.headD nul = first := by
    obtain ⟨pos, rest⟩ := value
    cases rest with
    | nil => cases hfirst
    | cons c rest => exact Except.ok.inj hfirst
  unfold evalBody
  rw [hhead]
  by_cases hd : first = dollar
  · rw [if_pos hd] at h ⊢
    cases table with
    | none =>
      cases h
      rfl
    | some entries =>
      simp only at h ⊢
      cases hfound : tableLookup value.next.rest (sizePred valueLen) expType entries with
      | none =>
        rw [hfound] at h
        cases h
        rfl
      | some e =>
        rw [hfound] at h
        exact hentry (Option.some_ne_none _) e r h
  · rw [if_neg hd] at h ⊢
    by_cases hstring : expType = .string
    · rw [if_pos hstring] at h ⊢
      obtain ⟨buf, hbuf, h⟩ := ok_of_bind h
      unfold copyString at hbuf
      split at hbuf
      · cases hbuf
        cases h
        simp only [outcome, List.dropLast_concat]
      · cases hbuf
    · rw [if_neg hstring] at h ⊢
      cases h
      rfl

theorem outcome_evalEntry {outType : TypePtr} {e : TableEntry Callback}
    {r : EvalCode × List Store} (h : evalEntry outType e = .ok r) :
    outcome r = Interpreter.evalEntry e := by
  rw [evalEntry] at h
  unfold Interpreter.evalEntry
  cases hvalue : e.value with
  | string s =>
    rw [hvalue] at h
    exact outcome_of_body (fun hne => absurd rfl hne) h
  | int | function | any | undef | entry =>
    rw [hvalue] at h
    cases h
    rfl

/-- The callbacks see what these stores leave. -/
theorem outcome_eval {outType : TypePtr} {table : Option (List (TableEntry Callback))}
    {value : Ptr} {valueLen : Nat} {expType : Ty} {r : EvalCode × List Store}
    (h : eval outType table value valueLen expType = .ok r) :
    outcome r = Interpreter.eval table value valueLen expType :=
  outcome_of_body (fun _ _ _ => outcome_evalEntry) h

/-- **Evaluation is sound.** It ends whatever the table holds, success has
stored a value of the type that was asked for, and nothing else stores
anything. -/
theorem eval_sound (table : Option (List (TableEntry φ))) (c : UInt8) (name after : Bytes)
    (pos : Nat) (expected : Expected) (outType : TypePtr) : ∃ r,
      eval outType table ⟨pos, c :: name ++ after⟩ (name.length + 1) expected.type = .ok r ∧
      Sound table (c :: name) expected outType r := by
  by_cases hc : c = dollar
  · obtain rfl := hc
    rw [eval_dollar]
    cases table with
    | none => exact ⟨_, rfl, nofun, fun _ => rfl⟩
    | some entries =>
      cases hfound : tableLookup name name.length expected.type entries with
      | none =>
        simp only [hfound]
        exact ⟨_, rfl, nofun, fun _ => rfl⟩
      | some e =>
        simp only [hfound]
        obtain ⟨hmem, htype⟩ := tableLookup_some hfound
        have hne : expected.type ≠ .any := by cases expected <;> nofun
        obtain ⟨r, hr, hok, hother⟩ :=
          evalEntry_sound outType e expected (htype.resolve_right hne).symm
        refine ⟨r, hr, fun h => ?_, hother⟩
        obtain ⟨v, hstores, hv⟩ := hok h
        exact ⟨v, hstores, .entry rfl rfl hfound hmem hv⟩
  · rw [eval_plain outType table pos name after expected.type hc]
    have hplain : (c :: name).head? ≠ some dollar := fun h => hc (Option.some.inj h)
    cases expected with
    | int => exact ⟨_, rfl, nofun, fun _ => rfl⟩
    | string =>
      exact ⟨_, rfl, fun _ => ⟨_, rfl, .copy hplain rfl⟩, fun hne => absurd rfl hne⟩

end SalernOS.Init.EvalStores
