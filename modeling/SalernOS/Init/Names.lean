import SalernOS.Init.Interpreter

/-! # Name resolution

`table_lookup` compares no more bytes than the slice has, while the names of a
table end at their NUL. It therefore also stops at an entry whose name only
begins with the slice.
-/
namespace SalernOS.Init.Names
open SalernOS.Libc SalernOS.Init.Table SalernOS.Init.Interpreter

variable {φ : Type}

/-! ## Comparing a slice with a name -/

theorem toNat_sub_ne_zero {c d : UInt8} (h : c ≠ d) : ((c.toNat : Int) - d.toNat) ≠ 0 :=
  fun hsub => h (UInt8.toNat_inj.mp (Int.ofNat_inj.mp (Int.sub_eq_zero.mp hsub)))

/-- A slice compares equal with the names that begin with it. -/
theorem strncmp_eq_zero_iff {s : Bytes} (hs : nul ∉ s) :
    ∀ rest name : Bytes, strncmp s.length (s ++ rest) name = 0 ↔ s <+: name := by
  induction s with
  | nil => exact fun rest name => ⟨fun _ => List.nil_prefix, fun _ => rfl⟩
  | cons c s ih =>
    intro rest name
    obtain ⟨hc, hs⟩ := not_or.mp (mt List.mem_cons.mpr hs)
    unfold strncmp
    simp only [List.cons_append]
    cases name with
    | nil =>
      have hne := toNat_sub_ne_zero (Ne.symm hc)
      simp [Ne.symm hc, hne]
    | cons d name =>
      rw [List.cons_prefix_cons]
      by_cases hcd : c = d
      · subst hcd
        simpa [Ne.symm hc] using ih hs rest name
      · simp [hcd, toNat_sub_ne_zero hcd]

/-! ## Which entry a slice stands for -/

/-- The type is the one that was asked for, or `TYPE_ANY` was. -/
def TypeFits (type : Ty) (e : TableEntry φ) : Prop := type = e.type ∨ type = .any

/-- The whole name of the entry is the slice. -/
def Resolves (slice : CString) (type : Ty) (e : TableEntry φ) : Prop :=
  slice.bytes = e.name.bytes ∧ TypeFits type e

/-- The name of the entry begins with the slice. -/
def Begins (slice : CString) (type : Ty) (e : TableEntry φ) : Prop :=
  slice.bytes <+: e.name.bytes ∧ TypeFits type e

instance (type : Ty) (e : TableEntry φ) : Decidable (TypeFits type e) :=
  inferInstanceAs (Decidable (_ ∨ _))

instance (slice : CString) (type : Ty) (e : TableEntry φ) : Decidable (Resolves slice type e) :=
  inferInstanceAs (Decidable (_ ∧ _))

instance (slice : CString) (type : Ty) (e : TableEntry φ) : Decidable (Begins slice type e) :=
  inferInstanceAs (Decidable (_ ∧ _))

theorem Resolves.begins {slice : CString} {type : Ty} {e : TableEntry φ}
    (h : Resolves slice type e) : Begins slice type e :=
  ⟨h.1 ▸ List.prefix_rfl, h.2⟩

/-- `e` stands in the list, satisfies `P`, and nothing in front of it does. -/
def FirstOf {α : Type} (P : α → Prop) (l : List α) (e : α) : Prop :=
  P e ∧ ∃ before after, l = before ++ e :: after ∧ ∀ a ∈ before, ¬ P a

theorem find?_eq_some_iff_firstOf {α : Type} {P : α → Prop} [DecidablePred P] {l : List α}
    {e : α} : l.find? (fun a => decide (P a)) = some e ↔ FirstOf P l e := by
  rw [List.find?_eq_some_iff_append]
  simp only [decide_eq_true_eq, Bool.not_eq_true', decide_eq_false_iff_not, FirstOf]

/-- Two searches, one of which accepts more, find the same thing when whatever
only that one accepts stands behind something that both accept. -/
theorem find?_eq_find?_iff {α : Type} {P Q : α → Prop} [DecidablePred P] [DecidablePred Q]
    (hPQ : ∀ a, Q a → P a) : ∀ {l : List α},
    l.find? (fun a => decide (P a)) = l.find? (fun a => decide (Q a)) ↔
      ∀ before e after, l = before ++ e :: after → P e → ¬ Q e → ∃ a ∈ before, Q a
  | [] => by simp
  | x :: l => by
    by_cases hQ : Q x
    · -- both stop here, and `x` stands in front of everything else
      simp only [List.find?_cons, hPQ x hQ, hQ, decide_true, true_iff]
      intro before e after heq _ hnQ
      cases before with
      | nil => cases heq; exact absurd hQ hnQ
      | cons y before =>
        cases heq
        exact ⟨_, List.mem_cons_self, hQ⟩
    by_cases hP : P x
    · -- only the wider search stops here
      simp only [List.find?_cons, hP, hQ, decide_true, decide_false]
      constructor
      · intro h
        exact absurd (of_decide_eq_true (List.find?_some (p := fun a => decide (Q a)) h.symm)) hQ
      · intro h
        obtain ⟨a, ha, -⟩ := h [] x l rfl hP hQ
        exact absurd ha List.not_mem_nil
    · simp only [List.find?_cons, hP, hQ, decide_false]
      rw [find?_eq_find?_iff hPQ]
      constructor
      · intro h before e after heq hPe hnQ
        cases before with
        | nil => cases heq; exact absurd hPe hP
        | cons y before =>
          cases heq
          obtain ⟨a, ha, hQa⟩ := h before e after rfl hPe hnQ
          exact ⟨a, List.mem_cons_of_mem _ ha, hQa⟩
      · intro h before e after heq hPe hnQ
        obtain ⟨a, ha, hQa⟩ := h (x :: before) e after (congrArg (x :: ·) heq) hPe hnQ
        rcases List.mem_cons.mp ha with rfl | ha
        · exact absurd hQa hQ
        · exact ⟨a, ha, hQa⟩

/-! ## The lookup -/

inductive LookupCode where
  | found
  | notFound
deriving DecidableEq, Repr

/-- What `table_lookup` returns, and `*out` behind it. -/
def lookup (out : TableEntry φ) (table : List (TableEntry φ)) (name : Bytes) (namelen : Nat)
    (type : Ty) : LookupCode × TableEntry φ :=
  match tableLookup name namelen type table with
  | some entry => (.found, entry)
  | none => (.notFound, out)

theorem tableLookup_eq_find? (slice : CString) (rest : Bytes) (type : Ty) :
    ∀ table : List (TableEntry φ),
      tableLookup (slice.bytes ++ rest) slice.bytes.length type table =
        table.find? fun e => decide (Begins slice type e)
  | [] => rfl
  | entry :: entries => by
    have hcmp := strncmp_eq_zero_iff slice.noNul rest entry.name.bytes
    unfold tableLookup
    rw [tableLookup_eq_find? slice rest type entries, List.find?_cons]
    by_cases hname : slice.bytes <+: entry.name.bytes
    · by_cases htype : TypeFits type entry
      · have h : Begins slice type entry := ⟨hname, htype⟩
        simp only [hcmp.mpr hname, if_true, h, decide_true]
        exact if_pos htype
      · have h : ¬ Begins slice type entry := fun h => htype h.2
        simp only [hcmp.mpr hname, if_true, h, decide_false]
        exact if_neg htype
    · have h : ¬ Begins slice type entry := fun h => hname h.1
      simp only [h, decide_false]
      exact if_neg (fun h => hname (hcmp.mp h))

/-- The lookup finds the first entry the slice stands for, and says so exactly
when there is one. -/
structure Exact (out : TableEntry φ) (table : List (TableEntry φ)) (slice : CString) (type : Ty)
    (r : LookupCode × TableEntry φ) : Prop where
  found : ∀ e, r = (.found, e) ↔ FirstOf (Resolves slice type) table e
  notFound : r = (.notFound, out) ↔ ∀ e ∈ table, ¬ Resolves slice type e

/-- An entry whose name goes on behind the slice stands behind an entry with
exactly that name. -/
def Unabbreviated (table : List (TableEntry φ)) (slice : CString) (type : Ty) : Prop :=
  ∀ before e after, table = before ++ e :: after → Begins slice type e → ¬ Resolves slice type e →
    ∃ a ∈ before, Resolves slice type a

/-- A result of a search is exact when it is that of the search for the whole
name. -/
theorem exact_iff_find? {out : TableEntry φ} {table : List (TableEntry φ)} {slice : CString}
    {type : Ty} {found : Option (TableEntry φ)} :
    Exact out table slice type
        (match found with
          | some entry => (.found, entry)
          | none => (.notFound, out)) ↔
      found = table.find? fun e => decide (Resolves slice type e) := by
  constructor
  · intro h
    cases found with
    | some entry => exact (find?_eq_some_iff_firstOf.mpr ((h.found entry).mp rfl)).symm
    | none =>
      refine (List.find?_eq_none.mpr fun e he => ?_).symm
      simpa using h.notFound.mp rfl e he
  · rintro rfl
    cases hfind : table.find? fun e => decide (Resolves slice type e) with
    | some entry =>
      have hfirst := find?_eq_some_iff_firstOf.mp hfind
      refine ⟨fun e => ⟨fun h => (Prod.mk.inj h).2 ▸ hfirst, fun h => ?_⟩,
        ⟨fun h => (nomatch (Prod.mk.inj h).1), fun h => ?_⟩⟩
      · rw [find?_eq_some_iff_firstOf.mpr h] at hfind
        rw [Option.some.inj hfind]
      · exact absurd hfirst.1 (h entry (List.mem_of_find?_eq_some hfind))
    | none =>
      have hnone : ∀ e ∈ table, ¬ Resolves slice type e := fun e he => by
        simpa using List.find?_eq_none.mp hfind e he
      refine ⟨fun e => ⟨fun h => (nomatch (Prod.mk.inj h).1), fun h => ?_⟩,
        ⟨fun _ => hnone, fun _ => rfl⟩⟩
      obtain ⟨he, before, after, rfl, -⟩ := h
      exact absurd he (hnone e (List.mem_append_right _ List.mem_cons_self))

/-- A name is resolved to the entry of that name precisely where no longer name
of a fitting type comes first. -/
theorem exact_iff (out : TableEntry φ) (table : List (TableEntry φ)) (slice : CString)
    (rest : Bytes) (type : Ty) :
    Exact out table slice type
        (lookup out table (slice.bytes ++ rest) slice.bytes.length type) ↔
      Unabbreviated table slice type := by
  unfold lookup
  rw [exact_iff_find?, tableLookup_eq_find?]
  exact find?_eq_find?_iff fun _ => Resolves.begins

/-- The slice `en` is taken for the directive `env`. -/
theorem abbreviated_not_exact :
    ¬ Exact ⟨⟨[], List.not_mem_nil⟩, .undef⟩ gDirectives ⟨ascii "en", by decide⟩ .function
        (lookup ⟨⟨[], List.not_mem_nil⟩, .undef⟩ gDirectives (ascii "en") 2 .function) := by
  intro h
  have hfirst := (h.found _).mp rfl
  exact absurd hfirst.1.1 (by decide)

end SalernOS.Init.Names
