import SalernOS.Lib.Bisection
import SalernOS.Libc.Qsort

/-! # `bsearch` of `mlibc-salernos/stdlib.patched.cpp`

The search looks at elements of a block through a comparator, which may trap,
and is a bisection of their indices.
-/
namespace SalernOS.Libc.Bsearch
open SalernOS.Lib SalernOS.Libc.Qsort

/-- What `bsearch` returns, as an offset from `base`. -/
inductive Outcome where
  | element (offset : Nat)
  | nullptr
  /-- `__ensure(i == j)` -/
  | panicked
deriving DecidableEq, Repr

section
variable {κ : Type} {m size : Nat} (compare : κ → Block size → Except Trap Int) (key : κ)
  (mem : Block m)

/-- The loop, with the indices of the elements that are compared. -/
def searchLoop (i j : Nat) : Except Trap (Outcome × List Nat) :=
  if i < j then do
    let k := (j - i) / 2
    let offset := (i + k) * size
    let res ← compare key (← element size offset mem)
    if res < 0 then
      let (r, seen) ← searchLoop i (i + k)
      return (r, (i + k) :: seen)
    else if res > 0 then
      let (r, seen) ← searchLoop (i + k + 1) j
      return (r, (i + k) :: seen)
    else return (.element offset, [i + k])
  else if i = j then return (.nullptr, [])
  else return (.panicked, [])
termination_by j - i

def bsearch (count : Nat) : Except Trap (Outcome × List Nat) :=
  searchLoop compare key mem 0 count

end

/-! ## The loop as a bisection -/

section
variable {κ : Type} {count size : Nat} {compare : κ → Block size → Except Trap Int}
  {cmp : κ → Block size → Int} {key : κ} {mem : Block (count * size)}

/-- How the key compares to the element at an index. -/
def probe (cmp : κ → Block size → Int) (key : κ) (mem : Block (count * size)) (i : Nat) : Int :=
  if h : i < count then cmp key ((elements mem).get ⟨i, h⟩) else 0

/-- What an index is returned as. -/
def outcome (size : Nat) : Option Nat → Outcome
  | some i => .element (i * size)
  | none => .nullptr

/-- One round of the loop. -/
theorem searchLoop_round (hcmp : ∀ b, compare key b = .ok (cmp key b)) {i j : Nat} (hij : i < j)
    (hj : j ≤ count) : searchLoop compare key mem i j =
      let m := i + (j - i) / 2
      if probe cmp key mem m < 0 then
        (searchLoop compare key mem i m).map fun (r, seen) => (r, m :: seen)
      else if 0 < probe cmp key mem m then
        (searchLoop compare key mem (m + 1) j).map fun (r, seen) => (r, m :: seen)
      else .ok (.element (m * size), [m]) := by
  have hm : i + (j - i) / 2 < count := by omega
  have helement : element size ((i + (j - i) / 2) * size) mem =
      .ok ((elements mem).get ⟨i + (j - i) / 2, hm⟩) := element_eq mem ⟨i + (j - i) / 2, hm⟩
  have hprobe : probe cmp key mem (i + (j - i) / 2) =
      cmp key ((elements mem).get ⟨i + (j - i) / 2, hm⟩) := dif_pos hm
  rw [searchLoop, if_pos hij]
  simp only [helement]
  show (compare key _).bind _ = _
  rw [hcmp, ← hprobe]
  show (if probe cmp key mem (i + (j - i) / 2) < 0 then _ else _) = _
  split
  · cases searchLoop compare key mem i (i + (j - i) / 2) <;> rfl
  · show (if 0 < probe cmp key mem (i + (j - i) / 2) then _ else _) = _
    split
    · cases searchLoop compare key mem (i + (j - i) / 2 + 1) j <;> rfl
    · rfl

theorem searchLoop_eq (hcmp : ∀ b, compare key b = .ok (cmp key b)) (i j : Nat) (hij : i ≤ j)
    (hj : j ≤ count) : searchLoop compare key mem i j =
      .ok (outcome size (bisect (probe cmp key mem) i j).1, (bisect (probe cmp key mem) i j).2) := by
  fun_induction bisect (probe cmp key mem) i j with
  | case1 i j hlt m hneg ih =>
    rw [searchLoop_round hcmp hlt hj]
    simp only [m] at hneg ih ⊢
    rw [if_pos hneg, ih (by omega) (by omega)]
    rfl
  | case2 i j hlt m hneg hpos ih =>
    rw [searchLoop_round hcmp hlt hj]
    simp only [m] at hneg hpos ih ⊢
    rw [if_neg hneg, if_pos hpos, ih (by omega) hj]
    rfl
  | case3 i j hlt m hneg hpos =>
    rw [searchLoop_round hcmp hlt hj]
    simp only [m] at hneg hpos ⊢
    rw [if_neg hneg, if_neg hpos]
    rfl
  | case4 i j hlt =>
    rw [searchLoop, if_neg hlt, if_pos (by omega)]
    rfl

/-- What a search does, whatever the order of the elements. -/
structure Searches (cmp : κ → Block size → Int) (key : κ) (mem : Block (count * size))
    (r : Outcome) (seen : List Nat) : Prop where
  inside : ∀ i ∈ seen, i < count
  few : seen.length ≤ count.size
  found : ∀ offset, r = .element offset →
    ∃ i : Fin count, offset = i * size ∧ cmp key ((elements mem).get i) = 0
  noPanic : r ≠ .panicked

theorem bsearch_searches (hcmp : ∀ b, compare key b = .ok (cmp key b)) :
    ∃ r seen, bsearch compare key mem count = .ok (r, seen) ∧ Searches cmp key mem r seen := by
  refine ⟨_, _, searchLoop_eq hcmp 0 count (Nat.zero_le _) (Nat.le_refl _), ?_⟩
  refine ⟨fun i hi => (bisect_probes _ 0 count i hi).2, bisect_length _ 0 count, fun offset h => ?_, ?_⟩
  · cases hb : (bisect (probe cmp key mem) 0 count).1 with
    | none => rw [hb] at h; cases h
    | some i =>
      rw [hb] at h
      obtain ⟨-, hi, hzero⟩ := bisect_found (probe cmp key mem) 0 count i hb
      rw [probe, dif_pos hi] at hzero
      exact ⟨⟨i, hi⟩, (Outcome.element.inj h).symm, hzero⟩
  · cases (bisect (probe cmp key mem) 0 count).1 <;> exact nofun

/-- What a search misses is not there, if the elements are in order. -/
theorem bsearch_complete (hcmp : ∀ b, compare key b = .ok (cmp key b))
    (hfall : Falling (probe cmp key mem) count) {seen : List Nat}
    (h : bsearch compare key mem count = .ok (.nullptr, seen)) (i : Fin count) :
    cmp key ((elements mem).get i) ≠ 0 := by
  rw [bsearch, searchLoop_eq hcmp 0 count (Nat.zero_le _) (Nat.le_refl _)] at h
  have hnone : (bisect (probe cmp key mem) 0 count).1 = none := by
    cases hb : (bisect (probe cmp key mem) 0 count).1 with
    | none => rfl
    | some i =>
      rw [hb] at h
      cases congrArg Prod.fst (Except.ok.inj h)
  have hprobe := hfall.bisect 0 count (Nat.le_refl _) hnone i (Nat.zero_le _) i.isLt
  rwa [probe, dif_pos i.isLt] at hprobe

end

/-! ## Behind `qsort` -/

/-- What a comparator has to be for `qsort`: `cmp b a` has the opposite sign of
`cmp a b`, and not to be greater is transitive. -/
structure Orders {β : Type} (cmp : β → β → Int) : Prop where
  neg : ∀ a b, cmp b a < 0 ↔ 0 < cmp a b
  trans : ∀ a b c, cmp a b ≤ 0 → cmp b c ≤ 0 → cmp a c ≤ 0

section
variable {count size : Nat} {compare : Block size → Block size → Except Trap Int}
  {cmp : Block size → Block size → Int}

theorem Orders.exchange (h : Orders cmp) : ExchangeSort.Orders (belongsBehind cmp) where
  total a b := by
    have := h.neg a b
    simp only [belongsBehind, decide_eq_true_eq, decide_eq_false_iff_not]
    omega
  trans a b c := by
    simp only [belongsBehind, decide_eq_false_iff_not, Int.not_lt]
    exact h.trans a b c

theorem Orders.falling (h : Orders cmp) {mem : Block (count * size)} (key : Block size)
    (hsorted : (elements mem).toList.Pairwise fun a b => cmp a b ≤ 0) :
    Falling (probe cmp key mem) count := by
  have horder (a b : Nat) (hab : a ≤ b) (hb : b < count) :
      cmp ((elements mem).get ⟨a, by omega⟩) ((elements mem).get ⟨b, hb⟩) ≤ 0 := by
    rcases Nat.lt_or_eq_of_le hab with hlt | rfl
    · have := List.pairwise_iff_getElem.mp hsorted a b (by rw [Vector.length_toList]; omega)
        (by rw [Vector.length_toList]; exact hb) hlt
      rwa [Vector.getElem_toList, Vector.getElem_toList] at this
    · have := h.neg ((elements mem).get ⟨a, hb⟩) ((elements mem).get ⟨a, hb⟩)
      omega
  refine ⟨fun a b hab hb ha => ?_, fun a b hab hb hpos => ?_⟩
  · rw [probe, dif_pos hb]
    rw [probe, dif_pos (by omega)] at ha
    by_contra hge
    have hbkey := h.neg ((elements mem).get ⟨b, hb⟩) key
    have hakey := h.neg ((elements mem).get ⟨a, by omega⟩) key
    have := h.trans _ _ key (horder a b hab hb) (by omega)
    omega
  · rw [probe, dif_pos (by omega)]
    rw [probe, dif_pos hb] at hpos
    by_contra hle
    have := h.trans key _ _ (by omega) (horder a b hab hb)
    omega

/-- **Sorting, then searching.** In a block that `qsort` has sorted, `bsearch`
finds an element exactly if the block held one that compares equal, after at
most as many comparisons as the number of elements has binary digits. -/
theorem bsearch_qsort (hcmp : ∀ a b, compare a b = .ok (cmp a b)) (h : Orders cmp)
    (mem : Block (count * size)) (key : Block size) :
    ∃ sorted r seen, qsort count compare mem = .ok sorted ∧
      bsearch compare key sorted count = .ok (r, seen) ∧ Searches cmp key sorted r seen ∧
      (r = .nullptr ↔ ∀ e ∈ (elements mem).toList, cmp key e ≠ 0) := by
  obtain ⟨sorted, hsort, helems⟩ := qsort_elements hcmp mem
  obtain ⟨r, seen, hsearch, hspec⟩ : ∃ r seen, bsearch compare key sorted count = .ok (r, seen) ∧
      Searches cmp key sorted r seen := bsearch_searches fun b => hcmp key b
  refine ⟨sorted, r, seen, hsort, hsearch, hspec, ?_⟩
  have hperm : (elements sorted).toList.Perm (elements mem).toList :=
    helems ▸ ExchangeSort.sort_perm (elements mem)
  have hsorted : (elements sorted).toList.Pairwise fun a b => cmp a b ≤ 0 := by
    rw [helems]
    exact (ExchangeSort.sort_pairwise h.exchange (elements mem)).imp fun hab =>
      Int.not_lt.mp (of_decide_eq_false hab)
  constructor
  · rintro rfl e he
    obtain ⟨i, hi, rfl⟩ := List.getElem_of_mem (hperm.mem_iff.mpr he)
    rw [Vector.getElem_toList]
    exact bsearch_complete (fun b => hcmp key b) (h.falling key hsorted) hsearch
      ⟨i, by simpa using hi⟩
  · intro hmiss
    cases r with
    | nullptr => rfl
    | panicked => exact absurd rfl hspec.noPanic
    | element offset =>
      obtain ⟨i, -, hzero⟩ := hspec.found offset rfl
      refine absurd hzero (hmiss _ (hperm.mem_iff.mp ?_))
      show (elements sorted)[i.val] ∈ _
      rw [← Vector.getElem_toList (h := by simp)]
      exact List.getElem_mem _

end

/-- The difference of two bytes. -/
def byteDifference (a b : Block 1) : Int := ((a.get 0).toNat : Int) - (b.get 0).toNat

theorem byteDifference_orders : Orders byteDifference where
  neg a b := by simp only [byteDifference]; omega
  trans a b c := by simp only [byteDifference]; omega

def threeBytes : Block (3 * 1) := #v[7, 1, 4]

theorem three_searched : ∃ sorted r seen,
    qsort 3 (fun a b => .ok (byteDifference a b)) threeBytes = .ok sorted ∧
      bsearch (fun a b => .ok (byteDifference a b)) #v[4] sorted 3 = .ok (r, seen) ∧
      Searches byteDifference #v[4] sorted r seen ∧
      (r = .nullptr ↔ ∀ e ∈ (elements threeBytes).toList, byteDifference #v[4] e ≠ 0) :=
  bsearch_qsort (fun _ _ => rfl) byteDifference_orders threeBytes #v[4]

end SalernOS.Libc.Bsearch
