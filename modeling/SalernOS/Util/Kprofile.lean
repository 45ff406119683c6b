import Mathlib.Order.WithBot
import SalernOS.Lib.Bytes
import SalernOS.Libc.Qsort

/-! # `util-salernos/src/kprofile.c`

The rows of the device are sorted as bytes, by one of four comparators, and
printed in that order. The quotient of two numbers as a `float` is an arbitrary
value of a linear order.
-/
namespace SalernOS.Util.Kprofile
open SalernOS.Lib SalernOS.Libc.Qsort

/-- `struct devprofile_fn_data`. -/
structure FnData where
  name : List UInt8
  realTimeNs : Nat
  cpuTimeNs : Nat
  numCalls : Nat
deriving DecidableEq, Repr

/-- `sizeof(struct devprofile_fn_data)`. -/
def sizeofFnData : Nat := 88

/-- A field of eight bytes. -/
def longAt (b : Block sizeofFnData) (offset : Nat) : Nat :=
  ofBytes ((b.toList.drop offset).take 8)

def fnData (b : Block sizeofFnData) : FnData :=
  ⟨b.toList.take 64, longAt b 64, longAt b 72, longAt b 80⟩

/-! ## The comparators -/

/-- The larger key comes first. -/
def descending {κ : Type} [LinearOrder κ] (key : FnData → κ) (a b : FnData) : Int :=
  if key a > key b then -1
  else if key a < key b then 1
  else 0

def comparatorReal : FnData → FnData → Int := descending FnData.realTimeNs
def comparatorCpu : FnData → FnData → Int := descending FnData.cpuTimeNs
def comparatorCalls : FnData → FnData → Int := descending FnData.numCalls

section
variable {L : Type} [LinearOrder L] (ratio : Nat → Nat → L)

/-- `(float)cpu_time_ns / num_calls`. -/
def divide (d : FnData) : Except Trap L :=
  if d.numCalls = 0 then .error .divideByZero else .ok (ratio d.cpuTimeNs d.numCalls)

def comparatorRatio (a b : FnData) : Except Trap Int := do
  if 0 = a.numCalls ∧ 0 = b.numCalls then return 0
  if 0 = a.numCalls then return 1
  if 0 = b.numCalls then return -1
  let p1 ← divide ratio a
  let p2 ← divide ratio b
  if p1 > p2 then return -1
  else if p1 < p2 then return 1
  else return 0

/-- What `g_comparator` points to. -/
inductive Comparator where
  | real
  | cpu
  | calls
  | ratio
deriving DecidableEq, Repr

def compareBy (c : Comparator) (a b : FnData) : Except Trap Int :=
  match c with
  | .real => .ok (comparatorReal a b)
  | .cpu => .ok (comparatorCpu a b)
  | .calls => .ok (comparatorCalls a b)
  | .ratio => comparatorRatio ratio a b

/-- The comparator behind its pointers to `void`. -/
def compareBytes (c : Comparator) (a b : Block sizeofFnData) : Except Trap Int :=
  compareBy ratio c (fnData a) (fnData b)

/-! ## The program -/

/-- A line of the table; without calls the last column is zero. -/
def printRow (d : FnData) : Except Trap (FnData × Option L) :=
  if 0 ≠ d.numCalls then (divide ratio d).map fun q => (d, some q) else .ok (d, none)

def printFunctionTable : List FnData → Except Trap (List (FnData × Option L))
  | [] => return []
  | d :: data => do
    let line ← printRow ratio d
    let lines ← printFunctionTable data
    return line :: lines

/-- What the device answers about functions, or about system calls: how many
there are, and the rows of so many. -/
structure Answers where
  num : Option Nat
  rows : (n : Nat) → Option (Block (n * sizeofFnData))

structure Device where
  opens : Bool
  mallocOk : Bool
  functions : Answers
  syscalls : Answers

def rowsOf {count : Nat} (mem : Block (count * sizeofFnData)) : List FnData :=
  (elements mem).toList.map fnData

/-- `none` is `exit(EXIT_FAILURE)`. -/
def profile (c : Comparator) (dev : Device) (answers : Answers) :
    Except Trap (Option (List (FnData × Option L))) := do
  if !dev.opens then return none
  let some num := answers.num | return none
  if !dev.mallocOk then return none
  let some data := answers.rows num | return none
  let data ← qsort num (compareBytes ratio c) data
  let lines ← printFunctionTable ratio (rowsOf data)
  return some lines

def profileFunctions (c : Comparator) (dev : Device) := profile ratio c dev dev.functions
def profileSyscalls (c : Comparator) (dev : Device) := profile ratio c dev dev.syscalls

end

/-! ## The comparators are total preorders -/

/-- Less and greater are opposite, and not to be greater is reflexive, total and
transitive. -/
structure TotalPreorder (cmp : FnData → FnData → Int) : Prop where
  neg : ∀ a b, cmp b a = -cmp a b
  refl : ∀ a, cmp a a ≤ 0
  total : ∀ a b, cmp a b ≤ 0 ∨ cmp b a ≤ 0
  trans : ∀ a b c, cmp a b ≤ 0 → cmp b c ≤ 0 → cmp a c ≤ 0

section
variable {κ : Type} [LinearOrder κ] (key : FnData → κ)

theorem descending_nonpos_iff (a b : FnData) : descending key a b ≤ 0 ↔ key b ≤ key a := by
  unfold descending
  rcases lt_trichotomy (key a) (key b) with h | h | h
  · rw [if_neg (lt_asymm h), if_pos h]
    exact iff_of_false (by decide) (not_le.mpr h)
  · rw [if_neg (h ▸ lt_irrefl _), if_neg (h ▸ lt_irrefl _)]
    exact iff_of_true (le_refl _) h.ge
  · rw [if_pos h]
    exact iff_of_true (by decide) h.le

theorem descending_neg (a b : FnData) : descending key b a = -descending key a b := by
  unfold descending
  rcases lt_trichotomy (key a) (key b) with h | h | h
  · rw [if_pos h, if_neg (lt_asymm h), if_pos h]
  · rw [h]
    simp only [gt_iff_lt, lt_self_iff_false, if_false, neg_zero]
  · rw [if_neg (lt_asymm h), if_pos h, if_pos h]
    rfl

theorem descending_preorder : TotalPreorder (descending key) where
  neg := descending_neg key
  refl a := (descending_nonpos_iff key a a).mpr le_rfl
  total a b := by
    simp only [descending_nonpos_iff]
    exact le_total (key b) (key a)
  trans a b c := by
    simp only [descending_nonpos_iff]
    exact fun hab hbc => hbc.trans hab

end

section
variable {L : Type} [LinearOrder L] (ratio : Nat → Nat → L)

/-- Rows without calls are below all quotients. -/
def ratioKey (d : FnData) : WithBot L :=
  if d.numCalls = 0 then ⊥ else (ratio d.cpuTimeNs d.numCalls : L)

/-- The cases of the comparator are those of the order with a least element, and
it divides by no zero. -/
theorem comparatorRatio_eq (a b : FnData) :
    comparatorRatio ratio a b = .ok (descending (ratioKey ratio) a b) := by
  unfold comparatorRatio descending ratioKey divide
  by_cases ha : a.numCalls = 0
  · by_cases hb : b.numCalls = 0
    · rw [if_pos ⟨ha.symm, hb.symm⟩]
      simp only [ha, hb, if_true, gt_iff_lt, lt_self_iff_false, if_false]
      rfl
    · rw [if_neg fun h => hb h.2.symm, if_pos ha.symm, if_pos ha, if_neg hb]
      rw [if_neg not_lt_bot, if_pos (WithBot.bot_lt_coe _)]
      rfl
  · by_cases hb : b.numCalls = 0
    · rw [if_neg fun h => ha h.1.symm, if_neg (Ne.symm ha), if_pos hb.symm, if_neg ha, if_pos hb]
      rw [if_pos (WithBot.bot_lt_coe _)]
      rfl
    · rw [if_neg fun h => ha h.1.symm, if_neg (Ne.symm ha), if_neg (Ne.symm hb)]
      simp only [if_neg ha, if_neg hb, gt_iff_lt, WithBot.coe_lt_coe]
      change (if ratio b.cpuTimeNs b.numCalls < ratio a.cpuTimeNs a.numCalls then _ else
        if ratio a.cpuTimeNs a.numCalls < ratio b.cpuTimeNs b.numCalls then _ else _) = _
      split
      · rfl
      · split <;> rfl

/-- A row without calls is not in front of a row with calls. -/
theorem numCalls_of_ratioKey_le {a b : FnData} (h : ratioKey ratio b ≤ ratioKey ratio a)
    (ha : a.numCalls = 0) : b.numCalls = 0 := by
  unfold ratioKey at h
  rw [if_pos ha] at h
  by_contra hb
  rw [if_neg hb] at h
  exact absurd h (not_le.mpr (WithBot.bot_lt_coe _))

/-- What the comparators have in common. -/
theorem compareBy_spec (c : Comparator) : ∃ cmp : FnData → FnData → Int,
    (∀ a b, compareBy ratio c a b = .ok (cmp a b)) ∧ TotalPreorder cmp ∧
    (c = .ratio → ∀ a b, cmp a b ≤ 0 → a.numCalls = 0 → b.numCalls = 0) := by
  cases c with
  | real => exact ⟨comparatorReal, fun _ _ => rfl, descending_preorder _, nofun⟩
  | cpu => exact ⟨comparatorCpu, fun _ _ => rfl, descending_preorder _, nofun⟩
  | calls => exact ⟨comparatorCalls, fun _ _ => rfl, descending_preorder _, nofun⟩
  | ratio =>
    refine ⟨descending (ratioKey ratio), comparatorRatio_eq ratio, descending_preorder _,
      fun _ a b hab => numCalls_of_ratioKey_le ratio ?_⟩
    exact (descending_nonpos_iff _ a b).mp hab

end

/-! ## What is printed -/

/-- The rows of one list in the order of the comparator. -/
structure Sorted (cmp : FnData → FnData → Int) (c : Comparator) (rows sorted : List FnData) :
    Prop where
  perm : sorted.Perm rows
  order : sorted.Pairwise fun a b => cmp a b ≤ 0
  zerosLast : c = .ratio → sorted.Pairwise fun a b => a.numCalls = 0 → b.numCalls = 0

/-- The last column divides by no zero either. -/
theorem printFunctionTable_ok {L : Type} (ratio : Nat → Nat → L) : ∀ data : List FnData,
    ∃ lines, printFunctionTable ratio data = .ok lines ∧ lines.map Prod.fst = data
  | [] => ⟨[], rfl, rfl⟩
  | d :: data => by
    obtain ⟨lines, hlines, hfst⟩ := printFunctionTable_ok ratio data
    have hrow : ∃ q, printRow ratio d = .ok (d, q) := by
      unfold printRow divide
      by_cases hd : d.numCalls = 0
      · exact ⟨none, if_neg fun h => h hd.symm⟩
      · rw [if_pos (Ne.symm hd), if_neg hd]
        exact ⟨some _, rfl⟩
    obtain ⟨q, hq⟩ := hrow
    refine ⟨(d, q) :: lines, ?_, congrArg (d :: ·) hfst⟩
    rw [printFunctionTable, hq, hlines]
    rfl

section
variable {cmp : FnData → FnData → Int}

theorem TotalPreorder.orders (h : TotalPreorder cmp) :
    ExchangeSort.Orders (belongsBehind fun a b => cmp (fnData a) (fnData b)) where
  total a b := by
    simp only [belongsBehind, decide_eq_true_eq, decide_eq_false_iff_not, h.neg (fnData a)]
    omega
  trans a b c := by
    simp only [belongsBehind, decide_eq_false_iff_not, not_lt]
    exact h.trans _ _ _

variable {L : Type} [LinearOrder L] (ratio : Nat → Nat → L)

/-- The rows as `qsort` leaves them. -/
theorem qsort_sorted {c : Comparator} (hcmp : ∀ a b, compareBy ratio c a b = .ok (cmp a b))
    (hpre : TotalPreorder cmp)
    (hzero : c = .ratio → ∀ a b, cmp a b ≤ 0 → a.numCalls = 0 → b.numCalls = 0) {count : Nat}
    (mem : Block (count * sizeofFnData)) :
    ∃ mem', qsort count (compareBytes ratio c) mem = .ok mem' ∧
      Sorted cmp c (rowsOf mem) (rowsOf mem') := by
  have hbytes : ∀ a b, compareBytes ratio c a b = .ok (cmp (fnData a) (fnData b)) :=
    fun a b => hcmp (fnData a) (fnData b)
  obtain ⟨mem', hsort, helems⟩ := qsort_elements hbytes mem
  have horder : (rowsOf mem').Pairwise fun a b => cmp a b ≤ 0 := by
    rw [rowsOf, List.pairwise_map, helems]
    refine (ExchangeSort.sort_pairwise hpre.orders (elements mem)).imp fun h => ?_
    exact not_lt.mp (of_decide_eq_false h)
  refine ⟨mem', hsort, ?_, horder, fun hc => horder.imp fun h => hzero hc _ _ h⟩
  rw [rowsOf, rowsOf, helems]
  exact (ExchangeSort.sort_perm _).map fnData

/-- The program does not trap, and the table it prints, if it prints one, holds
the rows of the device in the order of the comparator. -/
def PrintsSorted (cmp : FnData → FnData → Int) (c : Comparator) (answers : Answers)
    (r : Except Trap (Option (List (FnData × Option L)))) : Prop :=
  ∃ printed, r = .ok printed ∧ ∀ lines ∈ printed, ∃ n data,
    answers.num = some n ∧ answers.rows n = some data ∧
      Sorted cmp c (rowsOf data) (lines.map Prod.fst)

theorem profile_sorted {c : Comparator} (hcmp : ∀ a b, compareBy ratio c a b = .ok (cmp a b))
    (hpre : TotalPreorder cmp)
    (hzero : c = .ratio → ∀ a b, cmp a b ≤ 0 → a.numCalls = 0 → b.numCalls = 0) (dev : Device)
    (answers : Answers) : PrintsSorted cmp c answers (profile ratio c dev answers) := by
  have failure : PrintsSorted cmp c answers (.ok (none : Option (List (FnData × Option L)))) :=
    ⟨none, rfl, nofun⟩
  unfold profile
  cases dev.opens with
  | false => exact failure
  | true =>
    cases hnum : answers.num with
    | none => exact failure
    | some num =>
      cases dev.mallocOk with
      | false => exact failure
      | true =>
        cases hrows : answers.rows num with
        | none =>
          simp only [hrows]
          exact failure
        | some data =>
          obtain ⟨data', hsort, hsorted⟩ := qsort_sorted ratio hcmp hpre hzero data
          obtain ⟨lines, hlines, hfst⟩ := printFunctionTable_ok ratio (rowsOf data')
          simp only [hrows]
          refine ⟨some lines, ?_, fun l hl => ?_⟩
          · change Except.bind (qsort num _ data) _ = _
            rw [hsort]
            change Except.bind (printFunctionTable ratio _) _ = _
            rw [hlines]
            rfl
          · obtain rfl := Option.some.inj hl
            refine ⟨num, data, hnum, hrows, ?_⟩
            rw [hfst]
            exact hsorted

/-- **kprofile prints a sorted permutation.** Each comparator is a total
preorder that never divides by zero; `qsort` leaves the rows of any block in its
order, and so they are printed. -/
theorem kprofile_sorted (c : Comparator) : ∃ cmp : FnData → FnData → Int,
    (∀ a b, compareBy ratio c a b = .ok (cmp a b)) ∧ TotalPreorder cmp ∧
    (∀ (count : Nat) (mem : Block (count * sizeofFnData)),
      ∃ mem', qsort count (compareBytes ratio c) mem = .ok mem' ∧
        Sorted cmp c (rowsOf mem) (rowsOf mem')) ∧
    ∀ dev : Device, PrintsSorted cmp c dev.functions (profileFunctions ratio c dev) ∧
      PrintsSorted cmp c dev.syscalls (profileSyscalls ratio c dev) := by
  obtain ⟨cmp, hcmp, hpre, hzero⟩ := compareBy_spec ratio c
  refine ⟨cmp, hcmp, hpre, fun count mem => qsort_sorted ratio hcmp hpre hzero mem, fun dev => ?_⟩
  exact ⟨profile_sorted ratio hcmp hpre hzero dev dev.functions,
    profile_sorted ratio hcmp hpre hzero dev dev.syscalls⟩

end

end SalernOS.Util.Kprofile
