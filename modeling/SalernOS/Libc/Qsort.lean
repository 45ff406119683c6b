import SalernOS.Lib.ExchangeSort

/-! # `qsort` of `mlibc-salernos/stdlib.patched.cpp`

The block is bytes, and an element of it is swapped byte by byte. The
comparator sees the bytes of two elements and may trap.
-/
namespace SalernOS.Libc.Qsort
open SalernOS.Lib

inductive Trap where
  | outOfBounds
  | divideByZero
deriving DecidableEq, Repr

abbrev Block (size : Nat) := Vector UInt8 size

/-- What a pointer to an element points to. -/
def element {m : Nat} (size u : Nat) (mem : Block m) : Except Trap (Block size) :=
  if h : u + size ≤ m then .ok (Vector.ofFn fun k => mem.get ⟨u + k, by omega⟩)
  else .error .outOfBounds

/-- The bytes of `u` and `v` from the `k`-th on, for the remaining number of rounds. -/
def swapLoop {m : Nat} (u v : Nat) : Nat → Nat → Block m → Except Trap (Block m)
  | 0, _, mem => return mem
  | rounds + 1, k, mem =>
    if h : u + k < m ∧ v + k < m then
      swapLoop u v rounds (k + 1) (mem.swap (u + k) (v + k) h.1 h.2)
    else .error .outOfBounds

section
variable {γ : Type} {m size : Nat} (compare : Block size → Block size → γ → Except Trap Int) (arg : γ)

/-- The loop over `j`. -/
def innerLoop (i : Nat) : Nat → Nat → Block m → Except Trap (Block m)
  | 0, _, mem => return mem
  | rounds + 1, j, mem => do
    let u := i * size
    let v := j * size
    if (← compare (← element size u mem) (← element size v mem) arg) ≤ 0 then
      innerLoop i rounds (j + 1) mem
    else
      let mem ← swapLoop u v size 0 mem
      innerLoop i rounds (j + 1) mem

/-- The loop over `i`. -/
def outerLoop (count : Nat) : Nat → Nat → Block m → Except Trap (Block m)
  | 0, _, mem => return mem
  | rounds + 1, i, mem => do
    let mem ← innerLoop compare arg i (count - (i + 1)) (i + 1) mem
    outerLoop count rounds (i + 1) mem

def qsortR (count : Nat) (mem : Block m) : Except Trap (Block m) :=
  outerLoop compare arg count count 0 mem

end

def qsortCallback {size : Nat} (a b : Block size)
    (arg : Block size → Block size → Except Trap Int) : Except Trap Int := arg a b

def qsort {m size : Nat} (count : Nat) (compare : Block size → Block size → Except Trap Int)
    (mem : Block m) : Except Trap (Block m) :=
  qsortR qsortCallback compare count mem

/-! ## The elements of a block -/

variable {count size : Nat}

theorem index_lt {i k : Nat} (hi : i < count) (hk : k < size) : i * size + k < count * size := by
  have hrow : (i + 1) * size ≤ count * size := Nat.mul_le_mul_right size hi
  rw [Nat.succ_mul] at hrow
  omega

def elements (mem : Block (count * size)) : Vector (Block size) count :=
  Vector.ofFn fun i => Vector.ofFn fun k => mem.get ⟨i * size + k, index_lt i.isLt k.isLt⟩

theorem getElem_elements (mem : Block (count * size)) {i k : Nat} (hi : i < count)
    (hk : k < size) : some ((elements mem)[i])[k] = mem[i * size + k]? := by
  rw [Vector.getElem?_eq_getElem (index_lt hi hk)]
  simp only [elements, Vector.getElem_ofFn]
  rfl

theorem element_eq (mem : Block (count * size)) (i : Fin count) :
    element size (i * size) mem = .ok ((elements mem).get i) := by
  have hlast : i * size + size ≤ count * size := by
    rw [← Nat.succ_mul]
    exact Nat.mul_le_mul_right size i.isLt
  unfold element
  rw [dif_pos hlast]
  change _ = Except.ok (elements mem)[i.val]
  simp only [elements, Vector.getElem_ofFn]

/-- Blocks with the same bytes at all places of an element have it in common. -/
theorem elements_ext {mem : Block (count * size)} {es : Vector (Block size) count}
    (h : ∀ i (hi : i < count) k (hk : k < size), mem[i * size + k]? = some (es[i])[k]) :
    elements mem = es := by
  refine Vector.ext fun i hi => Vector.ext fun k hk => ?_
  exact Option.some.inj ((getElem_elements mem hi hk).trans (h i hi k hk))

/-! ## A swap, byte by byte -/

/-- What is left to do at `k` swaps the bytes from there on, and nothing else. -/
theorem swapLoop_spec {m u v : Nat} (hu : u + size ≤ m) (hv : v + size ≤ m)
    (hdisjoint : u + size ≤ v ∨ v + size ≤ u) :
    ∀ (rounds k : Nat) (mem : Block m), k + rounds = size →
      ∃ mem', swapLoop u v rounds k mem = .ok mem' ∧
        (∀ x, k ≤ x → x < size → mem'[u + x]? = mem[v + x]? ∧ mem'[v + x]? = mem[u + x]?) ∧
        ∀ y, (∀ x, k ≤ x → x < size → y ≠ u + x ∧ y ≠ v + x) → mem'[y]? = mem[y]?
  | 0, k, mem, hk => ⟨mem, rfl, fun x hkx hx => absurd hx (by omega), fun _ _ => rfl⟩
  | rounds + 1, k, mem, hk => by
    have huk : u + k < m := by omega
    have hvk : v + k < m := by omega
    obtain ⟨mem', hrun, hswap, hframe⟩ := swapLoop_spec hu hv hdisjoint rounds (k + 1)
      (mem.swap (u + k) (v + k) huk hvk) (by omega)
    refine ⟨mem', ?_, fun x hkx hx => ?_, fun y hy => ?_⟩
    · rw [swapLoop, dif_pos ⟨huk, hvk⟩]
      exact hrun
    · rcases Nat.lt_or_eq_of_le hkx with hlt | rfl
      · obtain ⟨hux, hvx⟩ := hswap x hlt hx
        rw [hux, hvx, Vector.getElem?_swap, Vector.getElem?_swap]
        exact ⟨by rw [if_neg (by omega), if_neg (by omega)],
          by rw [if_neg (by omega), if_neg (by omega)]⟩
      · rw [hframe (u + k) (by omega), hframe (v + k) (by omega), Vector.getElem?_swap,
          Vector.getElem?_swap, Vector.getElem?_eq_getElem huk, Vector.getElem?_eq_getElem hvk]
        exact ⟨by rw [if_neg (by omega), if_pos rfl], by rw [if_pos rfl]⟩
    · obtain ⟨hyu, hyv⟩ := hy k (Nat.le_refl k) (by omega)
      rw [hframe y fun x hkx hx => hy x (Nat.le_of_succ_le hkx) hx, Vector.getElem?_swap,
        if_neg (Ne.symm hyv), if_neg (Ne.symm hyu)]

theorem mul_add_inj {i j k x : Nat} (hk : k < size) (hx : x < size)
    (h : i * size + k = j * size + x) : i = j ∧ k = x := by
  have hpos : 0 < size := Nat.lt_of_le_of_lt (Nat.zero_le k) hk
  have hi : (i * size + k) / size = i := by
    rw [Nat.add_comm, Nat.add_mul_div_right _ _ hpos, Nat.div_eq_of_lt hk, Nat.zero_add]
  have hj : (j * size + x) / size = j := by
    rw [Nat.add_comm, Nat.add_mul_div_right _ _ hpos, Nat.div_eq_of_lt hx, Nat.zero_add]
  have hij : i = j := hi.symm.trans ((congrArg (· / size) h).trans hj)
  subst hij
  exact ⟨rfl, Nat.add_left_cancel h⟩

/-- The loop swaps two elements. -/
theorem swapLoop_elements (mem : Block (count * size)) {i j : Fin count} (hij : i < j) :
    ∃ mem', swapLoop (i * size) (j * size) size 0 mem = .ok mem' ∧
      elements mem' = (elements mem).swap i j := by
  have hu : i * size + size ≤ j * size := by
    rw [← Nat.succ_mul]
    exact Nat.mul_le_mul_right size hij
  have hv : j * size + size ≤ count * size := by
    rw [← Nat.succ_mul]
    exact Nat.mul_le_mul_right size j.isLt
  obtain ⟨mem', hrun, hswap, hframe⟩ := swapLoop_spec (Nat.le_trans (Nat.le_add_right _ _)
    (Nat.le_trans (Nat.add_le_add_right hu size) hv)) hv (.inl hu) size 0 mem (Nat.zero_add size)
  refine ⟨mem', hrun, elements_ext fun a ha k hk => ?_⟩
  obtain ⟨hleft, hright⟩ := hswap k (Nat.zero_le k) hk
  rw [Vector.getElem_swap]
  split
  · next hai =>
    have hbyte : mem'[a * size + k]? = mem[j * size + k]? := hai ▸ hleft
    exact hbyte.trans (getElem_elements mem j.isLt hk).symm
  · next hai =>
    split
    · next haj =>
      have hbyte : mem'[a * size + k]? = mem[i * size + k]? := haj ▸ hright
      exact hbyte.trans (getElem_elements mem i.isLt hk).symm
    · next haj =>
      rw [hframe]
      · exact (getElem_elements mem ha hk).symm
      · intro x _ hx
        exact ⟨fun h => hai (mul_add_inj hk hx h).1, fun h => haj (mul_add_inj hk hx h).1⟩

/-! ## The loops -/

section
variable {γ : Type} {compare : Block size → Block size → γ → Except Trap Int} {arg : γ}
  {cmp : Block size → Block size → Int}

/-- What `qsort_r` swaps. -/
def belongsBehind (cmp : Block size → Block size → Int) (a b : Block size) : Bool :=
  decide (0 < cmp a b)

/-- One round of the loop over `j`, in terms of elements. -/
theorem innerLoop_succ (hcmp : ∀ a b, compare a b arg = .ok (cmp a b)) (i j : Fin count)
    (rounds : Nat) (mem : Block (count * size)) :
    innerLoop compare arg i (rounds + 1) j mem =
      if cmp ((elements mem).get i) ((elements mem).get j) ≤ 0 then
        innerLoop compare arg i rounds (j + 1) mem
      else (swapLoop (i * size) (j * size) size 0 mem).bind fun mem =>
        innerLoop compare arg i rounds (j + 1) mem := by
  rw [innerLoop, element_eq mem i, element_eq mem j]
  change Except.bind (compare _ _ arg) _ = _
  rw [hcmp]
  rfl

theorem innerLoop_elements (hcmp : ∀ a b, compare a b arg = .ok (cmp a b)) (i : Fin count) :
    ∀ (rounds j : Nat) (h : j + rounds = count) (mem : Block (count * size)), i.val < j →
      ∃ mem', innerLoop compare arg i rounds j mem = .ok mem' ∧
        elements mem' = ExchangeSort.pass (belongsBehind cmp) i rounds j h (elements mem)
  | 0, _, _, mem, _ => ⟨mem, rfl, rfl⟩
  | rounds + 1, j, h, mem, hij => by
    have hj : j < count := by omega
    have hround := innerLoop_succ hcmp i ⟨j, hj⟩ rounds mem
    rw [ExchangeSort.pass, ExchangeSort.exchange]
    by_cases hle : cmp ((elements mem).get i) ((elements mem).get ⟨j, hj⟩) ≤ 0
    · have htest : ¬ belongsBehind cmp ((elements mem).get i) ((elements mem).get ⟨j, hj⟩) = true := by
        rw [belongsBehind, decide_eq_true_eq]
        exact Int.not_lt.mpr hle
      rw [if_pos hle] at hround
      rw [hround, if_neg htest]
      exact innerLoop_elements hcmp i rounds (j + 1) (by omega) mem (Nat.lt_succ_of_lt hij)
    · obtain ⟨swapped, hswap, helems⟩ := swapLoop_elements mem (i := i) (j := ⟨j, hj⟩) hij
      have htest : belongsBehind cmp ((elements mem).get i) ((elements mem).get ⟨j, hj⟩) = true := by
        rw [belongsBehind, decide_eq_true_eq]
        exact Int.not_le.mp hle
      rw [if_neg hle, hswap] at hround
      rw [hround, if_pos htest, ← helems]
      exact innerLoop_elements hcmp i rounds (j + 1) (by omega) swapped (Nat.lt_succ_of_lt hij)

theorem outerLoop_elements (hcmp : ∀ a b, compare a b arg = .ok (cmp a b)) :
    ∀ (rounds i : Nat) (h : i + rounds = count) (mem : Block (count * size)),
      ∃ mem', outerLoop compare arg count rounds i mem = .ok mem' ∧
        elements mem' = ExchangeSort.passes (belongsBehind cmp) rounds i h (elements mem)
  | 0, _, _, mem => ⟨mem, rfl, rfl⟩
  | rounds + 1, i, h, mem => by
    have hi : i < count := by omega
    have hrounds : count - (i + 1) = rounds := by omega
    obtain ⟨passed, hpass, helems⟩ := innerLoop_elements hcmp ⟨i, hi⟩ rounds (i + 1) (by omega)
      mem (Nat.lt_succ_self i)
    rw [outerLoop, hrounds, hpass, ExchangeSort.passes, ← helems]
    exact outerLoop_elements hcmp rounds (i + 1) (by omega) passed

end

/-- On a block of elements that its comparator can compare, `qsort` is the
exchange sort of the elements. -/
theorem qsort_elements {compare : Block size → Block size → Except Trap Int}
    {cmp : Block size → Block size → Int} (hcmp : ∀ a b, compare a b = .ok (cmp a b))
    (mem : Block (count * size)) :
    ∃ mem', qsort count compare mem = .ok mem' ∧
      elements mem' = ExchangeSort.sort (belongsBehind cmp) (elements mem) := by
  have hcallback : ∀ a b, qsortCallback a b compare = .ok (cmp a b) := hcmp
  exact outerLoop_elements hcallback count 0 (Nat.zero_add count) mem

end SalernOS.Libc.Qsort
