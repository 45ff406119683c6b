import Mathlib.Data.List.Basic

/-! # Exchange sort

Each slot in turn is compared with the slots behind it, and swapped with those
that belong in front of it. Nothing is needed of the test but that not to pass
it is a total preorder; in particular elements may be equivalent.
-/
namespace SalernOS.Lib.ExchangeSort

section
variable {α : Type} {n : Nat} (gt : α → α → Bool)

def exchange (i j : Fin n) (v : Vector α n) : Vector α n :=
  if gt (v.get i) (v.get j) then v.swap i j else v

/-- Slot `i` against those from `j` on. -/
def pass (i : Fin n) : (rounds j : Nat) → j + rounds = n → Vector α n → Vector α n
  | 0, _, _, v => v
  | rounds + 1, j, h, v => pass i rounds (j + 1) (by omega) (exchange gt i ⟨j, by omega⟩ v)

/-- The slots from `i` on. -/
def passes : (rounds i : Nat) → i + rounds = n → Vector α n → Vector α n
  | 0, _, _, v => v
  | rounds + 1, i, h, v =>
    passes rounds (i + 1) (by omega) (pass gt ⟨i, by omega⟩ rounds (i + 1) (by omega) v)

def sort (v : Vector α n) : Vector α n := passes gt n 0 (Nat.zero_add n) v

end

variable {α : Type} {n : Nat} {gt : α → α → Bool}

/-! ## Nothing is lost -/

theorem exchange_perm (i j : Fin n) (v : Vector α n) :
    (exchange gt i j v).toList.Perm v.toList := by
  unfold exchange
  split
  · exact (Vector.swap_perm i.isLt j.isLt).toList
  · exact List.Perm.refl _

theorem pass_perm (i : Fin n) : ∀ (rounds j : Nat) (h : j + rounds = n) (v : Vector α n),
    (pass gt i rounds j h v).toList.Perm v.toList
  | 0, _, _, _ => List.Perm.refl _
  | rounds + 1, j, h, v => (pass_perm i rounds (j + 1) (by omega) _).trans (exchange_perm i _ v)

theorem passes_perm : ∀ (rounds i : Nat) (h : i + rounds = n) (v : Vector α n),
    (passes gt rounds i h v).toList.Perm v.toList
  | 0, _, _, _ => List.Perm.refl _
  | rounds + 1, i, h, v => (passes_perm rounds (i + 1) (by omega) _).trans (pass_perm _ _ _ _ v)

theorem sort_perm (v : Vector α n) : (sort gt v).toList.Perm v.toList :=
  passes_perm n 0 (Nat.zero_add n) v

/-! ## The order -/

/-- Not to pass the test is a total preorder. -/
structure Orders (gt : α → α → Bool) : Prop where
  total : ∀ a b, gt a b = true → gt b a = false
  trans : ∀ a b c, gt a b = false → gt b c = false → gt a c = false

theorem Orders.refl (h : Orders gt) (a : α) : gt a a = false := by
  cases haa : gt a a with
  | true => exact haa ▸ h.total a a haa
  | false => rfl

/-- The slots before `i` are in order, and nothing behind belongs before them. -/
def Placed (gt : α → α → Bool) (i : Nat) (v : Vector α n) : Prop :=
  ∀ a b : Fin n, a.val < i → a < b → gt (v.get a) (v.get b) = false

/-- Nothing between slot `i` and slot `j` belongs before slot `i`. -/
def Least (gt : α → α → Bool) (i : Fin n) (j : Nat) (v : Vector α n) : Prop :=
  ∀ b : Fin n, i < b → b.val < j → gt (v.get i) (v.get b) = false

theorem get_swap (v : Vector α n) (i j k : Fin n) :
    (v.swap i j).get k = if k = i then v.get j else if k = j then v.get i else v.get k := by
  change (v.swap i j)[k.val] = _
  rw [Vector.getElem_swap]
  simp only [Fin.ext_iff]
  rfl

/-- Slots that the exchange does not touch. -/
theorem get_exchange_of_ne {i j k : Fin n} (v : Vector α n) (hi : k ≠ i) (hj : k ≠ j) :
    (exchange gt i j v).get k = v.get k := by
  unfold exchange
  split
  · rw [get_swap, if_neg hi, if_neg hj]
  · rfl

/-- What stands in front of both slots may not pass the test against either. -/
theorem Placed.exchange {v : Vector α n} {i j : Fin n} (h : Placed gt i v) (hij : i < j) :
    Placed gt i (exchange gt i j v) := by
  intro a b ha hab
  have hai : a ≠ i := fun heq => Nat.lt_irrefl _ (heq ▸ ha)
  have haj : a ≠ j := fun heq => Nat.lt_asymm hij (heq ▸ ha)
  rw [get_exchange_of_ne v hai haj]
  unfold ExchangeSort.exchange
  split
  · rw [get_swap]
    split
    · exact h a j ha (Nat.lt_trans ha hij)
    · split
      · exact h a i ha ha
      · exact h a b ha hab
  · exact h a b ha hab

/-- The slot now stands against one more. -/
theorem Least.exchange (hgt : Orders gt) {v : Vector α n} {i j : Fin n} (h : Least gt i j v)
    (hij : i < j) : Least gt i (j + 1) (exchange gt i j v) := by
  intro b hib hbj
  have hi : i ≠ j := Fin.ne_of_lt hij
  have hb : b ≠ i := (Fin.ne_of_lt hib).symm
  have hbj : b = j ∨ b.val < j := by
    rcases Nat.lt_or_eq_of_le (Nat.le_of_lt_succ hbj) with hlt | heq
    · exact .inr hlt
    · exact .inl (Fin.ext heq)
  unfold ExchangeSort.exchange
  split
  · next htest =>
    have hle : gt (v.get j) (v.get i) = false := hgt.total _ _ htest
    rw [get_swap, if_pos rfl, get_swap, if_neg hb]
    rcases hbj with rfl | hlt
    · rw [if_pos rfl]
      exact hle
    · rw [if_neg (fun heq => Nat.lt_irrefl _ (heq ▸ hlt))]
      exact hgt.trans _ _ _ hle (h b hib hlt)
  · next htest =>
    rcases hbj with rfl | hlt
    · exact (Bool.not_eq_true _).mp htest
    · exact h b hib hlt

theorem pass_spec (hgt : Orders gt) (i : Fin n) :
    ∀ (rounds j : Nat) (h : j + rounds = n) (v : Vector α n), i.val < j → Placed gt i v →
      Least gt i j v →
      Placed gt i (pass gt i rounds j h v) ∧ Least gt i n (pass gt i rounds j h v)
  | 0, j, h, v, _, hplaced, hleast => ⟨hplaced, h ▸ hleast⟩
  | rounds + 1, j, h, v, hij, hplaced, hleast =>
    pass_spec hgt i rounds (j + 1) (by omega) _ (Nat.lt_succ_of_lt hij)
      (hplaced.exchange (j := ⟨j, by omega⟩) hij) (Least.exchange hgt (j := ⟨j, by omega⟩) hleast hij)

/-- A pass places its slot. -/
theorem pass_placed (hgt : Orders gt) {i rounds : Nat} (h : i + (rounds + 1) = n) {v : Vector α n}
    (hplaced : Placed gt i v) :
    Placed gt (i + 1) (pass gt ⟨i, by omega⟩ rounds (i + 1) (by omega) v) := by
  obtain ⟨hbefore, hleast⟩ := pass_spec hgt ⟨i, by omega⟩ rounds (i + 1) (by omega) v
    (Nat.lt_succ_self i) hplaced fun b hib hb => absurd hib (Nat.not_lt.mpr (Nat.le_of_lt_succ hb))
  intro a b ha hab
  rcases Nat.lt_or_eq_of_le (Nat.le_of_lt_succ ha) with hlt | heq
  · exact hbefore a b hlt hab
  · have ha : a = ⟨i, by omega⟩ := Fin.ext heq
    rw [ha] at hab ⊢
    exact hleast b hab b.isLt

theorem passes_placed (hgt : Orders gt) : ∀ (rounds i : Nat) (h : i + rounds = n)
    (v : Vector α n), Placed gt i v → Placed gt n (passes gt rounds i h v)
  | 0, i, h, v, hplaced => by
    obtain rfl : i = n := h
    exact hplaced
  | rounds + 1, i, h, v, hplaced =>
    passes_placed hgt rounds (i + 1) (by omega) _ (pass_placed hgt h hplaced)

/-- Behind the sort, nothing belongs before what stands in front of it. -/
theorem sort_pairwise (hgt : Orders gt) (v : Vector α n) :
    (sort gt v).toList.Pairwise fun a b => gt a b = false := by
  have hplaced : Placed gt n (sort gt v) :=
    passes_placed hgt n 0 (Nat.zero_add n) v fun a b ha => absurd ha (Nat.not_lt_zero _)
  refine List.pairwise_iff_getElem.mpr fun a b ha hb hab => ?_
  rw [Vector.length_toList] at ha hb
  rw [Vector.getElem_toList, Vector.getElem_toList]
  exact hplaced ⟨a, ha⟩ ⟨b, hb⟩ ha hab

end SalernOS.Lib.ExchangeSort
