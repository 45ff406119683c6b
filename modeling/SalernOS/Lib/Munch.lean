import SalernOS.Lib.Machine

/-! # The longest input that a machine accepts

A machine that reads its actions from a list goes on for as long as it accepts
the next one.
-/
namespace SalernOS.Lib

variable {σ τ α : Type} {step : σ → α → Option σ} {s t : σ}

def munch (step : σ → α → Option σ) (s : σ) : List α → List α
  | [] => []
  | a :: as =>
    match step s a with
    | some t => a :: munch step t as
    | none => []

theorem munch_cons_some {a : α} (h : step s a = some t) (as : List α) :
    munch step s (a :: as) = a :: munch step t as := by
  simp only [munch, h]

theorem munch_cons_none {a : α} (h : step s a = none) (as : List α) :
    munch step s (a :: as) = [] := by
  simp only [munch, h]

/-- Where the machine stops, and that it does not accept what comes next there. -/
theorem munch_spec (step : σ → α → Option σ) : ∀ (s : σ) (l : List α), ∃ rest t,
    l = munch step s l ++ rest ∧ runAll step s (munch step s l) = some t ∧
      ∀ a ∈ rest.head?, step t a = none
  | s, [] => ⟨[], s, rfl, rfl, nofun⟩
  | s, a :: as => by
    cases h : step s a with
    | none =>
      rw [munch_cons_none h]
      refine ⟨a :: as, s, rfl, rfl, fun b hb => ?_⟩
      cases hb
      exact h
    | some u =>
      obtain ⟨rest, t, hl, hrun, hstop⟩ := munch_spec step u as
      rw [munch_cons_some h]
      refine ⟨rest, t, congrArg (a :: ·) hl, ?_, hstop⟩
      simp only [runAll, h]
      exact hrun

/-- A part that is accepted, with nothing acceptable behind it, is all that is read. -/
theorem munch_eq : ∀ {s : σ} {p rest : List α}, runAll step s p = some t →
    (∀ a ∈ rest.head?, step t a = none) → munch step s (p ++ rest) = p
  | s, [], [], hrun, _ => rfl
  | s, [], a :: _, hrun, hstop => by
    cases hrun
    exact munch_cons_none (hstop a rfl) _
  | s, a :: p, rest, hrun, hstop => by
    obtain ⟨u, hu, hrun⟩ := Option.bind_eq_some_iff.mp hrun
    rw [List.cons_append, munch_cons_some hu, munch_eq hrun hstop]

theorem munch_isPrefix (s : σ) (l : List α) : munch step s l <+: l := by
  obtain ⟨rest, _, hl, _⟩ := munch_spec step s l
  exact ⟨rest, hl.symm⟩

/-- No longer part of the list is accepted. -/
theorem length_le_munch : ∀ {s : σ} {p l : List α}, p <+: l → (runAll step s p).isSome →
    p.length ≤ (munch step s l).length
  | s, [], _, _, _ => Nat.zero_le _
  | s, a :: p, [], hp, _ => absurd hp (by simp)
  | s, a :: p, b :: l, hp, hrun => by
    obtain ⟨rfl, htail⟩ := List.cons_prefix_cons.mp hp
    cases h : step s a with
    | none => simp [runAll, h] at hrun
    | some t =>
      simp only [runAll, h] at hrun
      rw [munch_cons_some h]
      exact Nat.succ_le_succ (length_le_munch htail hrun)

/-! ## A machine that accepts more -/

section Simulation

variable {step' : τ → α → Option τ} {f : σ → τ}

theorem runAll_simulation (hsim : ∀ s a t, step s a = some t → step' (f s) a = some (f t)) :
    ∀ {s : σ} {as : List α}, runAll step s as = some t → runAll step' (f s) as = some (f t)
  | s, [], h => by cases h; rfl
  | s, a :: as, h => by
    obtain ⟨u, hu, h⟩ := Option.bind_eq_some_iff.mp h
    simp only [runAll, hsim s a u hu]
    exact runAll_simulation hsim h

/-- It stops at the same place precisely if it does not accept what comes next
there either. -/
theorem munch_simulation (hsim : ∀ s a t, step s a = some t → step' (f s) a = some (f t))
    {p rest : List α} (hrun : runAll step s p = some t) (hstop : ∀ a ∈ rest.head?, step t a = none) :
    munch step' (f s) (p ++ rest) = munch step s (p ++ rest) ↔
      ∀ a ∈ rest.head?, step' (f t) a = none := by
  have hrun' := runAll_simulation hsim hrun
  rw [munch_eq hrun hstop]
  constructor
  · intro h
    obtain ⟨rest', t', hl, hrun'', hstop'⟩ := munch_spec step' (f s) (p ++ rest)
    rw [h] at hl hrun''
    cases hrun'.symm.trans hrun''
    exact List.append_cancel_left hl ▸ hstop'
  · exact munch_eq hrun'

end Simulation

/-! ## The longest prefix with a property -/

theorem length_ne_of_not {P : List α → Prop} {l p : List α} {n : Nat} (hp : p <+: l) (hPp : P p)
    (hP : ¬ P (l.take n)) : p.length ≠ n := by
  rintro rfl
  rw [List.prefix_iff_eq_take.mp hp] at hPp
  exact hP hPp

/-- The longest prefix of at most `n` elements that satisfies `P`. -/
def longestPrefix (P : List α → Prop) [DecidablePred P] (l : List α) : Nat → Option (List α)
  | 0 => if P [] then some [] else none
  | n + 1 => if P (l.take (n + 1)) then some (l.take (n + 1)) else longestPrefix P l n

variable {P : List α → Prop} [DecidablePred P] {l p : List α}

theorem longestPrefix_some : ∀ {n : Nat}, longestPrefix P l n = some p →
    p <+: l ∧ P p ∧ ∀ p', p' <+: l → p'.length ≤ n → P p' → p'.length ≤ p.length
  | 0, h => by
    unfold longestPrefix at h
    split at h
    · next hP =>
      cases h
      exact ⟨List.nil_prefix, hP, fun _ _ hn _ => hn⟩
    · cases h
  | n + 1, h => by
    unfold longestPrefix at h
    split at h
    · next hP =>
      cases h
      refine ⟨List.take_prefix _ _, hP, fun p' hp hn _ => ?_⟩
      rw [List.length_take]
      exact Nat.le_min.mpr ⟨hn, hp.length_le⟩
    · next hP =>
      obtain ⟨hp, hPp, hmax⟩ := longestPrefix_some h
      refine ⟨hp, hPp, fun p' hp' hn hP' => hmax p' hp' ?_ hP'⟩
      exact Nat.lt_succ_iff.mp (Nat.lt_of_le_of_ne hn (length_ne_of_not hp' hP' hP))

theorem longestPrefix_none : ∀ {n : Nat}, longestPrefix P l n = none →
    ∀ p', p' <+: l → p'.length ≤ n → ¬ P p'
  | 0, h, p', _, hn, hP => by
    rw [List.eq_nil_of_length_eq_zero (Nat.le_zero.mp hn)] at hP
    unfold longestPrefix at h
    rw [if_pos hP] at h
    cases h
  | n + 1, h, p', hp, hn, hP' => by
    unfold longestPrefix at h
    split at h
    · cases h
    · next hP =>
      exact longestPrefix_none h p' hp
        (Nat.lt_succ_iff.mp (Nat.lt_of_le_of_ne hn (length_ne_of_not hp hP' hP))) hP'

end SalernOS.Lib
