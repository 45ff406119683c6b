import Mathlib.Order.WellFounded
import SalernOS.Lib.Machine

/-! # Fair runs

A schedule offers a machine one action after another, for ever, and the machine
passes over an action that it does not accept. A schedule is fair when every
kind of action comes up again and again.
-/
namespace SalernOS.Lib

variable {σ α κ : Type} {step : σ → α → Option σ} {start : σ} {acts : Nat → α}

/-- The state behind the first `n` actions of a schedule. -/
def after (step : σ → α → Option σ) (start : σ) (acts : Nat → α) : Nat → σ
  | 0 => start
  | n + 1 => (step (after step start acts n) (acts n)).getD (after step start acts n)

theorem after_succ_some {n : Nat} {t : σ} (h : step (after step start acts n) (acts n) = some t) :
    after step start acts (n + 1) = t := by
  rw [after, h]
  rfl

theorem after_succ_none {n : Nat} (h : step (after step start acts n) (acts n) = none) :
    after step start acts (n + 1) = after step start acts n := by
  rw [after, h]
  rfl

theorem after_reachable (step : σ → α → Option σ) (start : σ) (acts : Nat → α) (n : Nat) :
    Reachable step start (after step start acts n) := by
  induction n with
  | zero => exact .start
  | succ n ih =>
    cases h : step (after step start acts n) (acts n) with
    | none => rw [after_succ_none h]; exact ih
    | some t => rw [after_succ_some h]; exact ih.next _ h

/-- A run goes on from each of its states. -/
theorem after_add (step : σ → α → Option σ) (start : σ) (acts : Nat → α) (n k : Nat) :
    after step start acts (n + k) = after step (after step start acts n) (fun j => acts (n + j)) k := by
  induction k with
  | zero => rfl
  | succ k ih =>
    show (step (after step start acts (n + k)) (acts (n + k))).getD (after step start acts (n + k)) = _
    rw [ih]
    rfl

/-- Two machines that do the same with the actions of a schedule run alike. -/
theorem after_congr {step' : σ → α → Option σ} (h : ∀ s k, step' s (acts k) = step s (acts k)) (n : Nat) :
    after step' start acts n = after step start acts n := by
  induction n with
  | zero => rfl
  | succ n ih => rw [after, after, ih, h]

/-- Every kind of action comes up at any time again. -/
def Fair (kind : α → κ) (acts : Nat → α) : Prop := ∀ k n, ∃ m, n ≤ m ∧ kind (acts m) = k

theorem Fair.drop {kind : α → κ} (h : Fair kind acts) (n : Nat) :
    Fair kind fun j => acts (n + j) := by
  intro k m
  obtain ⟨j, hj, hkind⟩ := h k (n + m)
  have hj' : n + (j - n) = j := by omega
  exact ⟨j - n, by omega, (congrArg (fun j => kind (acts j)) hj').trans hkind⟩

/-- No action makes more work. A kind of action that helps does a part of the
work whenever it comes up, and helps until a part of the work is done. -/
structure Progress (step : σ → α → Option σ) (start : σ) (kind : α → κ) (work : σ → Nat)
    (helps : κ → σ → Prop) : Prop where
  never_more : ∀ s a t, Reachable step start s → step s a = some t → work t ≤ work s
  lasts : ∀ s a t k, Reachable step start s → step s a = some t → helps k s →
    work t < work s ∨ helps k t
  works : ∀ s a, Reachable step start s → helps (kind a) s → ∃ t, step s a = some t ∧ work t < work s

variable {kind : α → κ} {work : σ → Nat} {helps : κ → σ → Prop}

theorem Progress.work_succ_le (h : Progress step start kind work helps) (acts : Nat → α) (n : Nat) :
    work (after step start acts (n + 1)) ≤ work (after step start acts n) := by
  cases hs : step (after step start acts n) (acts n) with
  | none => rw [after_succ_none hs]
  | some t =>
    rw [after_succ_some hs]
    exact h.never_more _ _ t (after_reachable step start acts n) hs

/-- Work stops being done at some time. -/
theorem Progress.settles (h : Progress step start kind work helps) (acts : Nat → α) :
    ∃ n, ∀ m, n ≤ m → work (after step start acts m) = work (after step start acts n) := by
  have hle : Antitone fun n => work (after step start acts n) :=
    antitone_nat_of_succ_le (h.work_succ_le acts)
  obtain ⟨_, ⟨n, rfl⟩, hmin⟩ := Nat.lt_wfRel.wf.has_min
    (Set.range fun n => work (after step start acts n)) ⟨_, 0, rfl⟩
  exact ⟨n, fun m hm => Nat.le_antisymm (hle hm) (Nat.le_of_not_lt (hmin _ ⟨m, rfl⟩))⟩

/-- **Progress by weak fairness.** A fair schedule comes to a time from which on
no kind of action helps. -/
theorem Progress.finishes (h : Progress step start kind work helps) (hfair : Fair kind acts) :
    ∃ n, ∀ m, n ≤ m → ∀ k, ¬ helps k (after step start acts m) := by
  obtain ⟨n, hconst⟩ := h.settles acts
  refine ⟨n, fun m hm k hk => ?_⟩
  have hlasts : ∀ j, m ≤ j → helps k (after step start acts j) := by
    intro j hj
    induction j, hj using Nat.le_induction with
    | base => exact hk
    | succ j hj ih =>
      cases hs : step (after step start acts j) (acts j) with
      | none => rw [after_succ_none hs]; exact ih
      | some t =>
        have hwork := hconst (j + 1) (by omega)
        rw [← hconst j (by omega), after_succ_some hs] at hwork
        rw [after_succ_some hs]
        rcases h.lasts _ _ t k (after_reachable step start acts j) hs ih with hlt | hkt
        · omega
        · exact hkt
  obtain ⟨j, hj, hkind⟩ := hfair k m
  obtain ⟨t, hs, hlt⟩ := h.works _ (acts j) (after_reachable step start acts j)
    (hkind ▸ hlasts j hj)
  have hwork := hconst (j + 1) (by omega)
  rw [← hconst j (by omega), after_succ_some hs] at hwork
  omega

end SalernOS.Lib
