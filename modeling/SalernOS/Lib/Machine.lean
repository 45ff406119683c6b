import Mathlib.Data.List.Basic

/-! # Machines

A machine takes an action in a state, or does not accept it there. What holds
at the start and is kept by every action holds in every state of every run.
-/
namespace SalernOS.Lib

variable {σ α β : Type} {step : σ → α → Option σ} {start s t : σ}

/-- The states that some sequence of actions leads to. -/
inductive Reachable (step : σ → α → Option σ) (start : σ) : σ → Prop where
  | start : Reachable step start start
  | next {s t : σ} (a : α) : Reachable step start s → step s a = some t → Reachable step start t

def runAll (step : σ → α → Option σ) (s : σ) : List α → Option σ
  | [] => some s
  | a :: as => (step s a).bind fun t => runAll step t as

theorem runAll_append (as bs : List α) : ∀ s : σ,
    runAll step s (as ++ bs) = (runAll step s as).bind fun t => runAll step t bs := by
  induction as with
  | nil => exact fun s => rfl
  | cons a as ih =>
    intro s
    change (step s a).bind _ = ((step s a).bind _).bind _
    cases step s a with
    | none => rfl
    | some t => exact ih t

theorem Reachable.runAll {as : List α} (hs : Reachable step start s)
    (h : runAll step s as = some t) : Reachable step start t := by
  induction as generalizing s with
  | nil => cases h; exact hs
  | cons a as ih =>
    obtain ⟨u, hu, h⟩ := Option.bind_eq_some_iff.mp h
    exact ih (hs.next a hu) h

theorem Reachable.invariant {I : σ → Prop} (h : Reachable step start s) (hstart : I start)
    (hstep : ∀ s a t, I s → step s a = some t → I t) : I s := by
  induction h with
  | start => exact hstart
  | next a _ hs ih => exact hstep _ a _ ih hs

/-- What no action changes is the same in every state of a run. -/
theorem Reachable.constant {f : σ → β} (h : Reachable step start s)
    (hstep : ∀ s a t, step s a = some t → f t = f s) : f s = f start :=
  h.invariant (I := fun s => f s = f start) rfl fun s a t ih hs => (hstep s a t hs).trans ih

/-- A part of the state that each action changes by itself is folded over a run. -/
theorem runAll_foldl {f : σ → β} {g : β → α → β}
    (hstep : ∀ s a t, step s a = some t → f t = g (f s) a) (as : List α) :
    ∀ s, runAll step s as = some t → f t = as.foldl g (f s) := by
  induction as with
  | nil =>
    intro s h
    cases h
    rfl
  | cons a as ih =>
    intro s h
    obtain ⟨u, hu, h⟩ := Option.bind_eq_some_iff.mp h
    rw [ih u h, hstep s a u hu, List.foldl_cons]

end SalernOS.Lib
