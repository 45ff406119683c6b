import Mathlib.Logic.Function.Basic

/-! # Words that threads sleep on

A thread that finds an expected value in a word can sleep there until it is
woken. The comparison and the falling asleep are one step, so that nobody falls
asleep behind a change of the word.
-/
namespace SalernOS.Lib

/-- The words, and on which of them each thread is asleep. -/
structure Futex (ω τ ν : Type) where
  value : ω → ν
  asleep : τ → Option ω

namespace Futex

variable {ω τ ν : Type}

/-- Whoever sleeps on the word will have a reason to: it has the value that is
slept on, or somebody is to wake the sleepers. -/
def Latch (w : ω) (shut : ν) (owed : Prop) (s : Futex ω τ ν) : Prop :=
  ∀ t, s.asleep t = some w → s.value w = shut ∨ owed

variable {s : Futex ω τ ν} {w w' : ω} {shut : ν} {owed owed' : Prop}

theorem Latch.mono (h : Latch w shut owed s) (himp : owed → owed') : Latch w shut owed' s :=
  fun t ht => (h t ht).imp_right himp

/-- **No wakeup is lost.** Where the word has changed and nobody is to wake the
sleepers any more, there are none. -/
theorem Latch.nobody (h : Latch w shut owed s) (howed : ¬ owed) (hv : s.value w ≠ shut) (t : τ) :
    s.asleep t ≠ some w := by
  intro ht
  rcases h t ht with hval | hdue
  · exact hv hval
  · exact howed hdue

/-! ## Changing a word and waking its sleepers -/

section
variable [DecidableEq ω]

def store (s : Futex ω τ ν) (w : ω) (v : ν) : Futex ω τ ν :=
  { s with value := Function.update s.value w v }

def wake (s : Futex ω τ ν) (w : ω) : Futex ω τ ν :=
  { s with asleep := fun t => if s.asleep t = some w then none else s.asleep t }

@[simp] theorem store_asleep (v : ν) : (s.store w v).asleep = s.asleep := rfl

@[simp] theorem store_value (v : ν) : (s.store w v).value w = v := Function.update_self ..

theorem store_value_ne (v : ν) (h : w' ≠ w) : (s.store w v).value w' = s.value w' :=
  Function.update_of_ne h ..

@[simp] theorem wake_value : (s.wake w).value = s.value := rfl

theorem wake_asleep {u : τ} {a : ω} (h : (s.wake w).asleep u = some a) :
    a ≠ w ∧ s.asleep u = some a := by
  simp only [wake] at h
  split at h
  case isTrue => cases h
  case isFalse hw => exact ⟨fun he => hw (he ▸ h), h⟩

/-- Behind a wake nobody sleeps there. -/
theorem Latch.woken : Latch w shut owed (s.wake w) :=
  fun _ hu => absurd rfl (wake_asleep hu).1

theorem Latch.wake (h : Latch w shut owed s) : Latch w shut owed (s.wake w') :=
  fun u hu => h u (wake_asleep hu).2

theorem Latch.store (h : Latch w shut owed s) (v : ν) (hw : w ≠ w') :
    Latch w shut owed (s.store w' v) := by
  intro u hu
  rw [store_value_ne v hw]
  exact h u hu

/-- Behind a change the sleepers are to be woken. -/
theorem Latch.owes (v : ν) (hdue : owed) : Latch w shut owed (s.store w v) := fun _ _ => .inr hdue

end

/-! ## Falling asleep and waking up -/

section
variable [DecidableEq τ]

/-- The thread is woken for no reason. -/
def disturb (s : Futex ω τ ν) (t : τ) : Futex ω τ ν :=
  { s with asleep := Function.update s.asleep t none }

@[simp] theorem disturb_value (t : τ) : (s.disturb t).value = s.value := rfl

theorem disturb_asleep {t u : τ} {a : ω} (h : (s.disturb t).asleep u = some a) :
    s.asleep u = some a := by
  change Function.update s.asleep t none u = some a at h
  by_cases hu : u = t
  · subst hu
    rw [Function.update_self] at h
    cases h
  · rwa [Function.update_of_ne hu] at h

theorem Latch.disturb (h : Latch w shut owed s) (t : τ) : Latch w shut owed (s.disturb t) :=
  fun u hu => h u (disturb_asleep hu)

variable [DecidableEq ν]

/-- The thread sleeps if the word has the expected value. -/
def wait (s : Futex ω τ ν) (t : τ) (w : ω) (expected : ν) : Futex ω τ ν :=
  if s.value w = expected then { s with asleep := Function.update s.asleep t (some w) } else s

@[simp] theorem wait_value (t : τ) (v : ν) : (s.wait t w v).value = s.value := by
  unfold wait
  split <;> rfl

/-- Where a thread sleeps behind `wait`. -/
theorem wait_asleep {t u : τ} {v : ν} {a : ω} (h : (s.wait t w v).asleep u = some a) :
    s.asleep u = some a ∨ u = t ∧ a = w ∧ s.value w = v := by
  unfold wait at h
  split at h
  case isTrue hv =>
    change Function.update s.asleep t (some w) u = some a at h
    by_cases hu : u = t
    · subst hu
      rw [Function.update_self] at h
      exact .inr ⟨rfl, (Option.some.inj h).symm, hv⟩
    · rw [Function.update_of_ne hu] at h
      exact .inl h
  case isFalse => exact .inl h

/-- Whoever falls asleep on the word has seen the value. -/
theorem Latch.wait (h : Latch w shut owed s) (t : τ) (v : ν) (hv : w' = w → v = shut) :
    Latch w shut owed (s.wait t w' v) := by
  intro u hu
  rw [wait_value]
  rcases wait_asleep hu with hu | ⟨-, rfl, hval⟩
  · exact h u hu
  · exact .inl (hval.trans (hv rfl))

end

end Futex

end SalernOS.Lib
