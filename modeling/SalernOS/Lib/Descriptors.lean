import Mathlib.Data.Finmap
import Mathlib.Data.Fintype.EquivFin

/-! # Descriptor tables

What the open descriptors of a process stand for. A call that opens one gets a
number from the operating system that is not in use; which one is up to it.
-/
namespace SalernOS.Lib

abbrev Descriptors (α : Type) := Finmap fun _ : Nat => α

/-- What a call that opens a descriptor comes to: an error, or a free number. -/
abbrev Opening (α : Type) := (t : Descriptors α) → Option {fd : Nat // fd ∉ t}

namespace Descriptors

variable {α : Type} {t : Descriptors α} {fd : Nat} {a : α}

theorem exists_free (t : Descriptors α) : ∃ fd, fd ∉ t := by
  obtain ⟨fd, h⟩ := Infinite.exists_notMem_finset t.keys
  exact ⟨fd, mt Finmap.mem_keys.mpr h⟩

/-- The least number that is free. -/
def lowest : Opening α := fun t => some ⟨Nat.find (exists_free t), Nat.find_spec (exists_free t)⟩

theorem lookup_insert_eq (t : Descriptors α) (fd : Nat) (a : α) (x : Nat) :
    (t.insert fd a).lookup x = if x = fd then some a else t.lookup x := by
  by_cases h : x = fd
  · subst h
    rw [if_pos rfl, Finmap.lookup_insert]
  · rw [if_neg h, Finmap.lookup_insert_of_ne t h]

theorem lookup_erase_eq (t : Descriptors α) (fd x : Nat) :
    (t.erase fd).lookup x = if x = fd then none else t.lookup x := by
  by_cases h : x = fd
  · subst h
    rw [if_pos rfl, Finmap.lookup_erase]
  · rw [if_neg h, Finmap.lookup_erase_ne h]

/-- `dup2(fd, target)`, which may be refused. -/
def dup2 (ok : Bool) (fd target : Nat) (t : Descriptors α) : Descriptors α :=
  match t.lookup fd with
  | some a => if ok then t.insert target a else t
  | none => t

theorem lookup_dup2 {ok : Bool} (target : Nat) (h : t.lookup fd = some a) (x : Nat) :
    (dup2 ok fd target t).lookup x = if x = target ∧ ok = true then some a else t.lookup x := by
  unfold dup2
  rw [h]
  cases ok with
  | true => simp only [if_true, and_true, lookup_insert_eq]
  | false => simp

/-- A descriptor that is closed again leaves nothing behind. -/
theorem erase_insert (h : fd ∉ t) (a : α) : (t.insert fd a).erase fd = t := by
  refine Finmap.ext_lookup fun x => ?_
  rw [lookup_erase_eq, lookup_insert_eq]
  by_cases hx : x = fd
  · subst hx
    rw [if_pos rfl, Finmap.lookup_eq_none.mpr h]
  · rw [if_neg hx, if_neg hx]

theorem erase_insert_ne {other : Nat} (h : fd ≠ other) (a : α) :
    (t.insert other a).erase fd = (t.erase fd).insert other a := by
  refine Finmap.ext_lookup fun x => ?_
  simp only [lookup_erase_eq, lookup_insert_eq]
  by_cases hx : x = fd
  · subst hx
    rw [if_pos rfl, if_neg h, if_pos rfl]
  · simp only [if_neg hx]

end Descriptors

end SalernOS.Lib
