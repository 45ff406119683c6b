import Mathlib.Data.List.Basic

/-! # Mapping a partial function over a list -/
namespace SalernOS.Lib

variable {α β : Type} {f : α → Option β}

theorem mapM_eq_some_iff : ∀ {l : List α} {r : List β},
    l.mapM f = some r ↔ l.map f = r.map some
  | [], r => by cases r <;> simp
  | a :: l, r => by
    rw [List.mapM_cons, List.map_cons]
    cases ha : f a with
    | none => cases r <;> simp
    | some b =>
      cases r with
      | nil =>
        cases l.mapM f <;> simp
      | cons c r =>
        rw [List.map_cons, List.cons.injEq, ← mapM_eq_some_iff]
        cases l.mapM f <;> simp

theorem mapM_eq_none_iff : ∀ {l : List α}, l.mapM f = none ↔ ∃ a ∈ l, f a = none
  | [] => by simp
  | a :: l => by
    rw [List.mapM_cons]
    cases ha : f a with
    | none => simp [ha]
    | some b =>
      have ih := mapM_eq_none_iff (l := l)
      cases hl : l.mapM f with
      | none => simpa [hl, ha] using ih.mp hl
      | some r => simpa [hl, ha] using ih

/-- Every result is the result of an element. -/
theorem mem_of_mapM {l : List α} {r : List β} (h : l.mapM f = some r) {b : β} (hb : b ∈ r) :
    ∃ a ∈ l, f a = some b := by
  rw [mapM_eq_some_iff] at h
  have : some b ∈ l.map f := h ▸ List.mem_map_of_mem hb
  exact List.mem_map.mp this

/-- Every element has its result. -/
theorem mapM_mem {l : List α} {r : List β} (h : l.mapM f = some r) {a : α} (ha : a ∈ l) :
    ∃ b ∈ r, f a = some b := by
  rw [mapM_eq_some_iff] at h
  have : f a ∈ r.map some := h ▸ List.mem_map_of_mem ha
  obtain ⟨b, hb, he⟩ := List.mem_map.mp this
  exact ⟨b, hb, he.symm⟩

/-- A relation between earlier and later elements carries over to the results. -/
theorem pairwise_of_mapM {R : α → α → Prop} {S : β → β → Prop} {l : List α} {r : List β}
    (h : l.mapM f = some r) (hl : l.Pairwise R)
    (hRS : ∀ a ∈ l, ∀ a' ∈ l, R a a' → ∀ b b', f a = some b → f a' = some b' → S b b') :
    r.Pairwise S := by
  rw [mapM_eq_some_iff] at h
  have hmap : (l.map f).Pairwise fun o o' => ∀ b b', o = some b → o' = some b' → S b b' := by
    rw [List.pairwise_map]
    exact hl.imp_of_mem fun ha ha' hR => hRS _ ha _ ha' hR
  rw [h, List.pairwise_map] at hmap
  exact hmap.imp fun hS => hS _ _ rfl rfl

end SalernOS.Lib
