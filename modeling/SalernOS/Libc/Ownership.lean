import Mathlib.Data.Finset.Option
import Mathlib.Data.Finset.SDiff
import Mathlib.Data.List.ReduceOption
import SalernOS.Lib.Machine
import SalernOS.Libc.Heap

/-! # Who owns the blocks of the heap

A trace is replayed on the set of the blocks that are allocated. It goes wrong
where a block is passed to `realloc` or `free` that is not one of them. The
pointers that a piece of code owns stand for all of them, and are the only ones
that it may pass on.
-/
namespace SalernOS.Libc
open SalernOS.Lib

namespace HeapEvent

/-- The block that the call is given. -/
def uses : HeapEvent → Option Block
  | realloc old _ _ => old
  | free block => block
  | ierr _ => none

/-- The block that is allocated. -/
def allocates : HeapEvent → Option Block
  | realloc _ _ new => new
  | _ => none

/-- The block that is freed; `realloc` frees the old one when it succeeds. -/
def frees : HeapEvent → Option Block
  | realloc old _ (some _) => old
  | free block => block
  | _ => none

def replay (live : Finset Block) (e : HeapEvent) : Option (Finset Block) :=
  if (∀ b ∈ e.uses, b ∈ live) ∧ ∀ b ∈ e.allocates, b ∉ live then
    some ((live \ e.frees.toFinset) ∪ e.allocates.toFinset)
  else none

end HeapEvent

/-- The blocks that a trace allocates, in order. -/
def allocated (t : List HeapEvent) : List Block := t.filterMap HeapEvent.allocates

/-- The blocks that it frees. -/
def freed (t : List HeapEvent) : List Block := t.filterMap HeapEvent.frees

/-- The blocks that are left behind it; `none` when it goes wrong. -/
def leftLive (t : List HeapEvent) : Option (Finset Block) := runAll HeapEvent.replay ∅ t

/-! ## Every block is freed, or left -/

theorem mem_of_frees {live live' : Finset Block} {e : HeapEvent} {b : Block}
    (h : e.replay live = some live') (hb : e.frees = some b) : b ∈ live := by
  obtain ⟨⟨huses, -⟩, -⟩ := Option.ite_none_right_eq_some.mp h
  refine huses b ?_
  cases e with
  | realloc old size new =>
    cases new with
    | none => cases hb
    | some new => exact hb
  | free block => exact hb
  | ierr msg => cases hb

/-- An event moves a block in or out, or does nothing to it. -/
theorem replay_count {live live' : Finset Block} {e : HeapEvent} (h : e.replay live = some live')
    (b : Block) : e.allocates.toList.count b + (if b ∈ live then 1 else 0) =
      e.frees.toList.count b + if b ∈ live' then 1 else 0 := by
  obtain ⟨⟨-, hnew⟩, hlive⟩ := Option.ite_none_right_eq_some.mp h
  have hold : e.frees = some b → b ∈ live := mem_of_frees h
  have hmem : b ∈ live' ↔ (b ∈ live ∧ e.frees ≠ some b) ∨ e.allocates = some b := by
    rw [← Option.some.inj hlive]
    simp [Option.mem_def]
  have hcount : ∀ o : Option Block, o.toList.count b = if o = some b then 1 else 0 := by
    intro o
    cases o with
    | none => simp
    | some c => simp [List.count_singleton]
  simp only [hcount, hmem]
  have hfresh : e.allocates = some b → b ∉ live := fun ha => hnew b ha
  by_cases ha : e.allocates = some b <;> by_cases hf : e.frees = some b <;>
    by_cases hl : b ∈ live <;> simp_all

/-- What is allocated is freed or left, and what was there before is so, too. -/
theorem runAll_replay_count : ∀ (t : List HeapEvent) {live live' : Finset Block},
    runAll HeapEvent.replay live t = some live' → ∀ b,
    (allocated t).count b + (if b ∈ live then 1 else 0) =
      (freed t).count b + if b ∈ live' then 1 else 0
  | [], _, _, h, b => by
    cases h
    rfl
  | e :: t, live, live', h, b => by
    obtain ⟨mid, he, ht⟩ := Option.bind_eq_some_iff.mp h
    have hstep := replay_count he b
    have hrest := runAll_replay_count t ht b
    have hcons : ∀ f : HeapEvent → Option Block,
        ((e :: t).filterMap f).count b = (f e).toList.count b + (t.filterMap f).count b := by
      intro f
      rw [List.filterMap_cons]
      cases f e with
      | none => simp
      | some c => simp [List.count_cons, Nat.add_comm]
    unfold allocated freed at hrest ⊢
    rw [hcons, hcons]
    omega

/-! ## Ownership -/

/-- The pointers `ps`, of which some may be `NULL`, are all that is allocated. -/
structure Heap.Owns (h : Heap) (ps : List (Option Block)) : Prop where
  live : leftLive h.trace = some ps.reduceOption.toFinset
  nodup : ps.reduceOption.Nodup
  fresh : ∀ b ∈ allocated h.trace, b < h.calls
  once : (allocated h.trace).Nodup

namespace Heap.Owns

variable {h h' : Heap} {p : Option Block} {ps qs : List (Option Block)}

theorem empty : Heap.empty.Owns [] := ⟨rfl, List.nodup_nil, nofun, List.nodup_nil⟩

theorem perm (hown : h.Owns ps) (hperm : ps.Perm qs) : h.Owns qs := by
  have hblocks : ps.reduceOption.Perm qs.reduceOption := hperm.filterMap id
  refine ⟨?_, hblocks.nodup_iff.mp hown.nodup, hown.fresh, hown.once⟩
  rw [hown.live, List.toFinset_eq_of_perm _ _ hblocks]

/-- How often a block is freed that was allocated: once, unless it is owned. -/
theorem count_freed (hown : h.Owns ps) {b : Block} (hb : b ∈ allocated h.trace) :
    (freed h.trace).count b = if some b ∈ ps then 0 else 1 := by
  have hcount := runAll_replay_count h.trace hown.live b
  have hone : (allocated h.trace).count b = 1 := List.count_eq_one_of_mem hown.once hb
  simp only [List.mem_toFinset, List.reduceOption_mem_iff] at hcount
  rw [hone] at hcount
  split at hcount
  · next hmem => cases hmem
  · next hmem =>
    split at hcount <;> split <;> first | omega | contradiction

/-- What is owned was allocated. -/
theorem mem_allocated (hown : h.Owns ps) {b : Block} (hb : some b ∈ ps) :
    b ∈ allocated h.trace := by
  have hcount := runAll_replay_count h.trace hown.live b
  have hlive : b ∈ ps.reduceOption.toFinset :=
    List.mem_toFinset.mpr (List.reduceOption_mem_iff.mpr hb)
  rw [if_pos hlive, if_neg (Finset.notMem_empty b)] at hcount
  exact List.count_pos_iff.mp (by omega)

/-- A `NULL` stands for nothing. -/
theorem cons_none (hown : h.Owns ps) : h.Owns (none :: ps) :=
  ⟨hown.live, hown.nodup, hown.fresh, hown.once⟩

theorem mem_live {b : Block} : b ∈ ps.reduceOption.toFinset ↔ some b ∈ ps := by
  rw [List.mem_toFinset, List.reduceOption_mem_iff]

theorem notMem_tail {b : Block} (hown : h.Owns (some b :: ps)) : some b ∉ ps := by
  have hnodup := hown.nodup
  rw [List.reduceOption_cons_of_some, List.nodup_cons, List.reduceOption_mem_iff] at hnodup
  exact hnodup.1

theorem nodup_tail (hown : h.Owns (p :: ps)) : ps.reduceOption.Nodup :=
  (List.Sublist.filterMap id (List.sublist_cons_self p ps)).nodup hown.nodup

theorem lt_calls (hown : h.Owns ps) {b : Block} (hb : some b ∈ ps) : b < h.calls :=
  hown.fresh b (hown.mem_allocated hb)

/-- The trace goes on with an event that turns `ps` into `qs`. -/
theorem live_append (hown : h.Owns ps) {e : HeapEvent}
    (huses : ∀ b ∈ e.uses, some b ∈ ps) (hnew : ∀ b ∈ e.allocates, some b ∉ ps)
    (hqs : ∀ b, some b ∈ qs ↔ (some b ∈ ps ∧ e.frees ≠ some b) ∨ e.allocates = some b) :
    leftLive (h.trace ++ [e]) = some qs.reduceOption.toFinset := by
  have hreplay : e.replay ps.reduceOption.toFinset = some qs.reduceOption.toFinset := by
    refine (if_pos ⟨fun b hb => mem_live.mpr (huses b hb), fun b hb hl =>
      hnew b hb (mem_live.mp hl)⟩).trans (congrArg some ?_)
    ext b
    simp [hqs, List.reduceOption_mem_iff]
  unfold leftLive
  rw [runAll_append]
  have hlive := hown.live
  unfold leftLive at hlive
  rw [hlive]
  simp only [Option.bind_some, runAll, hreplay]

/-- A `realloc` that fails leaves the pointer as it is. -/
theorem realloc_failed (hown : h.Owns (p :: ps)) (size : Nat) :
    Heap.Owns ⟨h.calls + 1, h.trace ++ [.realloc p size none]⟩ (p :: ps) := by
  have halloc : allocated (h.trace ++ [.realloc p size none]) = allocated h.trace := by
    simp [allocated, HeapEvent.allocates]
  refine ⟨hown.live_append ?_ nofun ?_, hown.nodup, ?_, halloc.symm ▸ hown.once⟩
  · rintro b rfl
    exact List.mem_cons_self
  · exact fun b => by simp [HeapEvent.frees, HeapEvent.allocates]
  · exact fun b hb => Nat.lt_succ_of_lt (hown.fresh b (halloc ▸ hb))

/-- Another one replaces it by a block that is new. -/
theorem realloc_done (hown : h.Owns (p :: ps)) (size : Nat) :
    Heap.Owns ⟨h.calls + 1, h.trace ++ [.realloc p size (some h.calls)]⟩
      (some h.calls :: ps) := by
  have halloc : allocated (h.trace ++ [.realloc p size (some h.calls)]) =
      allocated h.trace ++ [h.calls] := by
    simp [allocated, HeapEvent.allocates]
  have hnew : some h.calls ∉ p :: ps := fun hmem => Nat.lt_irrefl _ (hown.lt_calls hmem)
  refine ⟨hown.live_append ?_ ?_ ?_, ?_, ?_, ?_⟩
  · rintro b rfl
    exact List.mem_cons_self
  · rintro b ⟨⟩
    exact hnew
  · intro b
    simp only [HeapEvent.frees, HeapEvent.allocates, List.mem_cons, Option.some.injEq]
    constructor
    · rintro (rfl | hb)
      · exact .inr rfl
      · refine .inl ⟨.inr hb, ?_⟩
        rintro rfl
        exact hown.notMem_tail hb
    · rintro (⟨hb | hb, hne⟩ | rfl)
      · exact absurd hb.symm hne
      · exact .inr hb
      · exact .inl rfl
  · rw [List.reduceOption_cons_of_some, List.nodup_cons, List.reduceOption_mem_iff]
    exact ⟨fun hmem => hnew (List.mem_cons_of_mem p hmem), hown.nodup_tail⟩
  · intro b hb
    rw [halloc] at hb
    rcases List.mem_append.mp hb with hb | hb
    · exact Nat.lt_succ_of_lt (hown.fresh b hb)
    · rw [List.mem_singleton.mp hb]
      exact Nat.lt_succ_self _
  · rw [halloc]
    refine List.nodup_append.mpr ⟨hown.once, List.nodup_singleton _, ?_⟩
    rintro b hb c hc rfl
    rw [List.mem_singleton.mp hc] at hb
    exact Nat.lt_irrefl _ (hown.fresh _ hb)

/-- `realloc` replaces the pointer, unless it fails. -/
theorem realloc {ok : Nat → Bool} {size : Nat} {r : Option Block} (hown : h.Owns (p :: ps))
    (hr : h.realloc ok p size = (r, h')) : h'.Owns (match r with
      | some b => some b :: ps
      | none => p :: ps) := by
  unfold Heap.realloc at hr
  cases hok : ok h.calls with
  | false =>
    simp only [hok] at hr
    cases hr
    exact hown.realloc_failed size
  | true =>
    simp only [hok, if_true] at hr
    cases hr
    exact hown.realloc_done size

/-- What is freed is not owned any more. -/
theorem free (hown : h.Owns (p :: ps)) : (h.free p).Owns ps := by
  have halloc : allocated (h.trace ++ [.free p]) = allocated h.trace := by
    simp [allocated, HeapEvent.allocates]
  refine ⟨hown.live_append ?_ nofun ?_, hown.nodup_tail, ?_, halloc.symm ▸ hown.once⟩
  · rintro b rfl
    exact List.mem_cons_self
  · intro b
    simp only [HeapEvent.frees, HeapEvent.allocates, List.mem_cons, reduceCtorEq, or_false]
    constructor
    · intro hb
      refine ⟨.inr hb, ?_⟩
      rintro rfl
      exact hown.notMem_tail hb
    · rintro ⟨hb | hb, hne⟩
      · exact absurd hb.symm hne
      · exact hb
  · exact fun b hb => hown.fresh b (halloc ▸ hb)

theorem ierr (hown : h.Owns ps) (msg : String) : (h.ierr msg).Owns ps := by
  have halloc : allocated (h.trace ++ [.ierr msg]) = allocated h.trace := by
    simp [allocated, HeapEvent.allocates]
  refine ⟨hown.live_append nofun nofun ?_, hown.nodup, ?_, halloc.symm ▸ hown.once⟩
  · exact fun b => by simp [HeapEvent.frees, HeapEvent.allocates]
  · exact fun b hb => hown.fresh b (halloc ▸ hb)

end Heap.Owns

end SalernOS.Libc
