import SalernOS.Lib.Memory

/-! # Objects in a memory

A program sees objects: rows of bytes, some of which it has stored. In the
memory each of them has a range of addresses, and no two ranges overlap.
-/
namespace SalernOS.Lib

variable {w : Nat}

/-- A range of addresses, which may go around the end of the memory. -/
structure Range (w : Nat) where
  addr : BitVec w
  size : BitVec w
deriving DecidableEq, Repr

namespace Range

instance : Membership (BitVec w) (Range w) := ⟨fun r x => (x - r.addr).toNat < r.size.toNat⟩

def Apart (r s : Range w) : Prop := ∀ x ∈ r, x ∉ s

variable {r s : Range w}

theorem Apart.symm (h : r.Apart s) : s.Apart r := fun x hs hr => h x hr hs

theorem toNat_offset {i : Nat} (h : i < r.size.toNat) :
    (r.addr + BitVec.ofNat w i - r.addr).toNat = i := by
  have hw := r.size.isLt
  rw [add_sub_cancel_left, BitVec.toNat_ofNat, Nat.mod_eq_of_lt (by omega)]

theorem mem_offset {i : Nat} (h : i < r.size.toNat) : r.addr + BitVec.ofNat w i ∈ r := by
  show (r.addr + BitVec.ofNat w i - r.addr).toNat < r.size.toNat
  rw [toNat_offset h]
  exact h

theorem offset_injective {i j : Nat} (hi : i < r.size.toNat) (hj : j < r.size.toNat)
    (h : r.addr + BitVec.ofNat w i = r.addr + BitVec.ofNat w j) : i = j := by
  rw [← toNat_offset hi, h, toNat_offset hj]

end Range

/-! ## Alignment -/

theorem toNat_sub_one {a : BitVec w} (h : a ≠ 0) : (a - 1).toNat = a.toNat - 1 := by
  have hpos : a.toNat ≠ 0 := fun he => h (BitVec.eq_of_toNat_eq (he.trans BitVec.toNat_zero.symm))
  have hlt := a.isLt
  have hone : (1 : BitVec w).toNat = 1 := by
    show 1 % 2 ^ w = 1
    exact Nat.mod_eq_of_lt (by omega)
  rw [BitVec.toNat_sub_of_le (by rw [BitVec.le_def, hone]; omega), hone]

theorem and_eq_zero_iff (a b : BitVec w) : a &&& b = 0 ↔ a.toNat &&& b.toNat = 0 := by
  rw [← BitVec.toNat_and]
  constructor
  · intro h
    rw [h]
    exact BitVec.toNat_zero
  · exact fun h => BitVec.eq_of_toNat_eq (h.trans BitVec.toNat_zero.symm)

theorem powerOfTwo_iff {a : BitVec w} (h : a ≠ 0) :
    a &&& (a - 1) = 0 ↔ a.toNat.isPowerOfTwo := by
  have hpos : a.toNat ≠ 0 := fun he => h (BitVec.eq_of_toNat_eq (he.trans BitVec.toNat_zero.symm))
  rw [and_eq_zero_iff, toNat_sub_one h]
  exact Nat.and_sub_one_eq_zero_iff_isPowerOfTwo hpos

theorem multiple_iff {a : BitVec w} (h : a.toNat.isPowerOfTwo) (x : BitVec w) :
    x &&& (a - 1) = 0 ↔ a.toNat ∣ x.toNat := by
  have hne : a ≠ 0 := by
    intro ha
    have hpos := Nat.pos_of_isPowerOfTwo h
    rw [ha] at hpos
    exact absurd hpos (Nat.lt_irrefl 0)
  rw [and_eq_zero_iff, toNat_sub_one hne]
  obtain ⟨k, hk⟩ := h
  rw [hk, Nat.and_two_pow_sub_one_eq_mod, Nat.dvd_iff_mod_eq_zero]

/-! ## Objects -/

/-- An alignment and bytes; one that nobody has stored is `none`. -/
structure Object where
  align : Nat
  bytes : List (Option UInt8)
deriving DecidableEq, Repr

/-- The memory has the bytes of the object in this range. -/
structure Object.At (m : Memory w) (r : Range w) (o : Object) : Prop where
  size : o.bytes.length = r.size.toNat
  aligned : o.align ∣ r.addr.toNat
  bytes : ∀ i v, o.bytes[i]? = some (some v) → m (r.addr + BitVec.ofNat w i) = v

/-- The memory has all the objects, each in its range. -/
structure Represents (m : Memory w) (rs : List (Range w)) (os : List Object) : Prop where
  length : rs.length = os.length
  objects : ∀ (i : Nat) (r : Range w) (o : Object), rs[i]? = some r → os[i]? = some o → o.At m r
  apart : ∀ (i j : Nat) (r s : Range w), i ≠ j → rs[i]? = some r → rs[j]? = some s → r.Apart s

section
variable {m m' : Memory w} {r : Range w} {rs : List (Range w)} {o : Object} {os : List Object}

theorem Object.At.congr (h : o.At m r) (hm : ∀ x ∈ r, m' x = m x) : o.At m' r where
  size := h.size
  aligned := h.aligned
  bytes i v hv := by
    have hi : i < r.size.toNat := h.size ▸ (List.getElem?_eq_some_iff.mp hv).1
    rw [hm _ (Range.mem_offset hi)]
    exact h.bytes i v hv

/-- A byte of the object is stored. -/
theorem Object.At.set (h : o.At m r) {k : Nat} (hk : k < o.bytes.length) (v : UInt8) :
    Object.At (Function.update m (r.addr + BitVec.ofNat w k) v) r
      { o with bytes := o.bytes.set k (some v) } where
  size := List.length_set.trans h.size
  aligned := h.aligned
  bytes i u hu := by
    rw [List.getElem?_set] at hu
    split at hu
    case isTrue hik =>
      rw [← hik, Function.update_self]
      exact Option.some.inj (Option.some.inj hu)
    case isFalse hik =>
      have hi := (List.getElem?_eq_some_iff.mp hu).1
      rw [h.size] at hi hk
      rw [Function.update_of_ne fun he => hik (Range.offset_injective hi hk he).symm]
      exact h.bytes i u hu

/-- The last place of a list, or one in front of it. -/
theorem getElem?_snoc {α : Type} {l : List α} {a b : α} {i : Nat} (h : (l ++ [a])[i]? = some b) :
    i < l.length ∧ l[i]? = some b ∨ i = l.length ∧ b = a := by
  have hi := (List.getElem?_eq_some_iff.mp h).1
  rw [List.length_append, List.length_singleton] at hi
  by_cases hlt : i < l.length
  · rw [List.getElem?_append_left hlt] at h
    exact .inl ⟨hlt, h⟩
  · have he : i = l.length := by omega
    rw [he, List.getElem?_append_right (Nat.le_refl _), Nat.sub_self] at h
    exact .inr ⟨he, (Option.some.inj h).symm⟩

namespace Represents

theorem nil (m : Memory w) : Represents m [] [] where
  length := rfl
  objects _ _ _ h := nomatch h
  apart _ _ _ _ _ h := nomatch h

theorem congr (h : Represents m rs os) (hm : ∀ r ∈ rs, ∀ x ∈ r, m' x = m x) :
    Represents m' rs os where
  length := h.length
  objects i r o hr ho := (h.objects i r o hr ho).congr (hm r (List.mem_of_getElem? hr))
  apart := h.apart

/-- A new object, apart from the others. -/
theorem grow (h : Represents m rs os) (hr : o.At m r) (hapart : ∀ s ∈ rs, r.Apart s) :
    Represents m (rs ++ [r]) (os ++ [o]) where
  length := by rw [List.length_append, List.length_append, h.length]; rfl
  objects i s p hs hp := by
    have hlen := h.length
    rcases getElem?_snoc hs with ⟨hi, hs'⟩ | ⟨hi, rfl⟩ <;>
      rcases getElem?_snoc hp with ⟨hi', hp'⟩ | ⟨hi', rfl⟩
    · exact h.objects i s p hs' hp'
    · omega
    · omega
    · exact hr
  apart i j s t hij hs ht := by
    rcases getElem?_snoc hs with ⟨-, hs'⟩ | ⟨hi, rfl⟩ <;>
      rcases getElem?_snoc ht with ⟨-, ht'⟩ | ⟨hj, rfl⟩
    · exact h.apart i j s t hij hs' ht'
    · exact (hapart s (List.mem_of_getElem? hs')).symm
    · exact hapart t (List.mem_of_getElem? ht')
    · exact absurd (hi.trans hj.symm) hij

/-- One object less. -/
theorem erase (h : Represents m rs os) (n : Nat) :
    Represents m (rs.eraseIdx n) (os.eraseIdx n) where
  length := by rw [List.length_eraseIdx, List.length_eraseIdx, h.length]
  objects i r o hr ho := by
    rw [List.getElem?_eraseIdx] at hr ho
    split at hr
    case isTrue hi => rw [if_pos hi] at ho; exact h.objects i r o hr ho
    case isFalse hi => rw [if_neg hi] at ho; exact h.objects (i + 1) r o hr ho
  apart i j r s hij hr hs := by
    rw [List.getElem?_eraseIdx] at hr hs
    split at hr <;> split at hs <;> exact h.apart _ _ r s (by omega) hr hs

/-- A byte of one object is stored. -/
theorem store (h : Represents m rs os) {i k : Nat} (hr : rs[i]? = some r) (ho : os[i]? = some o)
    (hk : k < o.bytes.length) (v : UInt8) :
    Represents (Function.update m (r.addr + BitVec.ofNat w k) v) rs
      (os.set i { o with bytes := o.bytes.set k (some v) }) where
  length := h.length.trans List.length_set.symm
  objects j s p hs hp := by
    have hold := h.objects i r o hr ho
    rw [List.getElem?_set] at hp
    split at hp
    case isTrue hij =>
      subst hij
      rw [if_pos (List.getElem?_eq_some_iff.mp ho).1] at hp
      obtain rfl := Option.some.inj hp
      obtain rfl := Option.some.inj (hr.symm.trans hs)
      exact hold.set hk v
    case isFalse hij =>
      have hmem : r.addr + BitVec.ofNat w k ∈ r := Range.mem_offset (hold.size ▸ hk)
      refine (h.objects j s p hs hp).congr fun x hx => Function.update_of_ne (fun he => ?_) ..
      exact h.apart i j r s hij hr hs x (he ▸ hmem) hx
  apart := h.apart

end Represents

end

end SalernOS.Lib
