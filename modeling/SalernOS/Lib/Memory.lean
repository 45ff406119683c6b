import Mathlib.Data.BitVec
import Mathlib.Logic.Function.Basic
import SalernOS.Lib.Bytes

/-! # Byte memories

Addresses wrap around. How far one lies behind another is their difference, so
that ranges need no condition on where the memory ends.
-/
namespace SalernOS.Lib

abbrev Memory (w : Nat) := BitVec w → UInt8

namespace Memory

variable {w : Nat}

/-- The bytes, from an address on. -/
def storeBytes (m : Memory w) : BitVec w → List UInt8 → Memory w
  | _, [] => m
  | a, b :: bs => Function.update (storeBytes m (a + 1) bs) a b

def loadBytes (m : Memory w) : BitVec w → Nat → List UInt8
  | _, 0 => []
  | a, n + 1 => m a :: loadBytes m (a + 1) n

/-- A word of eight bytes, the least one first. -/
def store64 (m : Memory w) (a : BitVec w) (v : BitVec 64) : Memory w :=
  m.storeBytes a (toBytes 8 v.toNat)

def load64 (m : Memory w) (a : BitVec w) : BitVec 64 := BitVec.ofNat 64 (ofBytes (m.loadBytes a 8))

/-! ## Distances -/

theorem toNat_sub_succ {a x : BitVec w} (h : x ≠ a) : (x - (a + 1)).toNat + 1 = (x - a).toNat := by
  have hpos : (x - a).toNat ≠ 0 := fun heq =>
    h (sub_eq_zero.mp (BitVec.eq_of_toNat_eq (heq.trans BitVec.toNat_zero.symm)))
  have hlt := (x - a).isLt
  have hone : (1 : BitVec w).toNat = 1 := by
    change 1 % 2 ^ w = 1
    exact Nat.mod_eq_of_lt (by omega)
  have hle : 1 ≤ x - a := by
    rw [BitVec.le_def, hone]
    omega
  rw [sub_add_eq_sub_sub, BitVec.toNat_sub_of_le hle, hone]
  omega

theorem toNat_sub_self_succ (a : BitVec w) : (a - (a + 1)).toNat = 2 ^ w - 1 := by
  have hneg : a - (a + 1) = BitVec.allOnes w := by
    rw [sub_add_eq_sub_sub, sub_self, zero_sub]
    exact BitVec.neg_one_eq_allOnes
  rw [hneg, BitVec.toNat_allOnes]

theorem toNat_sub_le_succ (a x : BitVec w) : (x - a).toNat ≤ (x - (a + 1)).toNat + 1 := by
  by_cases h : x = a
  · subst h
    rw [BitVec.sub_self, BitVec.toNat_zero]
    exact Nat.zero_le _
  · exact (toNat_sub_succ h).ge

/-! ## What is loaded behind a store -/

/-- A store leaves what lies behind it. -/
theorem storeBytes_of_le (m : Memory w) : ∀ (bs : List UInt8) {a x : BitVec w},
    bs.length ≤ (x - a).toNat → m.storeBytes a bs x = m x
  | [], _, _, _ => rfl
  | b :: bs, a, x, h => by
    rw [List.length_cons] at h
    have hne : x ≠ a := by
      intro heq
      rw [heq, BitVec.sub_self, BitVec.toNat_zero] at h
      cases h
    have hdist := toNat_sub_succ hne
    rw [storeBytes, Function.update_of_ne hne, storeBytes_of_le m bs (by omega)]

/-- Only the bytes of the range matter. -/
theorem loadBytes_congr {m m' : Memory w} : ∀ (n : Nat) {a : BitVec w},
    (∀ x, (x - a).toNat < n → m x = m' x) → m.loadBytes a n = m'.loadBytes a n
  | 0, _, _ => rfl
  | n + 1, a, h => by
    have hhead : m a = m' a := h a (by rw [BitVec.sub_self]; exact Nat.succ_pos n)
    rw [loadBytes, loadBytes, hhead, loadBytes_congr n fun x hx => h x ?_]
    exact Nat.lt_of_le_of_lt (toNat_sub_le_succ a x) (Nat.succ_lt_succ hx)

theorem length_loadBytes (m : Memory w) : ∀ (n : Nat) (a : BitVec w), (m.loadBytes a n).length = n
  | 0, _ => rfl
  | n + 1, a => congrArg Nat.succ (length_loadBytes m n (a + 1))

/-- A byte apart from a range can be stored first. -/
theorem storeBytes_update (m : Memory w) (x : BitVec w) (v : UInt8) :
    ∀ (bs : List UInt8) {a : BitVec w}, bs.length ≤ (x - a).toNat →
      storeBytes (Function.update m x v) a bs = Function.update (m.storeBytes a bs) x v
  | [], _, _ => rfl
  | b :: bs, a, h => by
    rw [List.length_cons] at h
    have hne : x ≠ a := by
      intro heq
      rw [heq, BitVec.sub_self, BitVec.toNat_zero] at h
      cases h
    have hdist := toNat_sub_succ hne
    rw [storeBytes, storeBytes, storeBytes_update m x v bs (by omega), Function.update_comm hne]

theorem loadBytes_storeBytes (m : Memory w) : ∀ (bs : List UInt8) (a : BitVec w),
    bs.length ≤ 2 ^ w → (m.storeBytes a bs).loadBytes a bs.length = bs
  | [], _, _ => rfl
  | b :: bs, a, h => by
    rw [List.length_cons] at h
    have htail : (m.storeBytes a (b :: bs)).loadBytes (a + 1) bs.length =
        (m.storeBytes (a + 1) bs).loadBytes (a + 1) bs.length := by
      refine loadBytes_congr bs.length fun x hx => ?_
      have hne : x ≠ a := by
        intro heq
        rw [heq, toNat_sub_self_succ] at hx
        omega
      rw [storeBytes, Function.update_of_ne hne]
    rw [List.length_cons, loadBytes, htail, loadBytes_storeBytes m bs (a + 1) (by omega), storeBytes,
      Function.update_self]

/-- A range apart from the store. -/
theorem loadBytes_storeBytes_of_le (m : Memory w) (bs : List UInt8) {a c : BitVec w} {n : Nat}
    (h : ∀ x, (x - c).toNat < n → bs.length ≤ (x - a).toNat) :
    (m.storeBytes a bs).loadBytes c n = m.loadBytes c n :=
  loadBytes_congr n fun x hx => storeBytes_of_le m bs (h x hx)

/-! ## Words -/

theorem load64_store64 (m : Memory w) (a : BitVec w) (v : BitVec 64) (h : 8 ≤ 2 ^ w) :
    (m.store64 a v).load64 a = v := by
  have hbytes : (m.store64 a v).loadBytes a 8 = toBytes 8 v.toNat :=
    loadBytes_storeBytes m (toBytes 8 v.toNat) a h
  rw [load64, hbytes, ofBytes_toBytes]
  apply BitVec.eq_of_toNat_eq
  rw [BitVec.toNat_ofNat]
  change v.toNat % 2 ^ 64 % 2 ^ 64 = v.toNat
  rw [Nat.mod_mod, Nat.mod_eq_of_lt v.isLt]

/-- Words that do not overlap: neither begins within eight bytes of the other. -/
theorem load64_store64_of_le (m : Memory w) {a c : BitVec w} (v : BitVec 64)
    (hac : 8 ≤ (c - a).toNat) (hca : 8 ≤ (a - c).toNat) :
    (m.store64 a v).load64 c = m.load64 c := by
  have hbytes : (m.store64 a v).loadBytes c 8 = m.loadBytes c 8 := by
    refine loadBytes_storeBytes_of_le m _ fun x hx => ?_
    rw [length_toBytes]
    have hsum : x - a = (x - c) + (c - a) := (sub_add_sub_cancel x c a).symm
    have hneg : (a - c).toNat = 2 ^ w - (c - a).toNat := by
      have hlt := (c - a).isLt
      rw [← neg_sub c a, BitVec.toNat_neg, Nat.mod_eq_of_lt (by omega)]
    rw [hsum, BitVec.toNat_add, Nat.mod_eq_of_lt (by omega)]
    omega
  rw [load64, load64, hbytes]

/-- A word below the one that is loaded. -/
theorem load64_store64_below (m : Memory w) (a : BitVec w) (v : BitVec 64) {d : BitVec w}
    (hd : 8 ≤ d.toNat) (hw : d.toNat + 8 ≤ 2 ^ w) :
    (m.store64 (a - d) v).load64 a = m.load64 a := by
  refine load64_store64_of_le m v ?_ ?_
  · rw [sub_sub_cancel]
    exact hd
  · rw [sub_sub_cancel_left, BitVec.toNat_neg, Nat.mod_eq_of_lt (by omega)]
    omega

end Memory

end SalernOS.Lib
