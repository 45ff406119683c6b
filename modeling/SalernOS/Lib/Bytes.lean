import Mathlib.Data.Nat.Digits.Defs
import Mathlib.Data.UInt

/-! # Numbers in memory

The bytes of a number, the least one first.
-/
namespace SalernOS.Lib

/-- The number that bytes stand for. -/
def ofBytes (bs : List UInt8) : Nat := Nat.ofDigits 256 (bs.map UInt8.toNat)

/-- The lowest `n` bytes of a number. -/
def toBytes : Nat → Nat → List UInt8
  | 0, _ => []
  | n + 1, v => UInt8.ofNat v :: toBytes n (v / 256)

@[simp] theorem length_toBytes : ∀ n v : Nat, (toBytes n v).length = n
  | 0, _ => rfl
  | n + 1, v => congrArg (· + 1) (length_toBytes n (v / 256))

@[simp] theorem ofBytes_nil : ofBytes [] = 0 := rfl

theorem ofBytes_cons (b : UInt8) (bs : List UInt8) :
    ofBytes (b :: bs) = b.toNat + 256 * ofBytes bs := Nat.ofDigits_cons

theorem ofBytes_toBytes : ∀ n v : Nat, ofBytes (toBytes n v) = v % 256 ^ n
  | 0, v => by rw [toBytes, ofBytes_nil, Nat.pow_zero, Nat.mod_one]
  | n + 1, v => by
    have hpow : 256 ^ (n + 1) = 256 * 256 ^ n := Nat.pow_succ'
    rw [toBytes, ofBytes_cons, ofBytes_toBytes n (v / 256), UInt8.toNat_ofNat', hpow, Nat.mod_mul]

end SalernOS.Lib
