import SalernOS.Lib.BitLayout

/-! # `sysdeps/include/sys/sysmacros.h`

A device number holds the bits of a major and of a minor number, each of them in
two pieces. The masks are of type `int`, and so are their complements.
-/
namespace SalernOS.Sysdeps.Sysmacros
open SalernOS.Lib

/-- From `int` to `unsigned long long`. -/
def ofInt (x : BitVec 32) : BitVec 64 := x.signExtend 64

/-- From `unsigned int` to `unsigned long long`. -/
def ofUnsigned (x : BitVec 32) : BitVec 64 := x.setWidth 64

/-- From `unsigned long long` to `unsigned int`. -/
def toUnsigned (x : BitVec 64) : BitVec 32 := x.setWidth 32

def mlibcDevMajor (dev : BitVec 64) : BitVec 32 :=
  toUnsigned (((dev >>> 8) &&& ofInt 0xfff#32) |||
    ofUnsigned (toUnsigned (dev >>> 32) &&& ~~~0xfff#32))

def mlibcDevMinor (dev : BitVec 64) : BitVec 32 :=
  toUnsigned ((dev &&& ofInt 0xff#32) ||| ofUnsigned (toUnsigned (dev >>> 12) &&& ~~~0xff#32))

def mlibcDevMakedev (major minor : BitVec 32) : BitVec 64 :=
  ofUnsigned ((minor &&& 0xff#32) ||| ((major &&& 0xfff#32) <<< 8)) |||
    (ofUnsigned (minor &&& ~~~0xff#32) <<< 12) ||| (ofUnsigned (major &&& ~~~0xfff#32) <<< 32)

/-! ## The layout of a device number -/

/-- Twelve bits of the major number stand behind eight of the minor one, and the
other bits of both behind them. -/
def devLayout : BitLayout 32 32 64 where
  left i := if i < 12 then i + 8 else i + 32
  right i := if i < 8 then i else i + 12
  covers := by
    intro j hj
    by_cases h8 : j < 8
    · exact .inr ⟨j, by omega, if_pos h8⟩
    by_cases h20 : j < 20
    · exact .inl ⟨j - 8, by omega, by rw [if_pos (by omega)]; omega⟩
    by_cases h44 : j < 44
    · exact .inr ⟨j - 12, by omega, by rw [if_neg (by omega)]; omega⟩
    · exact .inl ⟨j - 32, by omega, by rw [if_neg (by omega)]; omega⟩

/-! ## The functions keep to it -/

theorem uint_0xff : 0xff#32 = BitVec.ofNat 32 (2 ^ 8 - 1) := rfl
theorem uint_0xfff : 0xfff#32 = BitVec.ofNat 32 (2 ^ 12 - 1) := rfl
theorem ofInt_0xff : ofInt 0xff#32 = BitVec.ofNat 64 (2 ^ 8 - 1) := by decide
theorem ofInt_0xfff : ofInt 0xfff#32 = BitVec.ofNat 64 (2 ^ 12 - 1) := by decide

/-- The `k` lowest bits of one word, and the other bits of another. -/
theorem getLsbD_pieces (low : BitVec 64) (high : BitVec 32) (k : Nat) {i : Nat} (hi : i < 32) :
    (toUnsigned ((low &&& BitVec.ofNat 64 (2 ^ k - 1)) |||
      ofUnsigned (high &&& ~~~BitVec.ofNat 32 (2 ^ k - 1)))).getLsbD i =
      if i < k then low.getLsbD i else high.getLsbD i := by
  have hi' : i < 64 := by omega
  simp only [toUnsigned, ofUnsigned, BitVec.getLsbD_setWidth, BitVec.getLsbD_or, getLsbD_and_mask,
    getLsbD_and_not_mask, hi, hi', decide_true, Bool.true_and]
  by_cases h : i < k
  · rw [if_pos h, decide_eq_true h, decide_eq_false (Nat.not_le.mpr h), Bool.true_and,
      Bool.false_and, Bool.or_false]
  · rw [if_neg h, decide_eq_false h, decide_eq_true (Nat.not_lt.mp h), Bool.false_and,
      Bool.true_and, Bool.false_or]

/-- `major` and `minor` read every bit at its place. -/
theorem holds_parts (dev : BitVec 64) :
    devLayout.Holds (mlibcDevMajor dev) (mlibcDevMinor dev) dev := by
  have hshift : ∀ s {i : Nat}, i < 32 → (toUnsigned (dev >>> s)).getLsbD i = dev.getLsbD (i + s) := by
    intro s i hi
    rw [toUnsigned, BitVec.getLsbD_setWidth, BitVec.getLsbD_ushiftRight, decide_eq_true hi,
      Bool.true_and, Nat.add_comm]
  constructor
  · intro i hi
    unfold mlibcDevMajor
    rw [ofInt_0xfff, uint_0xfff, getLsbD_pieces _ _ 12 hi, BitVec.getLsbD_ushiftRight,
      hshift 32 hi, Nat.add_comm 8 i]
    exact apply_ite dev.getLsbD (i < 12) (i + 8) (i + 32)
  · intro i hi
    unfold mlibcDevMinor
    rw [ofInt_0xff, uint_0xff, getLsbD_pieces _ _ 8 hi, hshift 12 hi]
    exact apply_ite dev.getLsbD (i < 8) i (i + 12)

/-- `makedev` puts every bit at its place. -/
theorem holds_makedev (major minor : BitVec 32) :
    devLayout.Holds major minor (mlibcDevMakedev major minor) := by
  -- what is shifted over the end of a part is zero
  have hmajor := major.getLsbD_of_ge
  have hminor := minor.getLsbD_of_ge
  constructor
  · intro i hi
    unfold mlibcDevMakedev
    rw [uint_0xfff, uint_0xff]
    simp only [devLayout, ofUnsigned, BitVec.getLsbD_setWidth, BitVec.getLsbD_or,
      BitVec.getLsbD_shiftLeft, getLsbD_and_mask, getLsbD_and_not_mask]
    by_cases h : i < 12
    · rw [if_pos h, Nat.add_sub_cancel]
      grind
    · rw [if_neg h, Nat.add_sub_cancel]
      grind
  · intro i hi
    unfold mlibcDevMakedev
    rw [uint_0xfff, uint_0xff]
    simp only [devLayout, ofUnsigned, BitVec.getLsbD_setWidth, BitVec.getLsbD_or,
      BitVec.getLsbD_shiftLeft, getLsbD_and_mask, getLsbD_and_not_mask]
    by_cases h : i < 8
    · rw [if_pos h]
      grind
    · rw [if_neg h, Nat.add_sub_cancel]
      grind

/-- **Device numbers are a bijection.** The parts of a number that was made are
those it was made of, and every number is made of its parts. -/
theorem device_numbers_bijective :
    (∀ major minor, mlibcDevMajor (mlibcDevMakedev major minor) = major ∧
      mlibcDevMinor (mlibcDevMakedev major minor) = minor) ∧
    ∀ dev, mlibcDevMakedev (mlibcDevMajor dev) (mlibcDevMinor dev) = dev := by
  constructor
  · intro major minor
    have hparts := holds_parts (mlibcDevMakedev major minor)
    have hmade := holds_makedev major minor
    exact ⟨hparts.left_unique hmade, hparts.right_unique hmade⟩
  · intro dev
    have hmade := holds_makedev (mlibcDevMajor dev) (mlibcDevMinor dev)
    exact hmade.word_unique (holds_parts dev)

end SalernOS.Sysdeps.Sysmacros
