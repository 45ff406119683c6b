import Mathlib.Data.BitVec
import Mathlib.Tactic.Ring

/-! # `mlibc-salernos/sysdeps/include/asm/ioctl.h`

A request holds a direction, a type, a number and a size. The size is a
`size_t`, and makes the request one of 64 bits; the others have 32.
-/
namespace SalernOS.Sysdeps.Ioctl

def iocNrbits : Nat := 8
def iocTypebits : Nat := 8
def iocSizebits : Nat := 14
def iocDirbits : Nat := 2

def iocNrshift : Nat := 0
def iocTypeshift : Nat := iocNrshift + iocNrbits
def iocSizeshift : Nat := iocTypeshift + iocTypebits
def iocDirshift : Nat := iocSizeshift + iocSizebits

def iocNone : BitVec 32 := 0
def iocWrite : BitVec 32 := 1
def iocRead : BitVec 32 := 2

/-- `_IOC`. -/
def ioc (dir type nr : BitVec 32) (size : BitVec 64) : BitVec 64 :=
  (dir <<< iocDirshift ||| type <<< iocTypeshift ||| nr <<< iocNrshift).setWidth 64 |||
    size <<< iocSizeshift

/-- `_IO`, `_IOR`, `_IOW` and `_IOWR`; `size` is that of the type. -/
def io (type nr : BitVec 32) : BitVec 64 := ioc iocNone type nr 0
def ior (type nr : BitVec 32) (size : BitVec 64) : BitVec 64 := ioc iocRead type nr size
def iow (type nr : BitVec 32) (size : BitVec 64) : BitVec 64 := ioc iocWrite type nr size
def iowr (type nr : BitVec 32) (size : BitVec 64) : BitVec 64 :=
  ioc (iocRead ||| iocWrite) type nr size

/-- `(1 << bits) - 1`. -/
def mask (bits : Nat) : BitVec 64 := BitVec.ofNat 64 (2 ^ bits - 1)

def iocDir (nr : BitVec 64) : BitVec 64 := nr >>> iocDirshift &&& mask iocDirbits
def iocType (nr : BitVec 64) : BitVec 64 := nr >>> iocTypeshift &&& mask iocTypebits
def iocNr (nr : BitVec 64) : BitVec 64 := nr >>> iocNrshift &&& mask iocNrbits
def iocSize (nr : BitVec 64) : BitVec 64 := nr >>> iocSizeshift &&& mask iocSizebits

/-! ## As numbers -/

theorem toNat_field (x : BitVec 64) (shift : Nat) {bits : Nat} (h : bits < 64) :
    (x >>> shift &&& mask bits).toNat = x.toNat / 2 ^ shift % 2 ^ bits := by
  have hlt : 2 ^ bits - 1 < 2 ^ 64 := by
    have := Nat.pow_lt_pow_right (by decide : 1 < 2) h
    omega
  rw [BitVec.toNat_and, BitVec.toNat_ushiftRight, mask, BitVec.toNat_ofNat, Nat.mod_eq_of_lt hlt,
    Nat.and_two_pow_sub_one_eq_mod, Nat.shiftRight_eq_div_pow]

theorem toNat_iocDir (x : BitVec 64) : (iocDir x).toNat = x.toNat / 2 ^ 30 % 2 ^ 2 :=
  toNat_field x iocDirshift (by decide)
theorem toNat_iocType (x : BitVec 64) : (iocType x).toNat = x.toNat / 2 ^ 8 % 2 ^ 8 :=
  toNat_field x iocTypeshift (by decide)
theorem toNat_iocNr (x : BitVec 64) : (iocNr x).toNat = x.toNat / 2 ^ 0 % 2 ^ 8 :=
  toNat_field x iocNrshift (by decide)
theorem toNat_iocSize (x : BitVec 64) : (iocSize x).toNat = x.toNat / 2 ^ 16 % 2 ^ 14 :=
  toNat_field x iocSizeshift (by decide)

theorem toNat_wide (a : BitVec 32) : (a.setWidth 64).toNat = a.toNat := by
  rw [BitVec.toNat_setWidth, Nat.mod_eq_of_lt (Nat.lt_trans a.isLt (by decide))]

/-- The fields fit their bits. -/
structure Fits (dir type nr : BitVec 32) (size : BitVec 64) : Prop where
  dir : dir.toNat < 2 ^ iocDirbits
  type : type.toNat < 2 ^ iocTypebits
  nr : nr.toNat < 2 ^ iocNrbits
  size : size.toNat < 2 ^ iocSizebits

/-- The macros give the fields back. -/
structure Holds (x : BitVec 64) (dir type nr : BitVec 32) (size : BitVec 64) : Prop where
  dir : iocDir x = dir.setWidth 64
  type : iocType x = type.setWidth 64
  nr : iocNr x = nr.setWidth 64
  size : iocSize x = size

variable {dir type nr : BitVec 32} {size x : BitVec 64}

theorem or_eq_add (a i : Nat) {b : Nat} (h : b < 2 ^ i) : a * 2 ^ i ||| b = a * 2 ^ i + b := by
  rw [← Nat.shiftLeft_eq, Nat.shiftLeft_add_eq_or_of_lt h]

/-- Fields that fit do not overlap. -/
theorem toNat_ioc (h : Fits dir type nr size) : (ioc dir type nr size).toNat =
    nr.toNat + 2 ^ 8 * (type.toNat + 2 ^ 8 * (size.toNat + 2 ^ 14 * dir.toNat)) := by
  obtain ⟨hdir, htype, hnr, hsize⟩ := h
  simp only [iocDirbits, iocTypebits, iocNrbits, iocSizebits] at hdir htype hnr hsize
  have hstep : dir.toNat * 2 ^ 30 + size.toNat * 2 ^ 16 =
      (dir.toNat * 2 ^ 14 + size.toNat) * 2 ^ 16 := by ring
  have hstep' : (dir.toNat * 2 ^ 14 + size.toNat) * 2 ^ 16 + type.toNat * 2 ^ 8 =
      ((dir.toNat * 2 ^ 14 + size.toNat) * 2 ^ 8 + type.toNat) * 2 ^ 8 := by ring
  have hbits : (ioc dir type nr size).toNat =
      ((dir.toNat * 2 ^ 30 ||| size.toNat * 2 ^ 16) ||| type.toNat * 2 ^ 8) ||| nr.toNat := by
    have hlow : dir.toNat * 2 ^ 30 ||| type.toNat * 2 ^ 8 ||| nr.toNat < 2 ^ 32 :=
      Nat.or_lt_two_pow (Nat.or_lt_two_pow (by omega) (by omega)) (by omega)
    have hshift (a : BitVec 32) (k : Nat) (hlt : a.toNat * 2 ^ k < 2 ^ 32) :
        (a <<< k).toNat = a.toNat * 2 ^ k := by
      rw [BitVec.toNat_shiftLeft, Nat.shiftLeft_eq, Nat.mod_eq_of_lt hlt]
    rw [ioc, BitVec.toNat_or, BitVec.toNat_setWidth, BitVec.toNat_or, BitVec.toNat_or,
      hshift dir iocDirshift (by change _ * 2 ^ 30 < _; omega),
      hshift type iocTypeshift (by change _ * 2 ^ 8 < _; omega),
      hshift nr iocNrshift (by change _ * 2 ^ 0 < _; omega), BitVec.toNat_shiftLeft,
      Nat.shiftLeft_eq]
    show (dir.toNat * 2 ^ 30 ||| type.toNat * 2 ^ 8 ||| nr.toNat * 2 ^ 0) % 2 ^ 64 |||
      size.toNat * 2 ^ 16 % 2 ^ 64 = _
    rw [Nat.pow_zero, Nat.mul_one, Nat.mod_eq_of_lt (by omega), Nat.mod_eq_of_lt (by omega)]
    ac_rfl
  rw [hbits, or_eq_add dir.toNat 30 (by omega), hstep, or_eq_add _ 16 (by omega), hstep',
    or_eq_add _ 8 hnr]
  ring

/-- What is taken apart fits. -/
theorem Holds.fits (h : Holds x dir type nr size) : Fits dir type nr size := by
  have hdir := toNat_iocDir x
  have htype := toNat_iocType x
  have hnr := toNat_iocNr x
  have hsize := toNat_iocSize x
  rw [h.dir, toNat_wide] at hdir
  rw [h.type, toNat_wide] at htype
  rw [h.nr, toNat_wide] at hnr
  rw [h.size] at hsize
  refine ⟨?_, ?_, ?_, ?_⟩ <;> simp only [iocDirbits, iocTypebits, iocNrbits, iocSizebits] <;> omega

theorem holds_ioc (h : Fits dir type nr size) : Holds (ioc dir type nr size) dir type nr size := by
  have hnum := toNat_ioc h
  obtain ⟨hdir, htype, hnr, hsize⟩ := h
  simp only [iocDirbits, iocTypebits, iocNrbits, iocSizebits] at hdir htype hnr hsize
  refine ⟨?_, ?_, ?_, ?_⟩ <;> apply BitVec.eq_of_toNat_eq
  · rw [toNat_iocDir, toNat_wide, hnum]
    omega
  · rw [toNat_iocType, toNat_wide, hnum]
    omega
  · rw [toNat_iocNr, toNat_wide, hnum]
    omega
  · rw [toNat_iocSize, hnum]
    omega

/-- The fields of one request. -/
theorem Holds.unique {dir' type' nr' : BitVec 32} {size' : BitVec 64}
    (h : Holds x dir type nr size) (h' : Holds x dir' type' nr' size') :
    dir = dir' ∧ type = type' ∧ nr = nr' ∧ size = size' := by
  have hwide {a b : BitVec 32} (he : a.setWidth 64 = b.setWidth 64) : a = b := by
    have hnum := congrArg BitVec.toNat he
    rw [toNat_wide, toNat_wide] at hnum
    exact BitVec.eq_of_toNat_eq hnum
  exact ⟨hwide (h.dir.symm.trans h'.dir), hwide (h.type.symm.trans h'.type),
    hwide (h.nr.symm.trans h'.nr), h.size.symm.trans h'.size⟩

/-- A request of 32 bits is the one that is made of its fields. -/
theorem ioc_fields (h : x.toNat < 2 ^ 32) :
    Fits ((iocDir x).setWidth 32) ((iocType x).setWidth 32) ((iocNr x).setWidth 32) (iocSize x) ∧
    ioc ((iocDir x).setWidth 32) ((iocType x).setWidth 32) ((iocNr x).setWidth 32) (iocSize x) = x := by
  have hdir := toNat_iocDir x
  have htype := toNat_iocType x
  have hnr := toNat_iocNr x
  have hsize := toNat_iocSize x
  have hnarrow (a : BitVec 64) (ha : a.toNat < 2 ^ 32) : (a.setWidth 32).toNat = a.toNat := by
    rw [BitVec.toNat_setWidth, Nat.mod_eq_of_lt ha]
  have hdir' := hnarrow (iocDir x) (by omega)
  have htype' := hnarrow (iocType x) (by omega)
  have hnr' := hnarrow (iocNr x) (by omega)
  have hfits : Fits ((iocDir x).setWidth 32) ((iocType x).setWidth 32) ((iocNr x).setWidth 32)
      (iocSize x) := by
    refine ⟨?_, ?_, ?_, ?_⟩ <;> simp only [iocDirbits, iocTypebits, iocNrbits, iocSizebits] <;> omega
  refine ⟨hfits, BitVec.eq_of_toNat_eq ?_⟩
  rw [toNat_ioc hfits]
  omega

/-- **Requests are taken apart as they were put together.** The fields come back
exactly if they fit their bits, and then the request has 32 of them; and every
request of 32 bits is put together from fields that fit, and only from these. -/
theorem ioctl_requests :
    (∀ (dir type nr : BitVec 32) (size : BitVec 64),
      (Holds (ioc dir type nr size) dir type nr size ↔ Fits dir type nr size) ∧
      (Fits dir type nr size → (ioc dir type nr size).toNat < 2 ^ 32)) ∧
    ∀ x : BitVec 64, x.toNat < 2 ^ 32 →
      ∃ dir type nr size, Fits dir type nr size ∧ ioc dir type nr size = x ∧
        ∀ dir' type' nr' size', Fits dir' type' nr' size' → ioc dir' type' nr' size' = x →
          dir' = dir ∧ type' = type ∧ nr' = nr ∧ size' = size := by
  refine ⟨fun dir type nr size => ⟨⟨Holds.fits, holds_ioc⟩, fun h => ?_⟩, fun x hx => ?_⟩
  · have hnum := toNat_ioc h
    obtain ⟨hdir, htype, hnr, hsize⟩ := h
    simp only [iocDirbits, iocTypebits, iocNrbits, iocSizebits] at hdir htype hnr hsize
    omega
  · obtain ⟨hfits, heq⟩ := ioc_fields hx
    refine ⟨_, _, _, _, hfits, heq, fun dir' type' nr' size' hfits' heq' => ?_⟩
    have hholds := holds_ioc hfits
    have hholds' := holds_ioc hfits'
    rw [heq] at hholds
    rw [heq'] at hholds'
    exact hholds'.unique hholds

/-- `TIOCGPTN`. -/
def tiocgptn : BitVec 64 := ior 84 0x30 4

theorem tiocgptn_requests : Holds tiocgptn iocRead 84 0x30 4 ∧
    ∃ dir type nr size, Fits dir type nr size ∧ ioc dir type nr size = tiocgptn :=
  have hfits : Fits iocRead 84 0x30 4 := ⟨by decide, by decide, by decide, by decide⟩
  have ⟨dir, type, nr, size, h, he, _⟩ := ioctl_requests.2 tiocgptn (by decide)
  ⟨(ioctl_requests.1 iocRead 84 0x30 4).1.mpr hfits, dir, type, nr, size, h, he⟩

end SalernOS.Sysdeps.Ioctl
