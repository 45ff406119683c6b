import Mathlib.Data.BitVec

/-! # `mlibc-salernos/sysdeps/include/salernos/syscall.h`

A system call returns two registers. The kernel sets `errno` to an error
number when the call fails, and to zero when it succeeds; what it stores in
the memory of the caller is a part of its answer.
-/
namespace SalernOS.Sysdeps

/-- `struct __syscall_ret`. -/
structure SyscallRet where
  ret : BitVec 64
  errno : BitVec 64

/-- An error number: positive, and within an `int`. -/
structure Errno where
  code : BitVec 64
  pos : 0 < code.toNat
  small : code.toNat < 2 ^ 31

/-- How the kernel answers; `α` is what it stores on success. -/
inductive Reply (α : Type) where
  | failure (ret : BitVec 64) (errno : Errno)
  | success (ret : BitVec 64) (stored : α)

variable {α : Type}

def Reply.regs : Reply α → SyscallRet
  | .failure ret errno => ⟨ret, errno.code⟩
  | .success ret _ => ⟨ret, 0⟩

/-- The memory that the call writes to, `old` before it. -/
def Reply.store (old : α) : Reply α → α
  | .failure _ _ => old
  | .success _ stored => stored

/-- The conversion from `uint64_t` to `int`. -/
def cint (x : BitVec 64) : Int := (x.setWidth 32).toInt

theorem cint_small {x : BitVec 64} (h : x.toNat < 2 ^ 31) : cint x = x.toNat := by
  have hw : (x.setWidth 32).toNat = x.toNat := by
    rw [BitVec.toNat_setWidth]
    exact Nat.mod_eq_of_lt (by omega)
  rw [cint, BitVec.toInt_eq_toNat_of_lt (by omega), hw]

theorem Errno.code_ne (e : Errno) : e.code ≠ 0 := by
  intro h
  have := e.pos
  rw [h] at this
  exact absurd this (by decide)

theorem Errno.cint_pos (e : Errno) : 0 < cint e.code := by
  rw [cint_small e.small]
  exact_mod_cast e.pos

/-- What the callers of `__syscall` test. -/
theorem Reply.errno_failure (ret : BitVec 64) (e : Errno) :
    (Reply.failure (α := α) ret e).regs.errno ≠ 0 := e.code_ne

end SalernOS.Sysdeps
