import SalernOS.Libc.Text
import SalernOS.Sysdeps.Syscall

/-! # Pseudo-terminals in `mlibc-salernos/sysdeps/generic/generic.cpp`

`sys_ioctl` returns an error number, and stores the result of the call on
success only. Its callers here look at the stored result alone. What their
local variables hold before is an argument.
-/
namespace SalernOS.Sysdeps.Pty
open SalernOS.Libc

def erange : Int := 34

/-- The buffer holds a text as a C string. -/
def Holds (buffer text : Bytes) : Prop := ∃ rest, buffer = text ++ nul :: rest

end SalernOS.Sysdeps.Pty
