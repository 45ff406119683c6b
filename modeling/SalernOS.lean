import SalernOS.Init.Program
import SalernOS.Init.Release
import SalernOS.Init.Atomicity
import SalernOS.Init.Barrier
import SalernOS.Init.Boot
import SalernOS.Sysdeps.Select
import SalernOS.Sysdeps.SelectCount
import SalernOS.Sysdeps.Pty
import SalernOS.Lib.Descriptors
import SalernOS.Sysdeps.Openpty
import SalernOS.Sysdeps.Forkpty
import SalernOS.Init.ChildTable
import SalernOS.Init.Names
import SalernOS.Xorg.Mouse
import SalernOS.Sysdeps.FdFlags
import SalernOS.Sysdeps.Sleep
import SalernOS.Lib.Chunks
import SalernOS.Sysdeps.Utmpx
import SalernOS.Sysdeps.UtmpxLog
import SalernOS.Lib.Munch
import SalernOS.Libc.FloatConstant
import SalernOS.Libc.ScanFloat
import SalernOS.Xorg.MouseRead
import SalernOS.Xorg.Keyboard
import SalernOS.Libc.Ownership
import SalernOS.Init.ParseOwnership
import SalernOS.Init.ParseBounds
import SalernOS.Init.EvalBounds
import SalernOS.Init.EvalStores
import SalernOS.Init.ExecDescriptors
import SalernOS.Lib.ExchangeSort
import SalernOS.Libc.Qsort
import SalernOS.Util.Kprofile
import SalernOS.Lib.Memory
import SalernOS.Libc.WideChar
import SalernOS.Sysdeps.Thread
import SalernOS.Lib.BitLayout
import SalernOS.Sysdeps.Sysmacros
import SalernOS.Libc.MultiByte
import SalernOS.Init.Completion
import SalernOS.Lib.Bisection
import SalernOS.Lib.Futex
import SalernOS.Lib.Generators
import SalernOS.Lib.Words
import SalernOS.Libc.Bsearch
import SalernOS.Libc.RandR
import SalernOS.Libc.Signals
import SalernOS.Libc.Stdio
import SalernOS.Sysdeps.Mntent
import SalernOS.Sysdeps.MountTable
import SalernOS.Sysdeps.Trampoline
import SalernOS.Lib.Objects
import SalernOS.Libc.Allocation
import SalernOS.Libc.Jumps
import SalernOS.Sysdeps.Ioctl
import SalernOS.Sysdeps.PtySession
import SalernOS.Sysdeps.WaitStatus
import SalernOS.Util.KprofileMain
import SalernOS.Libc.Strings
