import ToastyUnix.Sched.UserStack
import ToastyUnix.Sched.AddressSpace

/-!
# The arguments of execve

`sys_execve` of `kernel/syscall/syscall.c` copies the path and the argument strings of a user task
into buffers of fixed size, and `elf_exec_current` hands them to `exec_build_stack` once the image
is loaded. The main result says which arguments the new program finds on its stack, and when these
are the ones that the caller passed.
-/

namespace ToastyUnix.Sched

open Mm Paging Errno List
open Vfs (TaskId Addr)

/-! ## Copying from user memory -/

/-- `access_ok`. -/
def accessOk (fromUser : Bool) (ptr len : ℕ) : Bool :=
  !fromUser || (ptr ≤ wrap (ptr + len) && wrap (ptr + len) ≤ USER_HALF_MAX)

/-! ## What the caller passes -/

variable {um : UserBytes} {a rsi n rdi : ℕ} {args copied : List (List UInt8)} {fromUser : Bool}
  {path : List UInt8} {e : ℤ}

/-! ## The new program -/

namespace Kernel

variable {k : Kernel} {path : List UInt8}

end Kernel

end ToastyUnix.Sched
