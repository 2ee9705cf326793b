import Mathlib

/-!
# Kernel error codes

System calls and VFS operations return a negative code on failure. The values are those of
`core/errno.h`; only the codes some modelled function returns are listed.
-/

namespace ToastyUnix.Errno

def ENOENT : ℤ := 2
def EIO : ℤ := 5
def ENOEXEC : ℤ := 8
def EBADF : ℤ := 9
def ENOMEM : ℤ := 12
def EACCES : ℤ := 13
def EFAULT : ℤ := 14
def EEXIST : ℤ := 17
def ENOTDIR : ℤ := 20
def EISDIR : ℤ := 21
def EINVAL : ℤ := 22
def EPIPE : ℤ := 32

end ToastyUnix.Errno
