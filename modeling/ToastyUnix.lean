import ToastyUnix.Sched.Loaders
import ToastyUnix.Vfs.Append
import ToastyUnix.Mm.FrameLedger
import ToastyUnix.Mm.MmapCursor
import ToastyUnix.Mm.LargePages
import ToastyUnix.Mm.SharedHalf
import ToastyUnix.Mm.MmapRollback
import ToastyUnix.Elf.Exact
import ToastyUnix.Sched.Fairness
import ToastyUnix.Userspace.PasswdEdits
import ToastyUnix.Userspace.Useradd
import ToastyUnix.Userspace.SedSubst
import ToastyUnix.Vfs.ReadOnly
import ToastyUnix.Vfs.MountReads
import ToastyUnix.Vfs.Listing
import ToastyUnix.Shell.Producer
import ToastyUnix.Time.Sleep
import ToastyUnix.Drivers.ConsoleRefresh
import ToastyUnix.Drivers.Scrollback
import ToastyUnix.Shell.Foreground
import ToastyUnix.Sched.Inherit
import ToastyUnix.Vfs.Isolation
import ToastyUnix.Syscall.Atomicity
import ToastyUnix.Userspace.GrepSearch
import ToastyUnix.Userspace.RegexAgreement
import ToastyUnix.Userspace.GrepPieces
import ToastyUnix.Shell.ParsePipeline
import ToastyUnix.Shell.PathResolve
