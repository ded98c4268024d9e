import Xv6.Lib.Bytes
import Xv6.Lib.Redo
import Xv6.Lib.Run
import Xv6.Lib.Ring
import Xv6.Param
import Xv6.Log.Commit
import Xv6.Log.Recovery
import Xv6.Log.Group
import Xv6.Log.GroupInvariant
import Xv6.Log.Capacity
import Xv6.Bio.Cache
import Xv6.Bio.Invariant
import Xv6.Bio.CommitView
import Xv6.Bio.Steps
import Xv6.Bio.FlatStore
import Xv6.Fs.Alloc
import Xv6.Mkfs.Regions
import Xv6.Fs.Refine
import Xv6.Fs.Dir
import Xv6.Fs.Sysfile
import Xv6.Fs.CacheSpec
import Xv6.Fs.RefCount
import Xv6.Syscall.Bounds
import Xv6.Vm.Halves
import Xv6.Vm.Safe
import Xv6.Proc.Pages
import Xv6.Proc.Stray
import Xv6.Ptable.Waiting
import Xv6.Ptable.Killed
import Xv6.Sched.Condition
import Xv6.Pipe.Awake
import Xv6.Console.Line
import Xv6.Grep.Sliding
import Xv6.Proc.Forked
import Xv6.Vm.Twin
import Xv6.Vm.Copyout
import Xv6.Vm.Apart
import Xv6.Vm.Arguments
import Xv6.Proc.Exec
import Xv6.Log.Buffers
import Xv6.Fs.Filewrite
import Xv6.Fs.Path
import Xv6.Fs.Namex
import Xv6.Grep.Matcher
import Xv6.Ulib.Memmove
import Xv6.Fs.Balloc
import Xv6.Vm.Mappages
import Xv6.Mp.Table
import Xv6.Ide.Errors
import Xv6.Ide.Refine
import Xv6.Umalloc.Kernel
import Xv6.Sh.Strings
import Xv6.Spinlock.Switch
import Xv6.Sh.Steps
import Xv6.Sh.Wiring
import Xv6.Sh.Completes
