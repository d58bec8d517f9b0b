import Xv6.Bio.Lru
import Xv6.Console.Reads
import Xv6.Exec.Containment
import Xv6.File.Piperead
import Xv6.Fs.Capacity
import Xv6.Fs.LinkCount
import Xv6.Fs.Transparent
import Xv6.Intr.Ownership
import Xv6.Log.Admission
import Xv6.Memory.Memmove
import Xv6.Mkdir.Arguments
import Xv6.Mkfs.ReadBack
import Xv6.Printf.User
import Xv6.Proc.Pids
import Xv6.Sched.Kill
import Xv6.Sched.SleepLock
import Xv6.Sched.Wait
import Xv6.Sh.Parsecmd
import Xv6.Sh.Processes
import Xv6.Umalloc.Runs
import Xv6.User.Grep
import Xv6.User.Ls
import Xv6.User.PsFilter
import Xv6.User.Wc
import Xv6.Virtio.Protocol
import Xv6.Vm.CopyStr
import Xv6.Vm.Refinement
