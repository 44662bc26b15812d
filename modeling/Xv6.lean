import Xv6.Log.Reservation
import Xv6.Log.CrashAtomicity
import Xv6.Log.Refcounts
import Xv6.Pipe.Wakeup
import Xv6.Proc.Tree
import Xv6.Proc.Slots
import Xv6.Virtio.Safety
import Xv6.Sched.OneCpu
import Xv6.Sched.Wakeup
import Xv6.Blocks.Filewrite
import Xv6.Vm.Segments
import Xv6.Console.Lines
import Xv6.Shell.Complete
import Xv6.Pipe.Read
import Xv6.Vm.UserString
import Xv6.Vm.FiniteMap
import Xv6.Vm.Break
import Xv6.User.Grep
import Xv6.User.Xargs
import Xv6.User.Find
import Xv6.Umalloc.Sbrk
import Xv6.Kernel.Memmove
import Xv6.Console.Uart
import Xv6.Fs.Operations
