import Xv6Freezer.Bio.Cache
import Xv6Freezer.Exec.Sys
import Xv6Freezer.Files.Coherent
import Xv6Freezer.Files.Namei
import Xv6Freezer.Fs.Freeze
import Xv6Freezer.Grep.Lines
import Xv6Freezer.Inode.Budget
import Xv6Freezer.Inode.Directory
import Xv6Freezer.Intr.Nesting
import Xv6Freezer.Kernel.Clock
import Xv6Freezer.Kernel.Console
import Xv6Freezer.Kernel.Panic
import Xv6Freezer.Kernel.PtreeOrder
import Xv6Freezer.Kernel.Scan
import Xv6Freezer.Kernel.Sleeplock
import Xv6Freezer.Kernel.Wait
import Xv6Freezer.Log.Crash
import Xv6Freezer.Mkfs.WellFormed
import Xv6Freezer.Pipe.Read
import Xv6Freezer.Pipe.Wakeup
import Xv6Freezer.Printf.Exact
import Xv6Freezer.Sh.Parser
import Xv6Freezer.Umalloc.Break
import Xv6Freezer.Virtio.Protocol
import Xv6Freezer.Vm.Meminfo
