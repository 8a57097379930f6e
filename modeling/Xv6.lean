import Xv6.Proc.Reset
import Xv6.Proc.FreeList
import Xv6.Proc.Sleep
import Xv6.Log.Reserve
import Xv6.Log.Waiters
import Xv6.Cache.Pinned
import Xv6.Pipe.Wakeups
import Xv6.Console.Editor
import Xv6.Ide.Refinement
import Xv6.User.Heap
import Xv6.Fs.Image
import Xv6.Proc.Priority
import Xv6.Sys.Getprocs
import Xv6.Sys.Buffer
import Xv6.User.Grep
import Xv6.Board.Mp
import Xv6.User.Time
import Xv6.Sys.SharedFile
import Xv6.Proc.Nesting
import Xv6.Shell.Nulterminate
import Xv6.Sys.Path
import Xv6.User.Memmove
import Xv6.Vm.ExecArgs
import Xv6.Fs.Files
