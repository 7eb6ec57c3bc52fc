import Xv6Simplesh.Log.Reservation
import Xv6Simplesh.Log.Crashes
import Xv6Simplesh.Ide.Driver
import Xv6Simplesh.Fs.Calls
import Xv6Simplesh.Fs.DirectoryMap
import Xv6Simplesh.Names.Dangling
import Xv6Simplesh.Ftable.References
import Xv6Simplesh.Ipc.Pipes
import Xv6Simplesh.Console.Input
import Xv6Simplesh.Proc.Kill
import Xv6Simplesh.Proc.Reap
import Xv6Simplesh.Proc.Sections
import Xv6Simplesh.Proc.Sbrk
import Xv6Simplesh.Proc.ExecStack
import Xv6Simplesh.Proc.Faults
import Xv6Simplesh.Proc.Children
import Xv6Simplesh.Proc.LongArgument
import Xv6Simplesh.Proc.Lazy
import Xv6Simplesh.Shell.Redirections
import Xv6Simplesh.Shell.Src
import Xv6Simplesh.Shell.Asserts
import Xv6Simplesh.Shell.Extension
import Xv6Simplesh.Shell.Tee
import Xv6Simplesh.Shell.Du
import Xv6Simplesh.Shell.Cd
import Xv6Simplesh.Shell.Background
import Xv6Simplesh.Shell.Frame
import Xv6Simplesh.Shell.WriteAll
import Xv6Simplesh.Shell.JobTable
import Xv6Simplesh.Names.Resolution
