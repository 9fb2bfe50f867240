import StraceXv6.Kernel.RecordInterleaving
import StraceXv6.Kernel.AddedCalls
import StraceXv6.Kernel.TraceFlag
import StraceXv6.User.FileRecords
import StraceXv6.User.Shell.Parsing
import StraceXv6.User.Shell.StraceLine
import StraceXv6.User.Shell.Mode
import StraceXv6.Kernel.Log.Admission
import StraceXv6.Kernel.Fs.Allocation
import StraceXv6.Kernel.Fs.DirectoryMap
import StraceXv6.Kernel.Process.Kill
import StraceXv6.Kernel.Process.Reaping
import StraceXv6.Kernel.Process.Sleep
import StraceXv6.Kernel.Files.Counts
import StraceXv6.Kernel.Bio.Coherence
import StraceXv6.Kernel.Icache.Counts
import StraceXv6.Kernel.Pipes.Sleepers
import StraceXv6.Kernel.UserPointers
import StraceXv6.Kernel.Ide.Order
import StraceXv6.Kernel.TraceText
import StraceXv6.Kernel.ConsoleInput.Reads
import StraceXv6.Kernel.Bio.Readers
import StraceXv6.Kernel.Icache.Referenced
import StraceXv6.Kernel.SharedFile.Appends
import StraceXv6.Kernel.Itoa
import StraceXv6.Kernel.Mp
import StraceXv6.User.Grep
import StraceXv6.Kernel.Fs.Paths
import StraceXv6.Kernel.Exec
import StraceXv6.Kernel.Vm.Segments
import StraceXv6.Data.Copies
import StraceXv6.Kernel.Memmove
import StraceXv6.Kernel.Kalloc
import StraceXv6.Kernel.Process.Scheduler
import StraceXv6.Kernel.Spinlock
