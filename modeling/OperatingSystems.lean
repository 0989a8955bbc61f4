import OperatingSystems.CowFork.Atomic
import OperatingSystems.CowFork.Coverage
import OperatingSystems.CowFork.Leaks
import OperatingSystems.CowFork.Program
import OperatingSystems.CowFork.Eager
import OperatingSystems.CowFork.NewSpace
import OperatingSystems.Files.Bitmap
import OperatingSystems.Files.OnDisk
import OperatingSystems.Files.Results
import OperatingSystems.Files.Runs
import OperatingSystems.Fortunes.Results
import OperatingSystems.Lib.Footprint
import OperatingSystems.Lib.History
import OperatingSystems.Lib.Interleave
import OperatingSystems.Lib.LateCharge
import OperatingSystems.Lib.Lines
import OperatingSystems.Lib.RefCount
import OperatingSystems.Lib.Ring
import OperatingSystems.Lib.Runs
import OperatingSystems.Lib.Sorting
import OperatingSystems.Lib.Transition
import OperatingSystems.Lib.WeakestPre
import OperatingSystems.Lib.Words
import OperatingSystems.ParallelSort.Interference
import OperatingSystems.ParallelSort.Psort
import OperatingSystems.Pipes.Wakeups
import OperatingSystems.ProcTable.Exits
import OperatingSystems.ProcTable.Pids
import OperatingSystems.Rpc.Clients
import OperatingSystems.Rpc.Exchange
import OperatingSystems.Rpc.KeyValue
import OperatingSystems.Rpc.Retries
import OperatingSystems.Rpc.Server
import OperatingSystems.Rpc.Threads
import OperatingSystems.RunScan.Bounds
import OperatingSystems.RunScan.Copy
import OperatingSystems.RunScan.DirWalk
import OperatingSystems.RunScan.Geometry
import OperatingSystems.RunScan.Lookup
import OperatingSystems.RunScan.Pointers
import OperatingSystems.RunScan.TopSecret
import OperatingSystems.Shell.Squeeze
import OperatingSystems.Shell.Wiring
import OperatingSystems.Stride.Charges
import OperatingSystems.Stride.Selection
import OperatingSystems.Umalloc.Clients
