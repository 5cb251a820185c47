import CCore.Bio.CachePages
import CCore.Bio.Interleave
import CCore.Elf.Exec
import CCore.Elf.Image
import CCore.Fat.Bounds
import CCore.Fat.Frame
import CCore.Fat.ListRuns
import CCore.Fat.LongNames
import CCore.Fat.NewDirectory
import CCore.Fat.Scan
import CCore.Fat.Uncached
import CCore.Fs.Lengths
import CCore.Fs.Numbers
import CCore.Fs.PipeCount
import CCore.Fs.RingFifo
import CCore.Fs.Rlimit
import CCore.Locking.FutexSpaces
import CCore.Locking.FutexWaiters
import CCore.Locking.Mutex
import CCore.Locking.Sleeplock
import CCore.Mm.Areas
import CCore.Mm.LazyMmap
import CCore.Mm.Neutral
import CCore.Mm.Pages
import CCore.Mm.Prefault
import CCore.Sched.Orphans
import CCore.Sched.SharedTables
import CCore.Sched.Tended
import CCore.Signal.Frame
import CCore.Socket.Datagram
import CCore.Swap.Transparent
import CCore.Time.Clocks
