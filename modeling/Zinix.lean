import Zinix.Mm.BuddyHistory
import Zinix.Mm.PagesSafe
import Zinix.Mm.Layout
import Zinix.Mm.Rounding
import Zinix.Mm.PteWord
import Zinix.Mm.BitmapRuns
import Zinix.Mm.KmapToken
import Zinix.Mm.PageOut
import Zinix.Mm.AnonMap
import Zinix.Mm.Arrangement
import Zinix.Mm.Isolation
import Zinix.Mm.Placement
import Zinix.Mm.Heap
import Zinix.Mm.MmapFile
import Zinix.Mm.MmapCall
import Zinix.Mm.Segments
import Zinix.Mm.TableCalls
import Zinix.Fs.RingQueue
import Zinix.Fs.PipeStream
import Zinix.Fs.PipeSleep
import Zinix.Fs.PipeCall
import Zinix.Fs.Cloexec
import Zinix.Fs.Execve
import Zinix.Fs.BlkStorage
import Zinix.Fs.Resolve
import Zinix.Fs.Terminal
import Zinix.Fs.PipeHandles
import Zinix.Fs.FileTime
import Zinix.Fs.ExactIo
import Zinix.Io.Dma
import Zinix.Task.Preempt
import Zinix.Task.BoundedWait
import Zinix.Task.Spaces
import Zinix.Task.ExecveBytes
import Zinix.Task.StackImage
import Zinix.Task.StackStores
import Zinix.Task.WaitPid
import Zinix.Task.Clone
import Zinix.Task.ForkIsolation
import Zinix.Task.FlatMemory
import Zinix.Task.ForkReturn
import Zinix.Sync.SpinLock
import Zinix.Trap.Interrupts
import Zinix.Trap.LockDiscipline
import Zinix.Trap.Residency
import Zinix.Trap.TrapNesting
