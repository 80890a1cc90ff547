import Pintos.Resumption
import Pintos.ByteStore
import Pintos.Bitmap
import Pintos.Disk
import Pintos.InodeIO
import Pintos.Inode
import Pintos.Directory
import Pintos.Filesys
import Pintos.Ownership
import Pintos.Volume
import Pintos.Calls
import Pintos.CallCreate
import Pintos.CallFiles
import Pintos.CallOpen
import Pintos.CallClose
import Pintos.CallRemove
import Pintos.Format
import Pintos.FileModel
import Pintos.Refinement
import Pintos.Sectors
import Pintos.Transition
import Pintos.Semaphore
import Pintos.Monitor
import Pintos.Condition
import Pintos.MonitorRuns
import Pintos.Intq
import Pintos.Scheduler
import Pintos.SchedulerInvariant
import Pintos.SchedulerRuns
import Pintos.ConcurrentOpen
import Pintos.ConcurrentCreate
import Pintos.CreateRules
import Pintos.CreateRuns
import Pintos.Palloc
import Pintos.Stoppable
import Pintos.Vaddr
import Pintos.Pagedir
import Pintos.Links
import Pintos.Heap
import Pintos.Accounts
import Pintos.Loader
import Pintos.LoaderRuns
import Pintos.PageFault
import Pintos.Demand
import Pintos.UserMemory
import Pintos.Process
import Pintos.HeapLayout
import Pintos.HeapSteps
import Pintos.HeapCalls
import Pintos.HeapRuns
import Pintos.PallocInit
import Pintos.PallocRuns
import Pintos.HeapBook
import Pintos.KernelList
import Pintos.HashTable
import Pintos.HashRuns
import Pintos.Stdio
import Pintos.Ustar
import Pintos.Fsutil
import Pintos.PageMap
import Pintos.PageWords
import Pintos.RoundRobin
import Pintos.Serial
import Pintos.Console
import Pintos.Partition
import Pintos.Tokens
import Pintos.Arguments
import Pintos.HeapSizes
import Pintos.Descriptors
import Pintos.Syscall
import Pintos.Transfers
import Pintos.ReadWrite
import Pintos.NullPage
import Pintos.OpenCounts
import Pintos.Extract
import Pintos.BitmapScan
import Pintos.WeakOrder
import Pintos.ListSort
import Pintos.HashIter
import Pintos.InodeSlices
import Pintos.FaultEffect
import Pintos.FdTables
import Pintos.DenyWrite
import Pintos.Arithmetic
import Pintos.Strings
import Pintos.HeapOrder
import Pintos.Sinks
import Pintos.Stdlib
import Pintos.Printf
import Pintos.Boot
import Pintos.Clocks
