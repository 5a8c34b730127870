import MMapKernel.Lib.BoundaryTag
import MMapKernel.Lib.Transition
import MMapKernel.Lib.Sparse
import MMapKernel.Lib.Ram
import MMapKernel.Heap.Model
import MMapKernel.Heap.Invariant
import MMapKernel.Heap.Operations
import MMapKernel.Heap.Calls
import MMapKernel.Heap.Runs
import MMapKernel.Heap.Clients
import MMapKernel.Heap.BestFit
import MMapKernel.Heap.Requests
import MMapKernel.Heap.DoubleFree
import MMapKernel.Vmm.EntryList
import MMapKernel.Vmm.Placement
import MMapKernel.Vmm.PhysMem
import MMapKernel.Vmm.PageTable
import MMapKernel.Vmm.Kernel
import MMapKernel.Vmm.Pages
import MMapKernel.Vmm.Paged
import MMapKernel.Vmm.KernelSteps
import MMapKernel.Vmm.Nodes
import MMapKernel.Vmm.RefCount
import MMapKernel.Vmm.FrameSafety
import MMapKernel.Vmm.FrameEffects
import MMapKernel.Vmm.FrameRuns
import MMapKernel.Vmm.Sharing
import MMapKernel.Vmm.SharingRuns
import MMapKernel.Vmm.Content
import MMapKernel.Vmm.ContentRuns
import MMapKernel.Vmm.TwoContents
import MMapKernel.Vmm.NodePointers
import MMapKernel.Vmm.PointerRuns
import MMapKernel.Vmm.Munmap
import MMapKernel.Vmm.FixedRequest
import MMapKernel.Lib.Holders
import MMapKernel.Lib.Places
import MMapKernel.Sched.Model
import MMapKernel.Sched.Steps
import MMapKernel.Sched.Location
import MMapKernel.Sched.Threads
import MMapKernel.Sched.Ending
import MMapKernel.Sched.Residence
import MMapKernel.Sched.Preempt
import MMapKernel.Sched.LockHolder
import MMapKernel.Sched.Completion
import MMapKernel.Lib.LinkedList
import MMapKernel.Vmm.EntryCopy
import MMapKernel.Vmm.Drawing
import MMapKernel.Vmm.ForkCopy
import MMapKernel.Vmm.FaultRace
import MMapKernel.Vmm.FaultRaceRuns
import MMapKernel.Fs.BlockIO
import MMapKernel.Fs.Ext2
import MMapKernel.Fs.FileRead
import MMapKernel.Fs.Readable
import MMapKernel.Sys.UserMemory
import MMapKernel.Fs.DiskLock
import MMapKernel.Sys.Handler
import MMapKernel.Sys.MmapCall
import MMapKernel.Sys.Elf
import MMapKernel.Vmm.FaultService
import MMapKernel.Vmm.Devices
import MMapKernel.Vmm.Account
import MMapKernel.Vmm.Lifecycle
import MMapKernel.Sys.UserStores
import MMapKernel.Sys.Exec
import MMapKernel.Sys.Residency
import MMapKernel.Sys.ExecSafe
import MMapKernel.Sys.UserBytes
import MMapKernel.Sys.ElfImage
import MMapKernel.Sys.Arguments
import MMapKernel.Sys.ArgumentPages
import MMapKernel.Sched.ReadyOrder
import MMapKernel.Sched.Conservation
import MMapKernel.Fs.PathWalk
import MMapKernel.Sys.Open
import MMapKernel.Sys.ProcessTables
import MMapKernel.Sys.HandleRuns
import MMapKernel.Sys.ForkCall
import MMapKernel.Sys.SharedPtr
import MMapKernel.Sys.SharedCounts
import MMapKernel.Sys.SharedRuns
import MMapKernel.Sys.ReadLock
import MMapKernel.Fs.ByteRead
import MMapKernel.Fs.SparseFile
import MMapKernel.Fs.Symlink
import MMapKernel.Fs.Directory
import MMapKernel.Fs.PathBuffer
import MMapKernel.Sys.Descriptor
import MMapKernel.UserHeap.Model
import MMapKernel.UserHeap.InRange
import MMapKernel.UserHeap.Copy
import MMapKernel.UserHeap.Realloc
import MMapKernel.UserHeap.Runs
import MMapKernel.UserHeap.Guarantees
import MMapKernel.Sys.FailedRead
import MMapKernel.Lib.Walk
import MMapKernel.Fs.WalkEnds
import MMapKernel.Vmm.FrameMemory
import MMapKernel.Vmm.FrameCalls
import MMapKernel.Vmm.Translation
import MMapKernel.Vmm.TableLaws
import MMapKernel.Boot.Config
import MMapKernel.Boot.MadtLoop
import MMapKernel.Boot.MadtTable
import MMapKernel.Lib.RingArray
import MMapKernel.Lib.Paths
import MMapKernel.Sync.Semaphore
import MMapKernel.Sync.Tokens
import MMapKernel.Sync.Future
import MMapKernel.Sync.Mutex
import MMapKernel.Sync.BoundedBuffer
import MMapKernel.Sync.Condition
import MMapKernel.Lib.Owners
import MMapKernel.Sync.InterruptLock
import MMapKernel.Sync.Signals
import MMapKernel.Sync.Barrier
import MMapKernel.Sync.BarrierRounds
import MMapKernel.Machine.ContextSwitch
import MMapKernel.Machine.Resume
import MMapKernel.Machine.Routines
import MMapKernel.Machine.Interrupts
import MMapKernel.Machine.SystemCalls
