import Ggmk.Lib.Word
import Ggmk.Lib.Signed
import Ggmk.Lib.Tally
import Ggmk.Lib.BinaryHeap
import Ggmk.Lib.BitSmear
import Ggmk.Lib.FreeList
import Ggmk.Lib.Reach
import Ggmk.Lib.Machine
import Ggmk.Lib.WeightedRound
import Ggmk.Lib.Ledger
import Ggmk.Lib.TicketRing
import Ggmk.Lib.ByteMem
import Ggmk.Types
import Ggmk.Ring.Mpmc
import Ggmk.Ring.MpmcThreads
import Ggmk.Ring.MpmcExact
import Ggmk.Ring.MpmcFifo
import Ggmk.Ring.MpmcMoves
import Ggmk.Ring.MpmcSigned
import Ggmk.Ring.Spsc
import Ggmk.Ring.SpscThreads
import Ggmk.Sched.Queues
import Ggmk.Sched.YieldReserve
import Ggmk.Sched.Evq
import Ggmk.Sched.EvqOrder
import Ggmk.Sched.EvqHeap
import Ggmk.Sched.Ticks
import Ggmk.Sched.TickRace
import Ggmk.Sched.LqThreads
import Ggmk.Sched.Enqueue
import Ggmk.Sched.RqFairness
import Ggmk.Alloc.Slab
import Ggmk.Alloc.Block
import Ggmk.Alloc.Unified
import Ggmk.Alloc.Separation
import Ggmk.Alloc.Bump
import Ggmk.Alloc.BumpRun
import Ggmk.Payload
import Ggmk.Alloc.PayloadBlocks
import Ggmk.Alloc.Aligned
import Ggmk.Telemetry
import Ggmk.Kernel
import Ggmk.Worker.Loop
import Ggmk.Boot
import Ggmk.Chan.Route
import Ggmk.Chan.CountRace
import Ggmk.Chan.P2p
import Ggmk.Chan.Fifo
import Ggmk.Worker.Conservation
import Ggmk.Chan.Lossless
import Ggmk.Worker.Yield
import Ggmk.Worker.YieldPayload
import Ggmk.Refs.Owned
import Ggmk.Refs.Routes
import Ggmk.Refs.Soundness
import Ggmk.Lifecycle.Host
import Ggmk.Lifecycle.Boot
import Ggmk.Chan.Names
import Ggmk.Chan.Frame
import Ggmk.Chan.Registry
import Ggmk.Chan.Buffering
import Ggmk.Chan.Reserve
import Ggmk.Chan.Lossy
import Ggmk.Worker.QueueMetrics
import Ggmk.Arch.Shootdown
import Ggmk.Arch.Smp
import Ggmk.Arch.Pmm
import Ggmk.Arch.Paging
import Ggmk.Arch.Vmm
import Ggmk.Arch.Ram
import Ggmk.Arch.PmmRun
import Ggmk.Arch.BitmapWords
import Ggmk.Lib.PageTree
import Ggmk.Arch.HeapTables
import Ggmk.Arch.TableTree
import Ggmk.Arch.PageMap
import Ggmk.Arch.VmmRange
import Ggmk.Arch.HeapBytes
import Ggmk.Arch.HeapBlocks
import Ggmk.Arch.HeapRange
import Ggmk.Arch.DemandPaging
import Ggmk.Drivers.VirtioBlk
import Ggmk.Drivers.FreeChain
import Ggmk.Module.Register
import Ggmk.Worker.YieldLimit
import Ggmk.Sched.YieldBreaker
import Ggmk.Lib.Numeral
import Ggmk.Arch.Serial
import Ggmk.Arch.CliNumber
import Ggmk.Arch.Format
import Ggmk.Lib.Words
import Ggmk.Arch.CliInput
import Ggmk.Lib.XorShift
import Ggmk.Sampling
import Ggmk.Alloc.SizeClass
import Ggmk.Arch.Spinlock
import Ggmk.Alloc.SlabRun
import Ggmk.Arch.BootAlloc
import Ggmk.Lib.CriticalSection
import Ggmk.Arch.LockThreads
import Ggmk.Arch.LockOwners
import Ggmk.Alloc.SlabThreads
import Ggmk.Sched.EvqThreads
import Ggmk.Worker.Pool
import Ggmk.Worker.PoolTasks
import Ggmk.Worker.PoolMoves
import Ggmk.Worker.PoolStop
import Ggmk.Worker.PoolMetrics
import Ggmk.Worker.PoolPoison
import Ggmk.Alloc.PayloadThreads
import Ggmk.Lib.StackMachine
import Ggmk.Arch.Interrupt
import Ggmk.Chan.Threads
import Ggmk.Refs.Threads
