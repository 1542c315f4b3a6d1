import Htmsql.Lib.Run
import Htmsql.Lib.Trace
import Htmsql.Lib.Wakeup
import Htmsql.Lib.Elision
import Htmsql.Lib.Speculation
import Htmsql.Lib.Linearizable
import Htmsql.Lib.Clients
import Htmsql.Lib.Chain
import Htmsql.Lib.DoublyLinked
import Htmsql.Lib.NextFit
import Htmsql.Lib.FreeSlots
import Htmsql.Lib.LatchOrder
import Htmsql.Lib.Buckets
import Htmsql.Lib.Total
import Htmsql.Lib.SignedInt
import Htmsql.Lib.ShiftRegister
import Htmsql.Lib.Affine
import Htmsql.Lib.Moments
import Htmsql.Innodb.MutexCode
import Htmsql.Innodb.Signalling
import Htmsql.Innodb.Holder
import Htmsql.Innodb.ThreadId
import Htmsql.Innodb.Atomic
import Htmsql.Rtm.Machine
import Htmsql.Rtm.LockWord
import Htmsql.Rtm.Serial
import Htmsql.Rtm.Serializability
import Htmsql.Rtm.Signalling
import Htmsql.Rtm.Nesting
import Htmsql.Rtm.Smart
import Htmsql.Nesting.Drivers
import Htmsql.Hle.StoreOrder
import Htmsql.Hle.Elided
import Htmsql.Smartall.Machine
import Htmsql.Smartall.Invariant
import Htmsql.Smartall.Steps
import Htmsql.Smartall.Exclusion
import Htmsql.Syslock.Machine
import Htmsql.Syslock.Ownership
import Htmsql.Syslock.LifeCycle
import Htmsql.GlobalLatch.Latching
import Htmsql.GlobalLatch.TrxMutex
import Htmsql.TrxLock.Machine
import Htmsql.TrxLock.Mixed
import Htmsql.FastMutex.Machine
import Htmsql.FastMutex.Refinement
import Htmsql.FastMutex.Safety
import Htmsql.OsEvent.Machine
import Htmsql.OsEvent.Wakeup
import Htmsql.OsEvent.Deadline
import Htmsql.OsSync.Machine
import Htmsql.OsSync.Effects
import Htmsql.OsSync.LifeCycle
import Htmsql.SyncLevels.LevelArray
import Htmsql.SyncLevels.Order
import Htmsql.SyncLevels.Machine
import Htmsql.SyncLevels.Deadlock
import Htmsql.HashMap.Machine
import Htmsql.HashMap.Invariant
import Htmsql.HashMap.Steps
import Htmsql.HashMap.Preservation
import Htmsql.HashMap.Set
import Htmsql.HashMap.Sequential
import Htmsql.HashMapRtm.Machine
import Htmsql.HashMapRtm.Simulation
import Htmsql.HashMapRtm.Attempt
import Htmsql.HashMapRtm.Agreement
import Htmsql.HashIndex.Table
import Htmsql.HashIndex.Locked
import Htmsql.HashIndex.Range
import Htmsql.MicroMap.Body
import Htmsql.MicroMap.Machine
import Htmsql.MicroMap.Balance
import Htmsql.MicroMap.Threads
import Htmsql.LockType.Code
import Htmsql.LockType.Discipline
import Htmsql.LockType.Exclusion
import Htmsql.GlobalLock.Machine
import Htmsql.GlobalLock.Exclusion
import Htmsql.Bank.Transfer
import Htmsql.Bank.MixRtm
import Htmsql.Counter.Increment
import Htmsql.Throughput.Measurement
import Htmsql.LinkedList.Code
import Htmsql.LinkedList.Sequence
import Htmsql.LinkedList.PreAllocator
import Htmsql.LinkedList.Allocators
import Htmsql.ThreadsafeList.Machine
import Htmsql.ThreadsafeList.Invariant
import Htmsql.ThreadsafeList.Steps
import Htmsql.ThreadsafeList.Preservation
import Htmsql.ThreadsafeList.Sequence
import Htmsql.ListRtm.Machine
import Htmsql.ListRtm.Linearization
import Htmsql.SharedSlots.Machine
import Htmsql.SharedSlots.Overlay
import Htmsql.SharedSlots.Sharing
import Htmsql.SharedSlots.Safety
import Htmsql.TimeCmp.Machine
import Htmsql.TimeCmp.Owed
import Htmsql.TimeCmp.Steps
import Htmsql.TimeCmp.Workload
import Htmsql.ArraySize.Shuffle
import Htmsql.Util.Arguments
import Htmsql.Util.Prefetching
import Htmsql.Util.Random
import Htmsql.Util.Orbit
import Htmsql.Util.Stats
import Htmsql.Bank.Generators
import Htmsql.Bank.Drawing
import Htmsql.Bank.OperationMix
import Htmsql.Sysbench.Crc32
import Htmsql.Sysbench.Block
import Htmsql.Sysbench.SeqRequests
import Htmsql.Sysbench.Handout
import Htmsql.Sysbench.UniqueIds
