import MoonInWater.Lib.Threads
import MoonInWater.Lib.Jobs
import MoonInWater.Lib.Counted
import MoonInWater.Lib.CInt
import MoonInWater.Lib.RefWord
import MoonInWater.Lib.Cells
import MoonInWater.Lib.Endian
import MoonInWater.Lib.Bytes
import MoonInWater.Lib.Xor
import MoonInWater.Lib.Digits
import MoonInWater.Lib.Stride
import MoonInWater.Lib.Floor
import MoonInWater.Lib.Loop
import MoonInWater.Lib.Block
import MoonInWater.Lib.Follows
import MoonInWater.Lib.Fuel
import MoonInWater.Lib.AvlTree
import MoonInWater.Lib.Chain
import MoonInWater.Lib.Segment
import MoonInWater.Lib.Pointwise
import MoonInWater.Lib.Circular
import MoonInWater.Common.UseingRef
import MoonInWater.Common.Pipe
import MoonInWater.Common.PipeStep
import MoonInWater.Common.PipeProtocol
import MoonInWater.Common.DList
import MoonInWater.Common.BitMap
import MoonInWater.Common.Heap
import MoonInWater.Common.HeapQueue
import MoonInWater.Common.Interface
import MoonInWater.Common.InterfaceLookup
import MoonInWater.Avl.Model
import MoonInWater.Avl.Represent
import MoonInWater.Avl.Balance
import MoonInWater.Avl.Insert
import MoonInWater.Avl.Delete
import MoonInWater.Avl.WellFormed
import MoonInWater.Avl.Reachable
import MoonInWater.Avl.OrderedMap
import MoonInWater.Avl.Indexed
import MoonInWater.Avl.Stable
import MoonInWater.Avl.PairTree
import MoonInWater.Common.HashTable
import MoonInWater.RingBuffer.Model
import MoonInWater.RingBuffer.Section
import MoonInWater.RingBuffer.Fifo
import MoonInWater.RingBuffer.Message
import MoonInWater.RingBuffer.Wakeup
import MoonInWater.RingBuffer.Replace
import MoonInWater.RingBuffer.Peek
import MoonInWater.RingBuffer.Deadline
import MoonInWater.Timer.Model
import MoonInWater.Timer.Queue
import MoonInWater.Timer.Round
import MoonInWater.Timer.Invariant
import MoonInWater.Timer.Thread
import MoonInWater.Timer.Run
import MoonInWater.Timer.Frame
import MoonInWater.Timer.Release
import MoonInWater.Timer.Periodic
import MoonInWater.ThreadPool.Model
import MoonInWater.ThreadPool.Accounting
import MoonInWater.ThreadPool.Execution
import MoonInWater.Dns.Model
import MoonInWater.Dns.Cache
import MoonInWater.Dns.Status
import MoonInWater.Dns.Release
import MoonInWater.Dns.Pending
import MoonInWater.Dns.Walk
import MoonInWater.Dns.AddrList
import MoonInWater.Dns.MergeAddrs
import MoonInWater.Sync.VersionStatus
import MoonInWater.Sync.PointStatus
import MoonInWater.Sync.EntityClose
import MoonInWater.Sync.UpdateQueue
import MoonInWater.Sync.QueueCount
import MoonInWater.Sync.QueryFlags
import MoonInWater.Sync.FreeUppac
import MoonInWater.Sync.VersionWindow
import MoonInWater.Sync.ServerUpdate
import MoonInWater.Sync.UpdateAck
import MoonInWater.Sync.ServerQuery
import MoonInWater.Sync.Pairs
import MoonInWater.Sync.PairBounds
import MoonInWater.Sync.Commit
import MoonInWater.Sync.CommitOrder
import MoonInWater.Sync.NewBlocks
import MoonInWater.Sync.CreateVersion
import MoonInWater.Sync.CreateUndo
import MoonInWater.Sync.Rebuild
import MoonInWater.Sync.PointTable
import MoonInWater.Sync.BlockLookup
import MoonInWater.Sync.PointTranslation
import MoonInWater.Sync.PointRoundTrip
import MoonInWater.Sync.UpdateSpan
import MoonInWater.Sync.PointerSearch
import MoonInWater.Sync.BlockXor
import MoonInWater.Sync.StructTable
import MoonInWater.Sync.StructOffset
import MoonInWater.Sync.StructWire
import MoonInWater.Sync.VarType
import MoonInWater.Sync.PointNum
import MoonInWater.Sync.CompleteVarType
import MoonInWater.Sync.BlockCopy
import MoonInWater.Sync.IntCopy
import MoonInWater.Sync.CopyCalls
import MoonInWater.Sync.CopyLayout
import MoonInWater.Sync.CopyEffect
import MoonInWater.Sync.PointSlots
import MoonInWater.Sync.FastCopy
import MoonInWater.Sync.MoonNum
import MoonInWater.Sync.ChangeList
import MoonInWater.Sync.ChangeBounds
import MoonInWater.Sync.Shadow
import MoonInWater.Sync.ShadowWrite
import MoonInWater.Sync.ShadowVersion
import MoonInWater.Sync.BlockShare
import MoonInWater.Sync.BlockHolds
import MoonInWater.Sync.Replica
import MoonInWater.Sync.ReplicaRun
import MoonInWater.Session.StreamClose
import MoonInWater.Session.CloseRefs
import MoonInWater.Session.Quota
import MoonInWater.Session.Status
import MoonInWater.Session.SessionClose
import MoonInWater.Session.Tasks
import MoonInWater.Session.Receive
import MoonInWater.Session.PacketOrder
import MoonInWater.Session.RecvHub
import MoonInWater.Session.RecvHead
import MoonInWater.Session.RecvLoops
import MoonInWater.Session.RecvOutcome
import MoonInWater.Session.RecvStream
import MoonInWater.Packet.Model
import MoonInWater.Packet.Buffers
import MoonInWater.Packet.Split
import MoonInWater.Lib.Custody
import MoonInWater.Socket.Model
import MoonInWater.Socket.Status
import MoonInWater.Socket.Life
import MoonInWater.Socket.Effect
import MoonInWater.Socket.Step
import MoonInWater.Socket.ListenStep
import MoonInWater.Socket.Pool
import MoonInWater.Socket.Count
import MoonInWater.Socket.Descriptors
import MoonInWater.Socket.Batch
import MoonInWater.Socket.Transfer
