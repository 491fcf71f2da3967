import Trading.OrdMap
import Trading.Transition
import Trading.Greedy
import Trading.RequestReply
import Trading.Text
import Trading.Lists
import Trading.Types
import Trading.EngineBook
import Trading.Levels
import Trading.Matching
import Trading.PriceTime
import Trading.MarketOrder
import Trading.Soundness
import Trading.OrderIds
import Trading.Sentinel
import Trading.OrderIndex
import Trading.EraseAt
import Trading.Chronology
import Trading.Priority
import Trading.Reports
import Trading.Cancellation
import Trading.Replacement
import Trading.Reentry
import Trading.Accounting
import Trading.ReportStream
import Trading.Mirror
import Trading.BoundedQueue
import Trading.SpscRing
import Trading.RingSize
import Trading.ReleaseAcquire
import Trading.RingMemory
import Trading.EngineWorker
import Trading.OrderPath
import Trading.Replication
import Trading.Wire
import Trading.MDSim
import Trading.Subscriber
import Trading.Requests
import Trading.SnapCodec
import Trading.Feed
import Trading.Depth
import Trading.NewestTop
import Trading.Uncrossed
import Trading.CrossRepair
import Trading.OrderBook
import Trading.Consumers
import Trading.Pipeline
import Trading.Downstream
import Trading.LevelOrders
import Trading.ReplaceOrder
import Trading.LiveOrders
import Trading.TwoBooks
import Trading.L2Book
import Trading.BookHash
import Trading.GetSnapshot
import Trading.CrossValidator
import Trading.LevelDiffs
import Trading.Watermark
import Trading.CrossValidation
import Trading.SnapDepth
import Trading.PackedBytes
import Trading.WireBytes
import Trading.Health
import Trading.CatchUp
import Trading.TickGrid
import Trading.Conflation
import Trading.Tape
import Trading.Delivery
import Trading.LateJoiner
import Trading.NoTrace
