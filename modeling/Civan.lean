import Civan.Lib.ActionGrammar
import Civan.Lib.Transition
import Civan.Lib.Segment
import Civan.Lib.Bytes
import Civan.Lib.Base128
import Civan.Lib.Ipv6Text
import Civan.Lib.KeyHistory
import Civan.Lib.Loop
import Civan.Lib.MachineInt
import Civan.Lib.Mealy
import Civan.Lib.OrderedSet
import Civan.Lib.PrefixCode
import Civan.Lib.ScopedLock
import Civan.Lib.Sections
import Civan.Lib.Split
import Civan.Lib.Strtol
import Civan.Lib.TicketQueue
import Civan.Lib.TransferLoop
import Civan.ByteArray.Model
import Civan.ByteArray.NodeWalk
import Civan.ByteArray.SizeInvariant
import Civan.ByteArray.FlatBuffer
import Civan.ByteArray.Append
import Civan.ByteArray.WriteToFile
import Civan.ByteArray.Typed
import Civan.ByteArray.CursorSafety
import Civan.ByteArray.RoundTrip
import Civan.ByteArray.Varint64
import Civan.ByteArray.StringRoundTrip
import Civan.ByteArray.AppendCalls
import Civan.ByteArray.StringF16
import Civan.ByteArray.ConstReads
import Civan.ByteArray.FileRoundTrip
import Civan.ByteArray.VarintCode
import Civan.ByteArray.SizeBounds
import Civan.Address.Model
import Civan.Address.Subnet
import Civan.Address.Queries
import Civan.Address.Text
import Civan.Address.Lookup
import Civan.Address.Order
import Civan.Config.ConfigVar
import Civan.Config.Listener
import Civan.Config.Yaml
import Civan.Config.Registry
import Civan.Config.LexicalCast
import Civan.Config.LockTrace
import Civan.Config.LoadYaml
import Civan.Http.Http11Parser
import Civan.Http.Request
import Civan.Http.MapType
import Civan.Http.HeaderMap
import Civan.Http.Method
import Civan.Http.Servlet
import Civan.Http.Session
import Civan.Http.Fragmentation
import Civan.Http.HeadTable
import Civan.Http.FragmentedHead
import Civan.Http.BodyAssembly
import Civan.Http.BodyLimit
import Civan.Http.Dump
import Civan.Http.KeepAlive
import Civan.Http.RequestTable
import Civan.Http.RequestPieces
import Civan.Http.SentHeaders
import Civan.Http.RequestRoundTrip
import Civan.Http.RequestDelivery
import Civan.Http.ClientParser
import Civan.Http.ClientTable
import Civan.Http.ResponsePieces
import Civan.Http.ResponseRoundTrip
import Civan.Util.StringUtil
import Civan.Util.Trim
import Civan.Http.Params
import Civan.Store.Session
import Civan.Scheduler.Model
import Civan.Scheduler.Steps
import Civan.Scheduler.WellFormed
import Civan.Scheduler.FiberExclusion
import Civan.Scheduler.Conservation
import Civan.Scheduler.Stopping
import Civan.Scheduler.Affinity
import Civan.Scheduler.Shutdown
import Civan.Scheduler.SingleWorker
import Civan.Scheduler.TicklePipe
import Civan.Scheduler.WakeUp
import Civan.Scheduler.Callers
import Civan.IOManager.Model
import Civan.IOManager.FdTable
import Civan.IOManager.Context
import Civan.IOManager.Registry
import Civan.IOManager.Locked
import Civan.IOManager.Bookkeeping
import Civan.IOManager.Reachable
import Civan.IOManager.CancelAll
import Civan.IOManager.Concurrent
import Civan.IOManager.StaleReport
import Civan.TimerManager.Model
import Civan.TimerManager.Invariant
import Civan.TimerManager.Lifecycle
import Civan.TimerManager.Expiry
import Civan.TimerManager.Control
import Civan.TimerManager.ExpiryRace
import Civan.IOManager.IdleTimeout
import Civan.Hook.FdManager
import Civan.Hook.IoTimeout
import Civan.Hook.NonblockMode
import Civan.Hook.Sleep
import Civan.Log.Model
import Civan.Log.DoubleBuffer
import Civan.Log.Shutdown
import Civan.Log.Reconfigure
import Civan.Log.Formatter
import Civan.Log.Pattern
import Civan.Stream.ReadFixSize
import Civan.Stream.WriteFixSize
import Civan.Stream.FixSize
import Civan.TcpServer.Bind
import Civan.Uri.Model
import Civan.Uri.Reading
import Civan.Uri.RoundTrip
