import CoroutineWebserve.Transition.Machine
import CoroutineWebserve.ByteArray.Refinement
import CoroutineWebserve.ByteArray.Codec
import CoroutineWebserve.IOManager.Conservation
import CoroutineWebserve.IOManager.Contexts
import CoroutineWebserve.IOManager.Timers
import CoroutineWebserve.Timer.Delivery
import CoroutineWebserve.Hook.Identity
import CoroutineWebserve.Hook.WakeSource
import CoroutineWebserve.FdManager.Nonblock
import CoroutineWebserve.Scheduler.WakeUp
import CoroutineWebserve.Scheduler.Shutdown
import CoroutineWebserve.Scheduler.Callbacks
import CoroutineWebserve.Scheduler.References
import CoroutineWebserve.Http.Framing
import CoroutineWebserve.Http.KeepAlive
import CoroutineWebserve.Http.Relaxed
import CoroutineWebserve.Client.Chunked
import CoroutineWebserve.Client.StartLine
import CoroutineWebserve.Client.Pool
import CoroutineWebserve.Http.RoundTrip
import CoroutineWebserve.Client.RoundTrip
import CoroutineWebserve.Uri.RoundTrip
import CoroutineWebserve.Log.FileAppender
import CoroutineWebserve.Log.Convergence
import CoroutineWebserve.Config.Listener
import CoroutineWebserve.ByteArray.Room
import CoroutineWebserve.ByteArray.Positional
import CoroutineWebserve.ByteArray.File
import CoroutineWebserve.ByteArray.ZeroLength
import CoroutineWebserve.Client.Body
import CoroutineWebserve.Client.ChunkSize
import CoroutineWebserve.Http.Method
import CoroutineWebserve.Http.FieldSyntax
import CoroutineWebserve.Timer.Expired
import CoroutineWebserve.Client.PoolLimits
import CoroutineWebserve.Address.Subnet
import CoroutineWebserve.Address.Text
import CoroutineWebserve.Address.Lookup
import CoroutineWebserve.Uri.Path
import CoroutineWebserve.Uri.Port
import CoroutineWebserve.Timer.Arming
import CoroutineWebserve.IOManager.Timeout
import CoroutineWebserve.Hook.Durations
import CoroutineWebserve.Config.Load
import CoroutineWebserve.Log.Yaml
import CoroutineWebserve.Log.Pattern
import CoroutineWebserve.Log.Inheritance
import CoroutineWebserve.Scheduler.Pinning
import CoroutineWebserve.Hook.Connect
import CoroutineWebserve.ByteArray.Zigzag
import CoroutineWebserve.ByteArray.Varint
import CoroutineWebserve.Timer.Representation
import CoroutineWebserve.Http.Servlet
import CoroutineWebserve.Stream.Reads
import CoroutineWebserve.TcpServer.Bind
import CoroutineWebserve.Stream.Delivery
import CoroutineWebserve.Config.Cast
import CoroutineWebserve.Hook.Timers
import CoroutineWebserve.Thread.Locks
import CoroutineWebserve.Client.Request
import CoroutineWebserve.Fibers.Caller
import CoroutineWebserve.TcpServer.Lifecycle
import CoroutineWebserve.Config.Restore
import CoroutineWebserve.Thread.Handshake
