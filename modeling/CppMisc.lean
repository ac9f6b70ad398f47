import CppMisc.Library.Runs
import CppMisc.Library.Slots
import CppMisc.Library.Chains
import CppMisc.CopyOnUpdate.Model
import CppMisc.CopyOnUpdate.Isolation
import CppMisc.CopyOnUpdate.LostUpdate
import CppMisc.ThreadPool.ListMacros
import CppMisc.ThreadPool.Model
import CppMisc.ThreadPool.Jobs
import CppMisc.ThreadPool.Wakeups
import CppMisc.ThreadPool.Termination
import CppMisc.ThreadPool.Workers
import CppMisc.NtyThreadPool.Model
import CppMisc.NtyThreadPool.Shutdown
import CppMisc.Library.Heap
import CppMisc.Library.Bytes
import CppMisc.Library.Epoll
import CppMisc.Library.WebSocketFrames
import CppMisc.Library.Base64
import CppMisc.MmPool.Model
import CppMisc.MmPool.Ledger
import CppMisc.MmPool.Moves
import CppMisc.MmPool.Soundness
import CppMisc.MmPool.Pointers
import CppMisc.MmPool.Chain
import CppMisc.MmPool.Termination
import CppMisc.EpollWebsocket.Packet
import CppMisc.Reactor.Model
import CppMisc.Reactor.Moves
import CppMisc.Reactor.Registration
import CppMisc.Reactor.Echo
import CppMisc.EpollV2.Dispatch
import CppMisc.KcpServer.Echo
import CppMisc.KcpServer.Outsiders
import CppMisc.UniquePtr.Model
import CppMisc.UniquePtr.Ownership
import CppMisc.MuduoServer.Clients
import CppMisc.ThreadPool.Destroy
import CppMisc.ThreadPool.DeadWorkers
import CppMisc.NtyThreadPool.Walk
import CppMisc.EpollWebsocket.Model
import CppMisc.EpollWebsocket.Segmentation
import CppMisc.EpollWebsocket.Encode
import CppMisc.EpollWebsocket.Accesses
import CppMisc.EpollWebsocket.Handshake
import CppMisc.EpollWebsocket.Bounds
import CppMisc.Library.Separated
import CppMisc.EpollWebsocket.Lines
import CppMisc.ThreadPool.MacroLists
import CppMisc.ThreadPool.Removal
import CppMisc.ThreadPool.Order
import CppMisc.MmPool.Overlap
import CppMisc.MmPool.Retirement
import CppMisc.MmPool.Failures
import CppMisc.MmPool.Replay
import CppMisc.MemPool.Model
import CppMisc.MemPool.Small
import CppMisc.MemPool.Large
import CppMisc.Library.Buckets
import CppMisc.Stl.HashTable
import CppMisc.Stl.Lookup
import CppMisc.KcpClient.Model
import CppMisc.KcpClient.RttTable
import CppMisc.C10MClient.Model
import CppMisc.C10MClient.Events
import CppMisc.Library.LittleEndian
import CppMisc.Library.SerialNumbers
import CppMisc.Library.Draws
import CppMisc.Kcp.Segment
import CppMisc.Kcp.ControlBlock
import CppMisc.Kcp.Input
import CppMisc.Kcp.Flush
import CppMisc.Kcp.Sides
import CppMisc.Kcp.Windows
import CppMisc.Kcp.Datagrams
import CppMisc.Kcp.History
import CppMisc.Kcp.Numbering
import CppMisc.Kcp.Network
import CppMisc.Kcp.Delivery
import CppMisc.Kcp.Messages
import CppMisc.Kcp.Reliability
import CppMisc.Kcp.Completion
import CppMisc.Kcp.Outgoing
import CppMisc.Kcp.Timers
import CppMisc.Kcp.Exchange
import CppMisc.Kcp.Progress
import CppMisc.Kcp.Applications
import CppMisc.Kcp.EchoServer
import CppMisc.Kcp.Simulator
import CppMisc.Kcp.TestProgram
import CppMisc.Kcp.DelayClient
