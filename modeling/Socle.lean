import Socle.Lib.Run
import Socle.Lib.Loop
import Socle.MemPool
import Socle.PoolLedger
import Socle.Buffer
import Socle.PoolCapacity
import Socle.ClientHello
import Socle.HelloWalk
import Socle.HelloSafety
import Socle.HelloExtraction
import Socle.PartialHello
import Socle.Crl
import Socle.PtrCache
import Socle.SslCom
import Socle.StatusCheck
import Socle.CheckCaches
import Socle.Lib.Latest
import Socle.OcspResponse
import Socle.Stapling
import Socle.VerifyCallbacks
import Socle.VerifyRuns
import Socle.PoolConservation
import Socle.PoolRealloc
import Socle.SessionTrust
import Socle.Handshake
import Socle.Broadcast
import Socle.LtvEntry
import Socle.LtvRoundTrip
import Socle.LtvBounds
import Socle.StringSplit
import Socle.Hostname
import Socle.Lib.Ledger
import Socle.PoolOwners
import Socle.BufferOwners
import Socle.LtvMemory
import Socle.LtvPairing
import Socle.Lib.Known
import Socle.PoolRoom
import Socle.BufferRoom
import Socle.BufferBytes
import Socle.BufferLists
import Socle.BufferContents
import Socle.WriteStream
import Socle.Lib.Wire
import Socle.Pcapng
import Socle.WriteInspection
import Socle.PcapngBlocks
import Socle.Flow
import Socle.TcpSegments
import Socle.FlowMatch
import Socle.CacheKeys
import Socle.CacheReorder
import Socle.CacheFreshness
import Socle.UdpQueue
import Socle.Epoll
import Socle.EpollWait
import Socle.EpollRescans
import Socle.EpollIdle
import Socle.UdpReadable
import Socle.UdpIsolation
import Socle.ConnectCache
import Socle.AppHostCX
import Socle.FdQueue
import Socle.WriteCapture
import Socle.ReadCapture
import Socle.Bottleneck
import Socle.Backpressure
import Socle.EpollHandlers
import Socle.OcspResponders
import Socle.Transparency
import Socle.CertCache
import Socle.PoolWriter
import Socle.ThreadedWriter
import Socle.ShmTable
import Socle.SpoofKeys
import Socle.Lib.Stream
import Socle.MasterProxy
import Socle.OcspQuery
import Socle.CaptureFiles
import Socle.SslRead
import Socle.SniFilter
import Socle.HostRead
import Socle.Unprocessed
import Socle.DatagramReuse
import Socle.PoolFallback
import Socle.MatchWindow
import Socle.SignatureTree
import Socle.LtvStability
import Socle.Lib.OnesSum
import Socle.Frames
import Socle.Checksums
import Socle.EventRing
import Socle.RateMeter
import Socle.Lib.CInt
import Socle.Casts
import Socle.Numbers
import Socle.GreFrames
import Socle.Lib.Text
import Socle.HttpGet
import Socle.UrlParts
import Socle.AddressUnpack
import Socle.StringFormat
import Socle.Lib.Regex
import Socle.RegexFill
import Socle.DisplayText
import Socle.SharedRefs
import Socle.BufferQueries
import Socle.Lib.ShiftRegister
import Socle.Crc32
import Socle.Base64
import Socle.ProxyContexts
import Socle.Descriptors
import Socle.HexDump
import Socle.DelimitedText
import Socle.PermanentConnections
import Socle.FileWriter
import Socle.Peering
import Socle.PeerCalls
import Socle.StartTls
import Socle.VirtualEvents
import Socle.SslWrite
import Socle.TlsPair
import Socle.SharedBuffer
