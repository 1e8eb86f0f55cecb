import Vhrn.Cli.Batches
import Vhrn.Cli.BrokerRelay
import Vhrn.Cli.BrokerStop
import Vhrn.Cli.BrokerWire
import Vhrn.Cli.Config
import Vhrn.Cli.DenialLog
import Vhrn.Cli.DenyProvenance
import Vhrn.Cli.Dockerfile
import Vhrn.Cli.DomainMatching
import Vhrn.Cli.InstalledRegistry
import Vhrn.Cli.LayerProvenance
import Vhrn.Cli.LoopbackGrants
import Vhrn.Cli.Names
import Vhrn.Cli.PolicyStore
import Vhrn.Cli.ProxyAgreement
import Vhrn.Cli.Quoting
import Vhrn.Cli.RunFlags
import Vhrn.Cli.RunLifecycle
import Vhrn.Cli.SeedPublication
import Vhrn.Cli.SessionStores
import Vhrn.Cli.StoreRuns
import Vhrn.Cli.Termination
import Vhrn.Cli.ToolsTag
import Vhrn.Foundations.Bytes
import Vhrn.Foundations.ChunkedCoding
import Vhrn.Foundations.Continuation
import Vhrn.Foundations.Copying
import Vhrn.Foundations.Ends
import Vhrn.Foundations.Feed
import Vhrn.Foundations.Gregorian
import Vhrn.Foundations.Guards
import Vhrn.Foundations.Holdings
import Vhrn.Foundations.HttpCrate
import Vhrn.Foundations.HttpReference
import Vhrn.Foundations.Keeps
import Vhrn.Foundations.Layers
import Vhrn.Foundations.Net
import Vhrn.Foundations.NetText
import Vhrn.Foundations.Numerals
import Vhrn.Foundations.Paths
import Vhrn.Foundations.Pipeline
import Vhrn.Foundations.Prefix
import Vhrn.Foundations.ReadModifyWrite
import Vhrn.Foundations.Runs
import Vhrn.Foundations.Shell
import Vhrn.Foundations.Split
import Vhrn.Foundations.Supervision
import Vhrn.Foundations.Traced
import Vhrn.Foundations.Words
import Vhrn.Proxy.CivilTime
import Vhrn.Proxy.Connect.BrokerProtocol
import Vhrn.Proxy.Connect.BufferBound
import Vhrn.Proxy.Connect.DecoderAgreement
import Vhrn.Proxy.Connect.Exchange
import Vhrn.Proxy.Connect.Forward
import Vhrn.Proxy.Connect.OriginBody
import Vhrn.Proxy.Connect.OriginConnection
import Vhrn.Proxy.Connect.OriginStream
import Vhrn.Proxy.Connect.OutboundHead
import Vhrn.Proxy.Connect.Pool
import Vhrn.Proxy.Connect.PoolRuns
import Vhrn.Proxy.Connect.Public
import Vhrn.Proxy.Connect.Reachability
import Vhrn.Proxy.Connect.Registry
import Vhrn.Proxy.Connect.RequestCompletion
import Vhrn.Proxy.Connect.RequestEncoding
import Vhrn.Proxy.Connect.RequestWriter
import Vhrn.Proxy.Connect.ResponseFrames
import Vhrn.Proxy.Connect.ResponseHalf
import Vhrn.Proxy.DenialLog
import Vhrn.Proxy.Destinations
import Vhrn.Proxy.Diagnostics
import Vhrn.Proxy.Domain.Canonical
import Vhrn.Proxy.Domain.LivePolicy
import Vhrn.Proxy.Domain.Loopback
import Vhrn.Proxy.Domain.Names
import Vhrn.Proxy.Domain.Policy
import Vhrn.Proxy.Domain.PolicyReader
import Vhrn.Proxy.Domain.Target
import Vhrn.Proxy.Headers
import Vhrn.Proxy.Server.Audit
import Vhrn.Proxy.Server.Authorize
import Vhrn.Proxy.Server.DeliveredHead
import Vhrn.Proxy.Server.DeliveredResponse
import Vhrn.Proxy.Server.Egress
import Vhrn.Proxy.Server.Http1.Body
import Vhrn.Proxy.Server.Http1.Buffering
import Vhrn.Proxy.Server.Http1.ChunkSize
import Vhrn.Proxy.Server.Http1.Fields
import Vhrn.Proxy.Server.Http1.Framing
import Vhrn.Proxy.Server.Http1.Head
import Vhrn.Proxy.Server.Http1.Messages
import Vhrn.Proxy.Server.Http1.Reader
import Vhrn.Proxy.Server.Http1.Scan
import Vhrn.Proxy.Server.Http1.Written
import Vhrn.Proxy.Server.Http1.WrittenHead
import Vhrn.Proxy.Server.Listener
import Vhrn.Proxy.Server.Permission
import Vhrn.Proxy.Server.Persistence
import Vhrn.Proxy.Server.Relay
import Vhrn.Proxy.Server.Response
import Vhrn.Proxy.Server.Router
import Vhrn.Proxy.Server.WrittenResponse
