import Tuyau.AssocMap
import Tuyau.CountMap
import Tuyau.Runs
import Tuyau.Leases
import Tuyau.CyclicScan
import Tuyau.SequentialScans
import Tuyau.Relay
import Tuyau.Feeds
import Tuyau.BigEndian
import Tuyau.Chunks
import Tuyau.StreamDecoder
import Tuyau.CheckedExec
import Tuyau.SeqAccess
import Tuyau.FaultyFiles
import Tuyau.PemText
import Tuyau.AsciiText
import Tuyau.TextReader
import Tuyau.Utf8Lossy
import Tuyau.Http
import Tuyau.Net
import Tuyau.AddrParse
import Tuyau.Frame
import Tuyau.Config
import Tuyau.Backend
import Tuyau.Routes
import Tuyau.HostEntries
import Tuyau.Ownership
import Tuyau.Installation
import Tuyau.Lookups
import Tuyau.RoundRobin
import Tuyau.Control
import Tuyau.Handler
import Tuyau.Server
import Tuyau.Agreement
import Tuyau.Handshake
import Tuyau.Observers
import Tuyau.Shutdown
import Tuyau.StaticMode
import Tuyau.ConnLimits
import Tuyau.Public
import Tuyau.PublicStatic
import Tuyau.Revocation
import Tuyau.Replacement
import Tuyau.DynamicMode
import Tuyau.RoutingQueries
import Tuyau.AnnouncedMode
import Tuyau.LetterCase
import Tuyau.HttpOrPipe
import Tuyau.Linearizability
import Tuyau.Codec
import Tuyau.TokenSerde
import Tuyau.FrameReaders
import Tuyau.Listener
import Tuyau.Sni
import Tuyau.SniBounds
import Tuyau.Replay
import Tuyau.Metered
import Tuyau.ReplayedLink
import Tuyau.Tunnelled
import Tuyau.Delivery
import Tuyau.Deployment
import Tuyau.HttpProxy
import Tuyau.Preservation
import Tuyau.LocalPool
import Tuyau.SocketLabels
import Tuyau.TunnelCert
import Tuyau.Secrets
import Tuyau.HostCerts
import Tuyau.UniqueHosts
import Tuyau.Acme
import Tuyau.OwnCerts
import Tuyau.IgnoredEntries
