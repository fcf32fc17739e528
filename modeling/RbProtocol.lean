import RbProtocol.Library.Lists
import RbProtocol.Library.Runs
import RbProtocol.Library.Simulation
import RbProtocol.Library.Checked
import RbProtocol.Library.Loops
import RbProtocol.Library.HighWaterMark
import RbProtocol.Library.Retransmission
import RbProtocol.Library.TicketLine
import RbProtocol.Library.SortedMap
import RbProtocol.Library.Preorder
import RbProtocol.Library.Deadlock
import RbProtocol.Library.Buffer
import RbProtocol.Library.Datagrams
import RbProtocol.Library.Framing
import RbProtocol.Library.Paths
import RbProtocol.Library.BinaryFloat
import RbProtocol.Foundations.Bytes
import RbProtocol.Foundations.Ascii
import RbProtocol.Foundations.Network
import RbProtocol.Foundations.Printf
import RbProtocol.Foundations.Strtod
import RbProtocol.Foundations.Inet
import RbProtocol.Foundations.Scanf
import RbProtocol.Foundations.PercentEncoding
import RbProtocol.Foundations.JsonText
import RbProtocol.Foundations.Numerals
import RbProtocol.Json.Members
import RbProtocol.Json.Value
import RbProtocol.Json.Canonical
import RbProtocol.Json.Packet
import RbProtocol.Json.Jsmn
import RbProtocol.Json.Parse
import RbProtocol.Json.Tokens
import RbProtocol.Json.RoundTrip
import RbProtocol.Json.Strings
import RbProtocol.Json.Children
import RbProtocol.Json.Sentence
import RbProtocol.Json.Bounds
import RbProtocol.Json.WellFormed
import RbProtocol.Json.Grammar
import RbProtocol.Json.Fields
import RbProtocol.Dns.Server
import RbProtocol.Dns.Names
import RbProtocol.Dns.Questions
import RbProtocol.Dns.Header
import RbProtocol.Dns.Bounds
import RbProtocol.Dns.Reply
import RbProtocol.Dns.Receive
import RbProtocol.Dns.Task
import RbProtocol.Protocol.State
import RbProtocol.Protocol.HandleMsg
import RbProtocol.Protocol.Sessions
import RbProtocol.Protocol.Delivery
import RbProtocol.Protocol.Counter
import RbProtocol.Protocol.Isolation
import RbProtocol.Protocol.Arithmetic
import RbProtocol.Protocol.MustArrive
import RbProtocol.Protocol.Completion
import RbProtocol.Protocol.AckIdentity
import RbProtocol.Protocol.ResetSections
import RbProtocol.Protocol.SendTask
import RbProtocol.Protocol.SendOrder
import RbProtocol.Protocol.Tasks
import RbProtocol.Protocol.Deadlock
import RbProtocol.Protocol.Controller
import RbProtocol.Ws.Client
import RbProtocol.Ws.Message
import RbProtocol.Ws.Decode
import RbProtocol.Ws.Frames
import RbProtocol.Ws.Backend
import RbProtocol.Ws.Exact
import RbProtocol.Ws.Control
import RbProtocol.Ws.Invariant
import RbProtocol.Ws.Outgoing
import RbProtocol.Ws.Descriptors
import RbProtocol.Ws.Disconnected
import RbProtocol.Ws.Dropped
import RbProtocol.Web.Rio
import RbProtocol.Web.ParseRequest
import RbProtocol.Web.UrlDecode
import RbProtocol.Web.Termination
import RbProtocol.Web.HeaderLines
import RbProtocol.Web.LineReading
import RbProtocol.Web.Serve
import RbProtocol.Web.Confinement
import RbProtocol.Web.Upgrade
import RbProtocol.Web.Range
import RbProtocol.Web.Transfer
import RbProtocol.Web.Ownership
import RbProtocol.Web.Response
import RbProtocol.Web.AddFile
import RbProtocol.Tcp.Socket
import RbProtocol.Tcp.Delivery
import RbProtocol.Tcp.Closing
import RbProtocol.Udp.Registry
import RbProtocol.Udp.Backend
import RbProtocol.Udp.ReadTask
import RbProtocol.Udp.SocketLedger
import RbProtocol.Protocol.RecvTask
import RbProtocol.Protocol.EndToEnd
import RbProtocol.Protocol.Written
import RbProtocol.Protocol.Lifecycle
