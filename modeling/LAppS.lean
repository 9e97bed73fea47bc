import LAppS.Bytes
import LAppS.Container.SearchTree
import LAppS.Transition.Runs
import LAppS.Transition.Startup
import LAppS.Transition.Threads
import LAppS.Lexing.Regex
import LAppS.Rfc6455.Frame
import LAppS.Rfc6455.Decoder
import LAppS.Rfc6455.Decoding
import LAppS.Rfc6455.Lazy
import LAppS.Rfc6455.Fragments
import LAppS.Rfc6455.Unique
import LAppS.Rfc6455.Streams
import LAppS.StreamProcessing.Parser
import LAppS.StreamProcessing.Parse
import LAppS.StreamProcessing.Payload
import LAppS.StreamProcessing.Refinement
import LAppS.StreamProcessing.Bounds
import LAppS.StreamProcessing.Drain
import LAppS.StreamProcessing.Reassembly
import LAppS.StreamProcessing.Limits
import LAppS.StreamProcessing.ServerParser
import LAppS.StreamProcessing.ClientParser
import LAppS.StreamProcessing.ClientCall
import LAppS.StreamProcessing.Utf8
import LAppS.WebSocketProtocol.Messages
import LAppS.WebSocketProtocol.Fragmentation
import LAppS.WebSocketProtocol.Senders
import LAppS.ClientWebSocket.Send
import LAppS.ClientWebSocket.Handshake
import LAppS.ClientWebSocket.Input
import LAppS.ClientWebSocket.Feeding
import LAppS.ClientWebSocket.Callbacks
import LAppS.NetworkACL.Ipcalc
import LAppS.NetworkACL.Cidr
import LAppS.NetworkACL.Match
import LAppS.NetworkACL.Ordering
import LAppS.Broadcast
import LAppS.IOWorker.Disconnects
import LAppS.ServiceRegistry
import LAppS.WebSocketProtocol.CloseMessage
import LAppS.WebSocket.Input
import LAppS.WebSocket.Output
import LAppS.WebSocket.Sending
import LAppS.IOWorker.System
import LAppS.IOWorker.Descriptors
import LAppS.IOWorker.Sessions
import LAppS.Json
import LAppS.LAppSMessages
import LAppS.LuaReactiveService
import LAppS.LuaStandaloneService
import LAppS.Deployer
import LAppS.Deployer.Atomicity
import LAppS.Deployer.Start
import LAppS.Shakespeer
import LAppS.Shakespeer.Reuse
import LAppS.Shakespeer.Upgrade
import LAppS.ClientWebSocket.Agreement
import LAppS.Shakespeer.LineBreak
import LAppS.URIView.Grammar
import LAppS.URIView.Parse
import LAppS.URIView.Accepted
import LAppS.URIView.Components
import LAppS.ClientWebSocket.Connect
import LAppS.ClientWebSocket.Upgrade
import LAppS.IOWorker.Serving
import LAppS.IOWorker.Watching
import LAppS.StreamProcessing.Unmasking
import LAppS.Env
import LAppS.Deployer.LuaPath
import LAppS.Nljson.Convertible
import LAppS.Nljson.Replace
import LAppS.Tree.Positions
import LAppS.Nljson.Traverse
import LAppS.Lexing.Reader
import LAppS.Numbers.Ieee754
import LAppS.Cbor.Json
import LAppS.Cbor.Format
import LAppS.Cbor.Reader
import LAppS.Cbor.Accepted
import LAppS.Cbor.Prefixes
import LAppS.Cbor.Writer
import LAppS.Cbor.Transport
import LAppS.LuaReactiveService.Conversation
import LAppS.RobinHash.Buckets
import LAppS.RobinHash.Erasure
import LAppS.RobinHash.Table
import LAppS.RobinHash.Runs
import LAppS.WorkersStats
import LAppS.RoundRobin
import LAppS.WSWorkersPool
import LAppS.MQRegistry
import LAppS.ServiceRegistry.Turns
import LAppS.Broadcasts
