import Sparc.Library.Agenda
import Sparc.Library.Cells
import Sparc.Library.ExpiringMap
import Sparc.Library.Fields
import Sparc.Library.Holdings
import Sparc.Library.Intake
import Sparc.Library.Ledger
import Sparc.Library.Loop
import Sparc.Library.Machine
import Sparc.Library.Occurrence
import Sparc.Library.Octets
import Sparc.Library.Path
import Sparc.Library.Prefixes
import Sparc.Library.Ram
import Sparc.Library.Registry
import Sparc.Library.Search
import Sparc.Library.SetCookie
import Sparc.Library.Sharing
import Sparc.Library.Table
import Sparc.Library.Text
import Sparc.Library.Trie
import Sparc.Model.AcceptLock
import Sparc.Model.Accessors
import Sparc.Model.App
import Sparc.Model.Auth
import Sparc.Model.AutoStr
import Sparc.Model.Buffer
import Sparc.Model.ByteBuffer
import Sparc.Model.Databases
import Sparc.Model.Db
import Sparc.Model.Descriptor
import Sparc.Model.Incoming
import Sparc.Model.Json
import Sparc.Model.JsonText
import Sparc.Model.Kore
import Sparc.Model.Listing
import Sparc.Model.Memory
import Sparc.Model.Msg
import Sparc.Model.Multipart
import Sparc.Model.Net
import Sparc.Model.Pgsql
import Sparc.Model.Pool
import Sparc.Model.Request
import Sparc.Model.Reply
import Sparc.Model.Response
import Sparc.Model.Router
import Sparc.Model.Session
import Sparc.Model.Setup
import Sparc.Model.StaticFile
import Sparc.Model.Timer
import Sparc.Model.WebSocket
import Sparc.Model.WebSocketFrames
import Sparc.Model.Worker
import Sparc.Verification.App.Completion
import Sparc.Verification.App.ContentType
import Sparc.Verification.App.Dispatch
import Sparc.Verification.App.Filters
import Sparc.Verification.App.Gate
import Sparc.Verification.App.Handling
import Sparc.Verification.App.Response
import Sparc.Verification.App.Status
import Sparc.Verification.App.Trace
import Sparc.Verification.Auth.Basic
import Sparc.Verification.Auth.Binding
import Sparc.Verification.Auth.Calls
import Sparc.Verification.Auth.Memory
import Sparc.Verification.Auth.Order
import Sparc.Verification.Auth.Parsing
import Sparc.Verification.Auth.Scheme
import Sparc.Verification.Auth.Totality
import Sparc.Verification.Auth.Verdict
import Sparc.Verification.AutoStr.Counts
import Sparc.Verification.Buffer.Capacity
import Sparc.Verification.Buffer.Contents
import Sparc.Verification.Buffer.Cookies
import Sparc.Verification.Buffer.Slice
import Sparc.Verification.Buffer.Text
import Sparc.Verification.Config.Strings
import Sparc.Verification.Db.Completion
import Sparc.Verification.Db.Conservation
import Sparc.Verification.Db.Registry
import Sparc.Verification.Db.Report
import Sparc.Verification.Db.Steps
import Sparc.Verification.Db.Teardown
import Sparc.Verification.Json.Grammar
import Sparc.Verification.Json.Misuse
import Sparc.Verification.Json.Parser
import Sparc.Verification.Json.RoundTrip
import Sparc.Verification.Json.Strings
import Sparc.Verification.Json.Tags
import Sparc.Verification.Json.Utf8
import Sparc.Verification.Memory.Blocks
import Sparc.Verification.Memory.Calls
import Sparc.Verification.Memory.Heap
import Sparc.Verification.Memory.Pool
import Sparc.Verification.Memory.Run
import Sparc.Verification.Memory.Start
import Sparc.Verification.Msg.Bus
import Sparc.Verification.Msg.Channel
import Sparc.Verification.Msg.Delivery
import Sparc.Verification.Net.Receiving
import Sparc.Verification.Net.Sending
import Sparc.Verification.Request.Arguments
import Sparc.Verification.Request.Body
import Sparc.Verification.Request.Cookies
import Sparc.Verification.Request.Form
import Sparc.Verification.Request.Incoming
import Sparc.Verification.Request.Multipart
import Sparc.Verification.Request.Upload
import Sparc.Verification.Response.CookieTable
import Sparc.Verification.Response.Framing
import Sparc.Verification.Response.RoundTrip
import Sparc.Verification.Router.Arrays
import Sparc.Verification.Router.Binding
import Sparc.Verification.Router.Cache
import Sparc.Verification.Router.Completeness
import Sparc.Verification.Router.Depth
import Sparc.Verification.Router.Listing
import Sparc.Verification.Router.Lookup
import Sparc.Verification.Router.Pattern
import Sparc.Verification.Router.Refinement
import Sparc.Verification.Router.Registration
import Sparc.Verification.Router.Slots
import Sparc.Verification.Router.Soundness
import Sparc.Verification.Router.Table
import Sparc.Verification.Router.Walk
import Sparc.Verification.Session.Lifetime
import Sparc.Verification.Session.Refinement
import Sparc.Verification.Session.Table
import Sparc.Verification.StaticFile.Coherence
import Sparc.Verification.StaticFile.Containment
import Sparc.Verification.StaticFile.ContentType
import Sparc.Verification.StaticFile.Descriptors
import Sparc.Verification.StaticFile.Headers
import Sparc.Verification.StaticFile.Location
import Sparc.Verification.StaticFile.Naming
import Sparc.Verification.StaticFile.Reading
import Sparc.Verification.Timer.Deadlines
import Sparc.Verification.Timer.Ownership
import Sparc.Verification.Timer.Phase
import Sparc.Verification.Timer.Run
import Sparc.Verification.Timer.Safety
import Sparc.Verification.Timer.Steps
import Sparc.Verification.Timer.Termination
import Sparc.Verification.WebSocket.Broadcast
import Sparc.Verification.WebSocket.Frames
import Sparc.Verification.WebSocket.Receive
import Sparc.Verification.Worker.Exclusion
import Sparc.Verification.Worker.Recovery
