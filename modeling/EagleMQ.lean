import EagleMQ.Lib.Prog
import EagleMQ.Lib.Run
import EagleMQ.Lib.Heap
import EagleMQ.Lib.Chain
import EagleMQ.Lib.Keylist
import EagleMQ.Lib.Takes
import EagleMQ.Lib.Window
import EagleMQ.Lzf
import EagleMQ.Lzf.Format
import EagleMQ.Lzf.Pack
import EagleMQ.Storage.Vendored
import EagleMQ.Lib.Refcount
import EagleMQ.Queue
import EagleMQ.Queue.Deque
import EagleMQ.Message
import EagleMQ.Utils
import EagleMQ.Validators
import EagleMQ.Server
import EagleMQ.Binding
import EagleMQ.QueueT
import EagleMQ.ChannelT
import EagleMQ.Storage
import EagleMQ.Handlers
import EagleMQ.System
import EagleMQ.Links
import EagleMQ.Links.Frames
import EagleMQ.Links.Delivery
import EagleMQ.Links.Teardown
import EagleMQ.Links.Channels
import EagleMQ.Links.Clients
import EagleMQ.Links.Records
import EagleMQ.Links.Stored
import EagleMQ.Links.Still
import EagleMQ.Links.Answers
import EagleMQ.Links.Upheld
import EagleMQ.Links.Loading
import EagleMQ.Effect
import EagleMQ.Relations
import EagleMQ.Consistency
import EagleMQ.Authorization
import EagleMQ.Lasting
import EagleMQ.Turns
import EagleMQ.AutoDelete
import EagleMQ.Disposal
import EagleMQ.ProtectedUsers
import EagleMQ.Backlog
import EagleMQ.Backlog.Ticks
import EagleMQ.Backlog.Traffic
import EagleMQ.Backlog.Steps
import EagleMQ.Backlog.Reach
import EagleMQ.Backlog.Bound
import EagleMQ.Backlog.Oldest
import EagleMQ.Backlog.Index
import EagleMQ.Backlog.Places
import EagleMQ.Backlog.Dates
import EagleMQ.Backlog.Deadlines
import EagleMQ.Backlog.Tags
import EagleMQ.Storage.Fields
import EagleMQ.Storage.Save
import EagleMQ.Storage.Atomic
import EagleMQ.Framer.Chunking
import EagleMQ.Framer.Bounds
import EagleMQ.Responses
import EagleMQ.Renames
import EagleMQ.Push
import EagleMQ.Glob
import EagleMQ.Glob.Verdict
import EagleMQ.Lib.Ends
import EagleMQ.Lib.OrderedMap
import EagleMQ.LinkedKeylist
import EagleMQ.LinkedKeylist.Map
import EagleMQ.Storage.Codec
import EagleMQ.Publish
import EagleMQ.Lib.Rounds
import EagleMQ.LinkedList
import EagleMQ.RoundRobin
import EagleMQ.References
import EagleMQ.References.Holding
import EagleMQ.References.Recedes
import EagleMQ.Streams.Send
import EagleMQ.Push.Settled
import EagleMQ.Push.Fanout
import EagleMQ.Departures
import EagleMQ.Backlog.Accounted
import EagleMQ.Storage.Contents
import EagleMQ.Leaks
import EagleMQ.Storage.Building
import EagleMQ.Storage.Restart
import EagleMQ.Streams.Packets
import EagleMQ.Streams.Answered
