import Caht.Library.Bytes
import Caht.Library.Outcome
import Caht.Library.Chain
import Caht.Library.Probing
import Caht.Library.Traced
import Caht.Library.Vec
import Caht.Library.Writers
import Caht.Library.Ranking
import Caht.Library.Ledger
import Caht.Library.Sweep
import Caht.Library.Stock
import Caht.Library.Framing
import Caht.Protocol.Wire
import Caht.Protocol.RoundTrip
import Caht.Protocol.Bounds
import Caht.Protocol.CreateGroup
import Caht.ClientMap.Model
import Caht.ClientMap.Refinement
import Caht.ClientMap.History
import Caht.ClientMap.AbsentDeletes
import Caht.Groups.CidSet
import Caht.Groups.Inserts
import Caht.Groups.Accesses
import Caht.Groups.Batches
import Caht.Groups.Cursors
import Caht.Groups.Model
import Caht.Groups.Refinement
import Caht.Groups.Calls
import Caht.Groups.Creation
import Caht.Server.Slab
import Caht.Server.SlabCounts
import Caht.Server.OpPool
import Caht.Server.PoolArrays
import Caht.Server.Model
import Caht.Server.View
import Caht.Server.ShortWrites
import Caht.Server.Rearming
import Caht.Server.Usernames
import Caht.Server.StoredNames
import Caht.Server.Handlers
import Caht.Server.Receive
import Caht.Server.Completion
import Caht.Server.System
import Caht.Server.Ownership
import Caht.Server.Lifecycle
import Caht.Server.Descriptors
import Caht.Server.Connections
import Caht.Server.Failures
import Caht.Server.Conversation
import Caht.Server.Noninterference
import Caht.Server.Segmentation
import Caht.Server.Submission
import Caht.Server.Outgoing
import Caht.Server.Turns
import Caht.Server.Pipelining
import Caht.Server.Compaction
import Caht.Server.Capacity
import Caht.Server.Progress
import Caht.Server.Inventory
import Caht.Server.Departures
import Caht.Server.Service
import Caht.Server.Replies
import Caht.Server.Teardown
import Caht.Server.Lockstep
import Caht.Server.InOrder
import Caht.Server.Cells
import Caht.Server.Footprint
import Caht.Server.Reader
