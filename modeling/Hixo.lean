import Hixo.AcceptLock.Exclusion
import Hixo.AcceptLock.Serial
import Hixo.AcceptLock.Starvation
import Hixo.AcceptLock.Steps
import Hixo.AdvString.Defs
import Hixo.AdvString.Itostr
import Hixo.AdvString.Strtoi
import Hixo.Bitmaps.Defs
import Hixo.Bitmaps.Runs
import Hixo.Buffer.Defs
import Hixo.Buffer.Growth
import Hixo.Common.CountPlaces
import Hixo.Common.Defs
import Hixo.Common.RoundTrip
import Hixo.Common.Wtoa
import Hixo.Echo.Buffers
import Hixo.Echo.Defs
import Hixo.Echo.EndToEnd
import Hixo.Echo.Queues
import Hixo.Echo.ReadQueue
import Hixo.Echo.Rounds
import Hixo.Foundation.ByteBlock
import Hixo.Foundation.ByteMemory
import Hixo.Foundation.ColoredTree
import Hixo.Foundation.Decimal
import Hixo.Foundation.HeadedLists
import Hixo.Foundation.HttpMessage
import Hixo.Foundation.Interleaving
import Hixo.Foundation.LinkedList
import Hixo.Foundation.Monitor
import Hixo.Foundation.Programs
import Hixo.Foundation.RedBlack
import Hixo.Foundation.RingBackward
import Hixo.Foundation.RingList
import Hixo.Foundation.Rollback
import Hixo.Foundation.SlabPool
import Hixo.Lists.Dlist
import Hixo.Lists.Singly
import Hixo.Process.Defs
import Hixo.Process.Failures
import Hixo.Process.Fork
import Hixo.Process.Modules
import Hixo.Process.Reaping
import Hixo.Process.Restart
import Hixo.Process.Spawn
import Hixo.Process.Startup
import Hixo.Process.Teardown
import Hixo.Rbtree.Defs
import Hixo.Rbtree.Erasure
import Hixo.Rbtree.Forest
import Hixo.Rbtree.Insertion
import Hixo.Rbtree.Numbers
import Hixo.Rbtree.Shape
import Hixo.Rbtree.Walk
import Hixo.Resource.Defs
import Hixo.Resource.Integers
import Hixo.Resource.Pool
import Hixo.Resource.Runs
import Hixo.Server.Answers
import Hixo.Server.Defs
import Hixo.Server.Handlers
import Hixo.Server.Hosts
import Hixo.Server.Runs
import Hixo.SimpleHttp.Defs
import Hixo.SimpleHttp.Sending
import Hixo.Slub.BitScans
import Hixo.Slub.Defs
import Hixo.Slub.Exhaustion
import Hixo.Slub.Format
import Hixo.Slub.Interference
import Hixo.Slub.Layout
import Hixo.Slub.Placement
import Hixo.Slub.Refinement
import Hixo.Slub.Runs
import Hixo.Slub.ShiftLeft
import Hixo.Worker.Burst
import Hixo.Worker.Callbacks
import Hixo.Worker.Closing
import Hixo.Worker.Connections
import Hixo.Worker.EventLoop
import Hixo.Worker.Handlers
import Hixo.Worker.Init
import Hixo.Worker.InitMaster
import Hixo.Worker.Invariant
import Hixo.Worker.Limit
import Hixo.Worker.ListenerTable
import Hixo.Worker.Lists
import Hixo.Worker.Polling
import Hixo.Worker.Positions
import Hixo.Worker.Protocol
import Hixo.Worker.Registration
import Hixo.Worker.Routing
import Hixo.Worker.Runs
import Hixo.Worker.StaleFilter
import Hixo.Worker.Start
import Hixo.Worker.State
import Hixo.Worker.Switching
import Hixo.Worker.Traversal
