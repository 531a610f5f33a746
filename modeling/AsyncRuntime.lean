import AsyncRuntime.Lib.Machine
import AsyncRuntime.Lib.Atomic
import AsyncRuntime.Lib.Window
import AsyncRuntime.Lib.Sums
import AsyncRuntime.Lib.StoreBuffer
import AsyncRuntime.Lib.Forest
import AsyncRuntime.Lib.Buffer
import AsyncRuntime.Lib.Memory
import AsyncRuntime.Lib.Simulation
import AsyncRuntime.Lib.EdgeTriggered
import AsyncRuntime.Lib.Flow
import AsyncRuntime.Lib.Slots
import AsyncRuntime.Deque.Model
import AsyncRuntime.Deque.Invariants
import AsyncRuntime.Deque.Refinement
import AsyncRuntime.Deque.Accesses
import AsyncRuntime.Deque.Growth
import AsyncRuntime.Deque.StoreBuffers
import AsyncRuntime.Pool.Model
import AsyncRuntime.Pool.Effects
import AsyncRuntime.Pool.Stealing
import AsyncRuntime.Pool.Deques
import AsyncRuntime.Pool.Mutex
import AsyncRuntime.Pool.Teardown
import AsyncRuntime.Pool.Ownership
import AsyncRuntime.Pool.Runs
import AsyncRuntime.Pool.Shutdown
import AsyncRuntime.Pool.Supply
import AsyncRuntime.Pool.Wakeup
import AsyncRuntime.Pool.Waking
import AsyncRuntime.Pool.Quiescence
import AsyncRuntime.Pool.Potential
import AsyncRuntime.Pool.Progress
import AsyncRuntime.Pool.StoreBuffers
import AsyncRuntime.Pool.Barrier
import AsyncRuntime.Pool.Counting
import AsyncRuntime.Pool.Order
import AsyncRuntime.Pools.Model
import AsyncRuntime.Pools.Isolation
import AsyncRuntime.Ring.Model
import AsyncRuntime.Ring.Effects
import AsyncRuntime.Ring.Operations
import AsyncRuntime.Ring.Batch
import AsyncRuntime.Ring.Lifecycle
import AsyncRuntime.Ring.Completion
import AsyncRuntime.Ring.Cancel
import AsyncRuntime.Ring.Tail
import AsyncRuntime.Ring.Stop
import AsyncRuntime.Ring.Full
import AsyncRuntime.Ring.Destroy
import AsyncRuntime.Ring.Pending
import AsyncRuntime.StopHelper.Model
import AsyncRuntime.StopHelper.Requests
import AsyncRuntime.StopHelper.Sequential
import AsyncRuntime.Runtime.Model
import AsyncRuntime.Runtime.Destroy
import AsyncRuntime.Server.Session
import AsyncRuntime.Server.Echo
import AsyncRuntime.Server.OnRing
import AsyncRuntime.Server.Fixed
import AsyncRuntime.Server.Ownership
import AsyncRuntime.Server.Buffers
import AsyncRuntime.Server.Listener
import AsyncRuntime.Server.AcceptLoop
import AsyncRuntime.Server.Epoll
import AsyncRuntime.Server.Reactor
import AsyncRuntime.Server.Descriptors
import AsyncRuntime.Server.Edges
import AsyncRuntime.Server.Isolation
import AsyncRuntime.Client.Model
import AsyncRuntime.Client.Requests
import AsyncRuntime.EndToEnd.Model
import AsyncRuntime.EndToEnd.Frames
import AsyncRuntime.EndToEnd.Progress
