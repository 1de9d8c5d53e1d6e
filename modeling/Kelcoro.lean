import Kelcoro.Lib.Run
import Kelcoro.Lib.Returns
import Kelcoro.Lib.Simulates
import Kelcoro.Lib.Progress
import Kelcoro.Lib.Log
import Kelcoro.Lib.Handles
import Kelcoro.Lib.Owned
import Kelcoro.Lib.Held
import Kelcoro.Lib.Place
import Kelcoro.Lib.Parties
import Kelcoro.Lib.Wait
import Kelcoro.Lib.Calls
import Kelcoro.Lib.LinkedList
import Kelcoro.Lib.Waiters
import Kelcoro.StackResource.Model
import Kelcoro.StackResource.Regions
import Kelcoro.MemorySupport.Aligned
import Kelcoro.MemorySupport.NewDelete
import Kelcoro.StackResource.Operations
import Kelcoro.StackResource.System
import Kelcoro.StackResource.Sizes
import Kelcoro.StackResource.Reuse
import Kelcoro.ReturnBlock.Model
import Kelcoro.ReturnBlock.Reads
import Kelcoro.ReturnBlock.Storage
import Kelcoro.NonownerLockfreeStack
import Kelcoro.NonownerLockfreeStack.System
import Kelcoro.NonownerLockfreeStack.Invariant
import Kelcoro.NonownerLockfreeStack.Delivered
import Kelcoro.NonownerLockfreeStack.Progress
import Kelcoro.AwaitersQueue
import Kelcoro.AttachList
import Kelcoro.Road
import Kelcoro.ThreadPool.TaskQueue
import Kelcoro.Queues
import Kelcoro.Latch.Model
import Kelcoro.Latch.Invariant
import Kelcoro.Latch.Waiters
import Kelcoro.Latch.Destroyed
import Kelcoro.Gate.Model
import Kelcoro.Gate.Close
import Kelcoro.Gate.Waiters
import Kelcoro.Gate.Holders
import Kelcoro.Event.Model
import Kelcoro.Event.Invariant
import Kelcoro.Event.NotifyAll
import Kelcoro.Event.CopyThrows
import Kelcoro.Event.SetCallback
import Kelcoro.Event.WhenAny
import Kelcoro.Event.WhenAll
import Kelcoro.Algorithm.WhenAll
import Kelcoro.Algorithm.WhenAny
import Kelcoro.LogicalThread.Model
import Kelcoro.LogicalThread.Invariant
import Kelcoro.LogicalThread.Destroyed
import Kelcoro.LogicalThread.Join
import Kelcoro.AsyncTask.Model
import Kelcoro.AsyncTask.Invariant
import Kelcoro.AsyncTask.Destroyed
import Kelcoro.AsyncTask.Wait
import Kelcoro.ThreadPool.Model
import Kelcoro.ThreadPool.Blocks
import Kelcoro.ThreadPool.Walks
import Kelcoro.ThreadPool.Invariant
import Kelcoro.ThreadPool.Stop
import Kelcoro.ThreadPool.Order
import Kelcoro.ThreadPool.Resumed
import Kelcoro.ThreadPool.Nodes
import Kelcoro.ThreadPool.Pill
import Kelcoro.ThreadPool.Progress
import Kelcoro.ThreadPool.Completes
import Kelcoro.ThreadPool.NotEmpty
import Kelcoro.ThreadPool.HandOff
import Kelcoro.ThreadPool.AttachList
import Kelcoro.ThreadPool.Worker
import Kelcoro.Task.Model
import Kelcoro.Task.Invariant
import Kelcoro.Task.Context
import Kelcoro.Task.Destroyed
import Kelcoro.Task.Calls.Model
import Kelcoro.Task.Calls.Invariant
import Kelcoro.Task.Calls.Steps
import Kelcoro.Task.Calls.Evaluated
import Kelcoro.Task.Calls.Frames
import Kelcoro.Task.Calls.StackResource
import Kelcoro.Task.Calls.Going
import Kelcoro.Task.Calls.OnThreadPool
import Kelcoro.GeneratorsCommon.Body
import Kelcoro.GeneratorsCommon.Heap
import Kelcoro.GeneratorsCommon.Chain
import Kelcoro.GeneratorsCommon.Remaining
import Kelcoro.GeneratorsCommon.Tree
import Kelcoro.GeneratorsCommon.Attach
import Kelcoro.GeneratorsCommon.Destroy
import Kelcoro.GeneratorsCommon.Streams
import Kelcoro.GeneratorsCommon.Programs
import Kelcoro.GeneratorsCommon.Current
import Kelcoro.GeneratorsCommon.Clear
import Kelcoro.GeneratorsCommon.Alike
import Kelcoro.Generator.Model
import Kelcoro.Generator.Objects
import Kelcoro.Generator.Resume
import Kelcoro.Generator.Iteration
import Kelcoro.Generator.Programs
import Kelcoro.Generator.Empty
import Kelcoro.Generator.Transfer
import Kelcoro.Generator.Alike
import Kelcoro.Generator.Nothing
import Kelcoro.Channel.Model
import Kelcoro.Channel.Levels
import Kelcoro.Channel.Resume
import Kelcoro.Channel.Iteration
import Kelcoro.Channel.Requests
import Kelcoro.Channel.Programs
import Kelcoro.Channel.Transfer
import Kelcoro.Channel.Empty
import Kelcoro.Channel.ExtractFrom.Model
import Kelcoro.Channel.ExtractFrom.Heard
import Kelcoro.Channel.ExtractFrom.Alike
import Kelcoro.Channel.ExtractFrom.Loops
import Kelcoro.Channel.ExtractFrom.Resume
import Kelcoro.Channel.ExtractFrom.Iteration
