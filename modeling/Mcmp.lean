import Mcmp.Foundation.Interleaving
import Mcmp.Foundation.Lockstep
import Mcmp.Foundation.Fairness
import Mcmp.Foundation.Signals
import Mcmp.Foundation.ByteBits
import Mcmp.Foundation.ByteOrder
import Mcmp.Foundation.WordMemory
import Mcmp.Foundation.CyclicRange
import Mcmp.Foundation.ExclusiveHolders
import Mcmp.Foundation.ScanLoop
import Mcmp.Foundation.SetFifo
import Mcmp.Foundation.SharedRetries
import Mcmp.Status
import Mcmp.Utilities.BitmapScan
import Mcmp.Utilities.BitmapScanSteps
import Mcmp.Utilities.Bitmap
import Mcmp.Utilities.EnvFlags
import Mcmp.Utilities.AtomicBitmap
import Mcmp.Utilities.BitmapLoop
import Mcmp.Utilities.BitmapSet
import Mcmp.Utilities.SetQueue
import Mcmp.Utilities.SetQueueAlone
import Mcmp.Utilities.SetQueueProtocol
import Mcmp.Utilities.SetQueueShared
import Mcmp.Utilities.SetQueuePair
import Mcmp.Utilities.SetQueueProgress
import Mcmp.Utilities.SetQueueBlock
import Mcmp.Utilities.SetQueueBlockRuns
import Mcmp.Utilities.SetQueueBlockAlone
import Mcmp.Utilities.ChunkedQueue
import Mcmp.Utilities.ChunkedQueueAlone
import Mcmp.Utilities.ChunkedQueuePair
import Mcmp.Utilities.ChunkedQueueProgress
import Mcmp.Utilities.AllocationSizes
import Mcmp.Utilities.ChunkedQueueLayout
import Mcmp.Routines.Lock
import Mcmp.Routines.LockShared
import Mcmp.Routines.MonitorLock
import Mcmp.Routines.MonitorBackOff
import Mcmp.Routines.MonitorRegistry
import Mcmp.Routines.MonitorThread
import Mcmp.Routines.MonitorThreadFair
import Mcmp.Routines.SignalRoutine
import Mcmp.Routines.Consumer
import Mcmp.Routines.ConsumerPool
import Mcmp.Routines.ExecutionPool
import Mcmp.Routines.ExecutionPoolRuns
import Mcmp.Routines.ExecutionPoolFair
import Mcmp.Routines.Worker
import Mcmp.Routines.WorkerTasks
import Mcmp.Routines.WorkerCleanup
import Mcmp.Routines.WorkerBeat
import Mcmp.Routines.WorkerCreate
import Mcmp.Routines.WorkerDestroy
import Mcmp.Routines.WorkerDestroyFair
import Mcmp.Server.Broadcast
import Mcmp.Server.BroadcastRemoval
import Mcmp.Server.BroadcastFrame
import Mcmp.Server.Clients
import Mcmp.Server.ClientTable
import Mcmp.Server.Dispatch
import Mcmp.Server.Update
import Mcmp.Server.Dispatcher
import Mcmp.Server.Heartbeat
import Mcmp.Server.HeartbeatCall
import Mcmp.Server.Sockets
