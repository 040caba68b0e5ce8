import DistQueue.Lib.Runs
import DistQueue.Lib.Tally
import DistQueue.Lib.Condvar
import DistQueue.Lib.Turns
import DistQueue.Proto.Stream
import DistQueue.Proto.Bounds
import DistQueue.Proto.Interrupts
import DistQueue.Server.QueueSpec
import DistQueue.Server.NoLoss
import DistQueue.Server.Unsubmit
import DistQueue.Server.FailedDispatch
import DistQueue.Server.Fifo
import DistQueue.Server.Retention
import DistQueue.Server.OwnBytes
import DistQueue.Server.QueueFlag
import DistQueue.Server.Turns
import DistQueue.Server.Whereabouts
import DistQueue.Server.Removal
import DistQueue.Server.IndexWrap
import DistQueue.Server.Eviction
import DistQueue.Server.HistoryAccess
import DistQueue.Exec.Args
import DistQueue.Exec.Kind
import DistQueue.Exec.Paths
import DistQueue.Exec.Progress
import DistQueue.Server.LiveIds
import DistQueue.Server.Lifecycle
import DistQueue.Server.Blanks
import DistQueue.Server.Shutdown
import DistQueue.Client.Typed
import DistQueue.Client.Session
import DistQueue.Cluster.Reports
import DistQueue.Cluster.Typed
import DistQueue.Client.Interaction
import DistQueue.Menu.Jobs
import DistQueue.Menu.Console
import DistQueue.Menu.Client
