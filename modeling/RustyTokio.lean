import RustyTokio.Sync.RwLockQueue
import RustyTokio.Task.Fleet
import RustyTokio.Task.Containment
import RustyTokio.Reactor.Edge
import RustyTokio.Reactor.Connect
import RustyTokio.Reactor.Waiters
import RustyTokio.Sync.MpscWaiters
import RustyTokio.Sync.MpscClosure
import RustyTokio.Sync.SemaphoreCancel
import RustyTokio.Sync.SemaphorePermits
import RustyTokio.Sync.Exclusion
import RustyTokio.Sync.NotifyLedger
import RustyTokio.Runtime.ShutdownMissed
import RustyTokio.Sync.LatestWaker
import RustyTokio.Sync.OnceCellInit
import RustyTokio.Sync.Oneshot
import RustyTokio.Sync.BarrierRounds
import RustyTokio.Runtime.Blocking
import RustyTokio.Runtime.BlockOn
import RustyTokio.Runtime.HandOff
import RustyTokio.Task.LocalConfined
import RustyTokio.Task.Budget
import RustyTokio.Time.Orphans
import RustyTokio.Time.VirtualClock
import RustyTokio.Time.Advance
import RustyTokio.Fs.Reads
import RustyTokio.Io.Stdio
import RustyTokio.Process.Child
import RustyTokio.Signal.Delivery
import RustyTokio.Io.UringFile
import RustyTokio.Io.UringFds
import RustyTokio.Io.SimCrash
import RustyTokio.Io.SimHandles
import RustyTokio.Io.Simplex
import RustyTokio.Io.PhantomEof
import RustyTokio.Io.Lines
import RustyTokio.Io.Chain
import RustyTokio.Io.Copy
import RustyTokio.Time.Interval
import RustyTokio.Runtime.Ambient
import RustyTokio.Sync.WaitLists
import RustyTokio.Fs.ReadDir
import RustyTokio.Io.Flush
import RustyTokio.Task.LocalKey
import RustyTokio.Reactor.Registry
import RustyTokio.Task.JoinSet
import RustyTokio.Io.Typed
import RustyTokio.Io.SimSizes
import RustyTokio.Io.UringDrain
