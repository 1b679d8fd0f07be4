import Logwise.Facade.Lockstep
import Logwise.Facade.OneDispatcher
import Logwise.Legacy.ApplyContext
import Logwise.Legacy.ContextPop
import Logwise.Legacy.PeriodicDrain
import Logwise.Legacy.Posting
import Logwise.Legacy.Reports
import Logwise.Legacy.Statistics
import Logwise.Legacy.Timeliness
import Logwise.Legacy.WatcherLoop
import Logwise.Log.Imports
import Logwise.Proc.Meaning
import Logwise.Proc.MessagePrograms
import Logwise.Proc.ProfileAttr
import Logwise.Runtime.Ancestry
import Logwise.Runtime.CacheRace
import Logwise.Runtime.CompletedSpans
import Logwise.Runtime.Evaluation
import Logwise.Runtime.Gating
import Logwise.Runtime.Isolation
import Logwise.Runtime.Spinlock
import Logwise.Runtime.SpinlockObject
import Logwise.Sinks.Async.Failures
import Logwise.Sinks.Async.Flushing
import Logwise.Sinks.Async.Progress
import Logwise.Sinks.Async.Protection
import Logwise.Sinks.Async.Wakeup
import Logwise.Sinks.BoundedLog
import Logwise.Sinks.FlightRecorder.Omissions
import Logwise.Sinks.FlightRecorder.Retained
import Logwise.Sinks.FlightRecorder.Tail
import Logwise.Sinks.Retention
import Logwise.Tracing.Entered
import Logwise.Wire.Capacity
import Logwise.Wire.Prefix
import Logwise.Wire.Secrets
import Logwise.Wire.Transport
import Logwise.Wire.Truncation
