import Bthread.Timeouts
import Bthread.Published
import Bthread.Pthreads
import Bthread.Deliveries
import Bthread.Interruptions
import Bthread.Marks
import Bthread.Visibility
import Bthread.Reliability
import Bthread.Concurrency
import Bthread.Groups
import Bthread.Isolation
import Bthread.Sizing
import Bthread.Endings
import Bthread.Listing
import Bthread.Stealing
import Bthread.Wakers
import Bthread.Flushes
import Bthread.SignalCount
import Bthread.Dispatch
import Bthread.Halting
import Bthread.Queries
import Bthread.Accounting
import Bthread.Lifetimes
import Bthread.Freshness
import Bthread.Joins
import Bthread.InOrder
import Bthread.Coroutines
import Bthread.Recycling
import Bthread.Singletons
import Bthread.Exclusion
