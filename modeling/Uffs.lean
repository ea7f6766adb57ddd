import Uffs.Mft.OffsetPlan
import Uffs.Mft.ReadPlan
import Uffs.Compact.PostingLoops
import Uffs.Usn.OrderApplied
import Uffs.Usn.Overlap
import Uffs.Cache.Bounds
import Uffs.Search.RegexFold
import Uffs.Search.PrefixScan
import Uffs.Search.ProxyKeys
import Uffs.Daemon.Parked
import Uffs.Daemon.Wrap
import Uffs.Daemon.IdleTick
import Uffs.Daemon.ForgetRun
import Uffs.Daemon.AggregateCache
import Uffs.Update.Aborted
import Uffs.Usn.SnapshotDiff
import Uffs.Aggregate.Timestamps
import Uffs.Daemon.DuplicateReport
import Uffs.Broker.Protocol
import Uffs.Client.ShmemTrip
import Uffs.Mft.RawSafe
import Uffs.Mft.SplitStreamMft
import Uffs.Daemon.AttrSpec
import Uffs.Daemon.PredicateRows
import Uffs.Compact.Malformed
import Uffs.Search.PathOnlyWalk
import Uffs.Mft.PathAgree
import Uffs.Text.FoldOrder
