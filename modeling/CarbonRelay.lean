import CarbonRelay.Aggregator.NearestRank
import CarbonRelay.Aggregator.ScanBounds
import CarbonRelay.Aggregator.StoredValues
import CarbonRelay.Cluster.Transplant
import CarbonRelay.Collector.Cycle
import CarbonRelay.ConsistentHash.JumpOrder
import CarbonRelay.ConsistentHash.SearchReads
import CarbonRelay.ConsistentHash.Stability
import CarbonRelay.Dispatcher.Accounting
import CarbonRelay.Dispatcher.Fields
import CarbonRelay.Dispatcher.Idempotence
import CarbonRelay.Dispatcher.ListenerMatch
import CarbonRelay.Dispatcher.MetricBuffer
import CarbonRelay.Dispatcher.Ownership
import CarbonRelay.Dispatcher.Stalling
import CarbonRelay.Router.Address
import CarbonRelay.Router.FastPath
import CarbonRelay.Router.Include
import CarbonRelay.Router.Isolation
import CarbonRelay.Router.Preservation
import CarbonRelay.Router.Quoteident
import CarbonRelay.Router.Records
import CarbonRelay.Router.Skipping
import CarbonRelay.Router.TailScan
import CarbonRelay.Router.Tokens
import CarbonRelay.Server.Failover
import CarbonRelay.Server.Gzip
import CarbonRelay.Server.Idle
import CarbonRelay.Server.Offload
import CarbonRelay.Server.Reconnect
import CarbonRelay.Server.Shutdown
import CarbonRelay.Server.Requeue
import CarbonRelay.Server.SentCount
import CarbonRelay.Server.Thresholds
import CarbonRelay.Dispatcher.Decompress
import CarbonRelay.Allocator.Regions
import CarbonRelay.Dispatcher.GzipInput
