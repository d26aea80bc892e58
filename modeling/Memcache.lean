import Memcache.Cache.Accounting
import Memcache.Cache.Tracked
import Memcache.Cache.Shedders
import Memcache.Cache.Racing
import Memcache.Cache.Overlay
import Memcache.Cache.Insert
import Memcache.Cache.Overtaken
import Memcache.Cache.BulkLoad
import Memcache.Cache.Guarded
import Memcache.Cache.Queued
import Memcache.Cache.ShardBound
import Memcache.Policy.Scans
import Memcache.Policy.Fresh
import Memcache.Policy.ArcBounds
import Memcache.Policy.S3Runs
import Memcache.Time.Deadlines
import Memcache.Time.Refresh
import Memcache.Time.Sliding
import Memcache.Time.Promoted
import Memcache.Cache.Waiters
import Memcache.Store.Increments
import Memcache.Store.Removals
import Memcache.Tiered.Written
import Memcache.Events.Closed
import Memcache.Snapshot.Roundtrip
import Memcache.Snapshot.Sealed
import Memcache.Cache.FlatMap
import Memcache.Policy.Sketch
import Memcache.Snapshot.Filter
import Memcache.Cache.Hasher
import Memcache.Stats.Histogram
import Memcache.Cache.KeyLocks
import Memcache.Cache.Shut
