import PgColumnar.Lib.Bytes
import PgColumnar.Encoding.BitStream
import PgColumnar.Encoding.Alp
import PgColumnar.Encoding.Dict
import PgColumnar.Encoding.Fsst
import PgColumnar.Encoding.Chunk
import PgColumnar.Write.Protocol
import PgColumnar.Cache.Transparent
import PgColumnar.Iceberg.PruneTime
import PgColumnar.Iceberg.Snapshot
import PgColumnar.Delete.Protocol
import PgColumnar.Delete.Serialize
import PgColumnar.Visibility.Safety
import PgColumnar.Rewrite.LiveRows
import PgColumnar.Retention.Exact
import PgColumnar.Compact.Unchanged
import PgColumnar.Scan.PredicateOrder
import PgColumnar.Zone.Range
import PgColumnar.Page.Flush
import PgColumnar.Sorted.Run
import PgColumnar.Sorted.ClaimedOrder
import PgColumnar.Extent.Sound
import PgColumnar.Parallel.Claims
import PgColumnar.Copy.Ranges
import PgColumnar.Copy.Partition
import PgColumnar.Scan.RuntimeFilter
import PgColumnar.Parquet.Skip
import PgColumnar.Agg.JoinFold
import PgColumnar.Parquet.Assemble
import PgColumnar.Fold.Batch
import PgColumnar.Group.Node
import PgColumnar.Copy.AllOrNothing
import PgColumnar.Export.Marker
import PgColumnar.Names.Denoted
import PgColumnar.Lib.Dirty
import PgColumnar.Unique.Probe
import PgColumnar.Unique.Present
import PgColumnar.Fetch.Agree
import PgColumnar.Parquet.Hybrid
import PgColumnar.Parquet.Snappy
import PgColumnar.Iceberg.Rebase
import PgColumnar.Iceberg.Puffin
import PgColumnar.Avro.File
import PgColumnar.Parquet.Footer
import PgColumnar.Tier.Misses
import PgColumnar.Agg.FloatAvg
import PgColumnar.Agg.Sketch
import PgColumnar.Keys.LikePrefix
import PgColumnar.Iceberg.RestPath
import PgColumnar.Scan.TidRange
import PgColumnar.Scan.AnalyzeSample
import PgColumnar.Alter.Rerecord
import PgColumnar.ObjStore.Session
import PgColumnar.Delete.FlushOrder
import PgColumnar.Zone.Bloom
import PgColumnar.Write.Pointers
import PgColumnar.Storage.Logical
