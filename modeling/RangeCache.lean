import RangeCache.ChunkDecoding
import RangeCache.Recovery
import RangeCache.LogParsing
import RangeCache.ChunkSearch
import RangeCache.Compaction
import RangeCache.LogTiling
import RangeCache.FailedAppend
import RangeCache.PrefixKeys
import RangeCache.WriteCache
import RangeCache.Isolation
import RangeCache.TableRebuild
import RangeCache.MapAtomicity
import RangeCache.PrefixLookup
import RangeCache.NVMArena
import RangeCache.PersistentAllocator
import RangeCache.KeyRange
import RangeCache.CompactionQueue
import RangeCache.ChunkCursor
import RangeCache.Bookkeeping
import RangeCache.ConcurrentNVMArena
import RangeCache.PutVariants
import RangeCache.BucketIndex
import RangeCache.KeyRangeCodec
import RangeCache.PersistentHashMap
import RangeCache.ArenaMirrors
import RangeCache.ThreadSafety
import RangeCache.ArenaReaders
import RangeCache.CacheStore
import RangeCache.DurableLog
import RangeCache.DurableMaps
import RangeCache.IndexRecovery
import RangeCache.PutBatches
