import PhpExts.Igbinary.Bounds
import PhpExts.Igbinary.References
import PhpExts.Igbinary.HashSi
import PhpExts.Msgpack.RoundTrip
import PhpExts.Apcu.Insert
import PhpExts.Apcu.SlamDefense
import PhpExts.Apcu.KeyMatch
import PhpExts.Apcu.Staleness
import PhpExts.Apcu.PoolAllocator
import PhpExts.Apcu.References
import PhpExts.Swoole.TableDeletion
import PhpExts.Swoole.RowLock
import PhpExts.Swoole.WriteReturns
import PhpExts.Swoole.RingBuffer
import PhpExts.Swoole.Channel
import PhpExts.Swoole.WebSocketDispatch
import PhpExts.Swoole.EofProtocol
import PhpExts.Swoole.TimerWakeup
import PhpExts.Swoole.TimeWheelRuns
import PhpExts.Apcu.CopyGraph
import PhpExts.Apcu.SmaRealloc
import PhpExts.Apcu.LockDiscipline
import PhpExts.Apcu.LastStored
import PhpExts.XCache.Namespace
import PhpExts.XCache.VarCache
import PhpExts.XCache.PhpRuns
import PhpExts.XCache.PathConstants
import PhpExts.XCache.HitCounters
import PhpExts.XCache.BestfitCopies
import PhpExts.XCache.BasicBlocks
import PhpExts.XCache.OptimizerRuns
import PhpExts.XCache.Relocation
import PhpExts.Phalcon.AclUpdates
import PhpExts.Phalcon.Crypt
import PhpExts.Redis.ClusterExec
import PhpExts.Redis.RedirectionLine
import PhpExts.Redis.ClusterMap
import PhpExts.Redis.HashSlot
import PhpExts.Redis.NodeRange
import PhpExts.Redis.ClientList
import PhpExts.Redis.ValuePacking
import PhpExts.Redis.ArrayMset
import PhpExts.Redis.ClusterMultiBulk
import PhpExts.Redis.ArrayRehash
import PhpExts.Swoole.HttpProtocol
import PhpExts.Swoole.SerializeBounds
import PhpExts.Swoole.SerializeBuffer
import PhpExts.Swoole.HashMap
import PhpExts.Swoole.MysqlChunks
import PhpExts.Swoole.MysqlHandshake
import PhpExts.Swoole.PackageDispatch
import PhpExts.XCache.ProcessorCounts
import PhpExts.Swoole.Mqtt
import PhpExts.Msgpack.SlotTable
import PhpExts.XCache.SandboxErrors
import PhpExts.Swoole.Utf8
import PhpExts.Swoole.DynamicString
import PhpExts.Apcu.Expunge
import PhpExts.Msgpack.Canonical
import PhpExts.Swoole.Base64
import PhpExts.Swoole.FixedPool
import PhpExts.Swoole.ThreadPool
