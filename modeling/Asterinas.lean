import Asterinas.Epoll.Delivery
import Asterinas.Epoll.Readiness
import Asterinas.Ext2.Accounting
import Asterinas.FrameAllocator.SplitChunks
import Asterinas.Ipc.SemaphoreCorrectness
import Asterinas.Mlsdisk.ChunkJournal
import Asterinas.Mlsdisk.CryptoLogRun
import Asterinas.Mlsdisk.FailingRead
import Asterinas.Mlsdisk.MemTableVersions
import Asterinas.Mlsdisk.RecoveryRun
import Asterinas.Mlsdisk.SnapshotNonces
import Asterinas.PageCache.FlushCorrectness
import Asterinas.PageCache.LostUpdate
import Asterinas.PageTable.LargestPages
import Asterinas.Process.FutexInterleaving
import Asterinas.Process.FutexRequeue
import Asterinas.Process.SecureBitsCorrectness
import Asterinas.X86.PageTableEntry
import Asterinas.Sched.Fair
import Asterinas.Sched.RealTime
import Asterinas.Sync.RwLock
import Asterinas.Vfs.CacheCorrectness
import Asterinas.Vfs.LockOrder
import Asterinas.Vmar.ReverseMaps
import Asterinas.Vmar.Rlimit
import Asterinas.Vmar.View
import Asterinas.Vsock.ConnectionRun
import Asterinas.Vsock.CreditCorrectness
