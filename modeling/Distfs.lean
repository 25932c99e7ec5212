import Distfs.Lib.Memory
import Distfs.Lib.CString
import Distfs.Lib.Recency
import Distfs.Lib.Bitmask
import Distfs.Lib.Transfer
import Distfs.Common.Basic
import Distfs.Common.LruCollector
import Distfs.Data.ChunkStore
import Distfs.Data.CompressedStore
import Distfs.Network.ChunkAvailability
import Distfs.Network.ChunkTransfer
import Distfs.Common.OrderedSet
import Distfs.Lib.Machine
import Distfs.Network.ConnectionPool
import Distfs.Network.PeerTable
import Distfs.Network.NodeIdentity
import Distfs.Data.ChunkBuilder
import Distfs.Lib.FlatFile
import Distfs.Data.BuilderRefinement
import Distfs.Lib.BinarySearch
import Distfs.Meta.SourceTree
import Distfs.Meta.MetafsBuilder
import Distfs.Meta.Image
import Distfs.Meta.MetaFileSystem
import Distfs.Meta.ScanDfs
import Distfs.Meta.Lookup
import Distfs.Data.ChunkProvider
import Distfs.Data.DataProvider
import Distfs.Meta.CreateChunks
import Distfs.Meta.QueueLoop
import Distfs.Meta.Built
import Distfs.Meta.ReadBack
import Distfs.Fuse.FileRead
import Distfs.Network.Exploration
import Distfs.Data.StoreRuns
import Distfs.Data.SharedProvider
import Distfs.Data.CacheEntries
import Distfs.Data.CacheRuns
import Distfs.Data.Refetch
import Distfs.Data.SharedStore
import Distfs.Data.Replay
import Distfs.Meta.Visits
import Distfs.Meta.BuildErrors
import Distfs.Data.BuilderProgress
import Distfs.Meta.Turns
import Distfs.Meta.Walk
import Distfs.Data.CompressedOps
import Distfs.Meta.Gapless
import Distfs.Network.DistfsMetadata
import Distfs.Lib.Dyadic
import Distfs.Network.FsId
import Distfs.Data.Restart
import Distfs.Meta.Stats
import Distfs.Meta.Symlinks
import Distfs.Meta.XattrNames
import Distfs.Meta.Xattrs
import Distfs.Meta.XattrValues
import Distfs.Fuse.Readdir
import Distfs.Data.FlatRead
import Distfs.Data.ReadRounds
import Distfs.Data.AllOrNothing
import Distfs.Data.AbandonedBuild
import Distfs.Common.LinkedSet
import Distfs.Common.CollectorRuns
import Distfs.Network.BadPeers
import Distfs.Lib.Largest
import Distfs.Network.Improvement
import Distfs.Meta.FindEntity
import Distfs.Lib.IndexedLoop
import Distfs.Meta.Reserved
import Distfs.Meta.Vanished
import Distfs.Meta.Published
import Distfs.Meta.NodeRecords
import Distfs.Lib.Session
import Distfs.Fuse.TreeFs
import Distfs.Fuse.Mounted
import Distfs.Fuse.MountedBuild
import Distfs.Data.FetchedRead
import Distfs.Network.DistfsService
import Distfs.Network.Replica
import Distfs.Network.Publication
import Distfs.Fuse.MountedRemote
import Distfs.Network.Swarm
import Distfs.Network.Mirror
import Distfs.Data.SharedReads
import Distfs.Data.ConcurrentReads
import Distfs.Network.Provenance
import Distfs.Network.Overlay
import Distfs.Network.SilentPeers
import Distfs.Data.Fitting
import Distfs.Meta.Kept
