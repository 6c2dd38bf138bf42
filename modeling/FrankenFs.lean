import FrankenFs.Lib.OrdMap
import FrankenFs.Lib.Spans
import FrankenFs.Lib.VersionLog
import FrankenFs.Lib.SerialGraph
import FrankenFs.Lib.Wire
import FrankenFs.Lib.WordSet
import FrankenFs.Lib.Crc32c
import FrankenFs.Lib.Outcome
import FrankenFs.Lib.Threads
import FrankenFs.Lib.ShortReads
import FrankenFs.Mvcc.Types
import FrankenFs.Mvcc.Compression
import FrankenFs.Mvcc.Chain
import FrankenFs.Mvcc.Merge
import FrankenFs.Mvcc.Transaction
import FrankenFs.Mvcc.MergeChanges
import FrankenFs.Mvcc.MergeSoundness
import FrankenFs.Mvcc.MergeAccumulation
import FrankenFs.Mvcc.Policy
import FrankenFs.Mvcc.Store
import FrankenFs.Mvcc.StoreSpec
import FrankenFs.Mvcc.Ssi
import FrankenFs.Mvcc.History
import FrankenFs.Mvcc.SnapshotAgeing
import FrankenFs.Mvcc.Flush
import FrankenFs.Mvcc.DeviceHistory
import FrankenFs.Mvcc.Journaled
import FrankenFs.Mvcc.RangedReads
import FrankenFs.Mvcc.LostUpdate
import FrankenFs.Mvcc.Serializability
import FrankenFs.Mvcc.MergeOrder
import FrankenFs.Mvcc.Sharded
import FrankenFs.Mvcc.ShardedRuns
import FrankenFs.Mvcc.Publication
import FrankenFs.Mvcc.Pruning
import FrankenFs.Mvcc.Wal
import FrankenFs.Mvcc.WalReplay
import FrankenFs.Mvcc.WalCodec
import FrankenFs.Mvcc.TornTail
import FrankenFs.Mvcc.WalStream
import FrankenFs.Mvcc.Checkpoint
import FrankenFs.Mvcc.Persist
import FrankenFs.Mvcc.Recovery
import FrankenFs.Mvcc.StoreInvariant
import FrankenFs.Mvcc.StoreRuns
import FrankenFs.Mvcc.CheckpointRoundTrip
import FrankenFs.Mvcc.Rollback
import FrankenFs.Journal.Format
import FrankenFs.Journal.Device
import FrankenFs.Journal.Writer
import FrankenFs.Alloc.Geometry
import FrankenFs.Alloc.ReservedCaches
import FrankenFs.Lib.XorLinear
import FrankenFs.Lib.ZeroByte
import FrankenFs.Checksum.Incremental
import FrankenFs.Checksum.ZeroTail
import FrankenFs.Alloc.BitmapChecksum
import FrankenFs.Mvcc.FlushWalk
import FrankenFs.Mvcc.FlushVariants
import FrankenFs.Dir.Block
import FrankenFs.Dir.Fused
import FrankenFs.Dir.Records
import FrankenFs.Dir.Scans
import FrankenFs.Dir.Reuse
import FrankenFs.Dir.FiniteMap
import FrankenFs.Dir.Checksum
import FrankenFs.Dir.Parsers
import FrankenFs.Journal.FastCommit
import FrankenFs.Journal.FastCommitSeals
import FrankenFs.Journal.NativeCow
import FrankenFs.Journal.NativeCowRuns
import FrankenFs.Journal.Admission
import FrankenFs.Lib.CyclicField
import FrankenFs.Lib.GaussJordan
import FrankenFs.Lib.SymbolSums
import FrankenFs.Repair.Gf256
import FrankenFs.Repair.Lrc
import FrankenFs.Repair.LrcSpec
import FrankenFs.Lib.Striping
import FrankenFs.Btrfs.Chunks
import FrankenFs.Btrfs.ChunksSpec
import FrankenFs.Btrfs.Raid56
import FrankenFs.Btrfs.Raid56Field
import FrankenFs.Btrfs.Raid56Spec
import FrankenFs.Btrfs.CowTree
import FrankenFs.Btrfs.Leaf
import FrankenFs.Lib.Postorder
import FrankenFs.Btrfs.Writeback
import FrankenFs.Btrfs.WritebackSpec
import FrankenFs.Btrfs.DelayedRefs
import FrankenFs.Zfs.Raidz
import FrankenFs.Zfs.RaidzSpec
import FrankenFs.Zfs.SpaceMap
import FrankenFs.Zfs.SpaceMapRecords
import FrankenFs.Zfs.IntentLog
import FrankenFs.Zfs.LogPointer
import FrankenFs.Zfs.IntentScan
import FrankenFs.Btrfs.DataChecksums
import FrankenFs.Block.Volume
import FrankenFs.Block.VolumeSpec
import FrankenFs.Inode.Timestamps
