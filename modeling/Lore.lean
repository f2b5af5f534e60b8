import Lore.Lib.Span
import Lore.Lib.Producer
import Lore.Lib.ByteNumber
import Lore.Storage.Fragment
import Lore.Storage.Load
import Lore.Storage.Walk
import Lore.Storage.Level
import Lore.Storage.WalkTiling
import Lore.Storage.Read
import Lore.Storage.ReadSpec
import Lore.Storage.Agreement
import Lore.Storage.Write
import Lore.Storage.Tree
import Lore.Storage.TreeStream
import Lore.Storage.WriteSpec
import Lore.Storage.RoundTrip
import Lore.Storage.Chunker
import Lore.Storage.ChunkerSpec
import Lore.Storage.WindowCut
import Lore.Storage.FileMatch
import Lore.Storage.FileMatchSpec
import Lore.Storage.FileMatchExact
import Lore.Lib.Machine
import Lore.Storage.InFlight
import Lore.Lib.Layout
import Lore.Storage.BucketEntry
import Lore.Storage.BucketFile
import Lore.Storage.BucketFileSpec
import Lore.Lib.Indexed
import Lore.Storage.Lookup
import Lore.Storage.StoreEntry
import Lore.Storage.BucketOps
import Lore.Storage.BucketSpec
import Lore.Storage.StoreEntrySpec
import Lore.Storage.Sharing
import Lore.Storage.BucketOpsSpec
import Lore.Storage.EvictSpec
import Lore.Storage.BucketRun
import Lore.Storage.Serve
import Lore.Storage.CopySpec
import Lore.Storage.Evolves
import Lore.Storage.FanOut
import Lore.Storage.LocalStore
import Lore.Storage.LocalStoreSpec
import Lore.Storage.Obliterated
import Lore.Storage.Isolation
import Lore.Storage.Erasure
import Lore.Lib.Disk
import Lore.Storage.PackStore
import Lore.Storage.PackRanges
import Lore.Storage.PackSettled
import Lore.Storage.PackSynced
import Lore.Lib.Chain
import Lore.Revision.History
import Lore.Revision.HistorySpec
import Lore.Revision.BranchPoint
import Lore.Lib.MergeJoin
import Lore.Lib.TaskPool
import Lore.Revision.Tree
import Lore.Revision.Change
import Lore.Revision.Diff
import Lore.Revision.DiffSpec
import Lore.Revision.DiffExact
import Lore.Storage.LockSystem
import Lore.Storage.StoreLock
import Lore.Storage.LockCounts
import Lore.Storage.LockNesting
import Lore.Commit.Digest
import Lore.Commit.Rehash
import Lore.Commit.RehashSpec
import Lore.Commit.Edited
import Lore.Commit.Faithful
import Lore.State.Save
import Lore.State.SaveRegistered
import Lore.State.SaveImages
import Lore.State.SaveKeeps
import Lore.State.SaveQuiet
import Lore.State.SlotList
import Lore.State.Slots
import Lore.State.SlotOwned
import Lore.State.SlotChain
import Lore.State.SlotThread
import Lore.State.SlotAllocator
import Lore.State.DirtyClosed
import Lore.State.DirtyMarks
import Lore.Storage.PackChanges
import Lore.Push.BranchPush
import Lore.Push.HeadMoves
import Lore.Merge.Carry
import Lore.Merge.CarryKept
import Lore.Push.Offers
import Lore.Push.Numbers
import Lore.Push.Line
import Lore.Server.ResourceLocks
import Lore.Push.Names
import Lore.Server.Authorizer
import Lore.Server.Sessions
import Lore.Storage.CompositeStore
import Lore.Storage.PutCheck
import Lore.Lib.Gather
import Lore.Storage.BucketSearch
import Lore.Storage.Eviction
import Lore.Util.PathAncestors
import Lore.State.CycleGuard
import Lore.Storage.PackBytes
