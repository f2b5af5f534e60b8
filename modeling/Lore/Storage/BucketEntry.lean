import Lore.Lib.Layout
import Lore.Storage.Fragment

/-!
# BucketEntry — the index entries of the local store

A bucket holds its entries in the order they were added, and a sorted index over them.
An entry associates an address in a partition with the fragment's header and with the
payload's place in a packfile, packfile 0 standing for no payload.
-/

namespace Lore.Storage

open Lore.Lib

/-- `ImmutableData`: the header of a stored fragment and where its payload is. -/
@[ext]
structure ImmutableData where
  flags : BitVec 32
  sizePayload : UInt32
  sizeContent : UInt64
  packOffset : UInt32
  packFile : UInt32
  lastAccess : UInt64
deriving DecidableEq, Repr

/-- `ImmutableData::default()`. -/
def ImmutableData.default : ImmutableData := ⟨0#32, 0, 0, 0, 0, 0⟩

/-- `ImmutableStoreEntry`. -/
structure ImmutableStoreEntry where
  address : Address
  partition : Partition
  data : ImmutableData
deriving DecidableEq, Repr

/-- `ImmutableDataBeforeLastAccess`. -/
structure ImmutableDataBeforeLastAccess where
  flags : BitVec 32
  sizePayload : UInt32
  sizeContent : UInt64
  packOffset : UInt32
  packFile : UInt32
deriving DecidableEq, Repr

/-- `ImmutableStoreEntryBeforeLastAccess`: the entry of the versions before
`LastAccessInEntry`. -/
structure ImmutableStoreEntryBeforeLastAccess where
  address : Address
  partition : Partition
  data : ImmutableDataBeforeLastAccess
deriving DecidableEq, Repr

/-- `PackfileSize`: a packfile's id and the bytes reserved in it. -/
structure PackfileSize where
  id : UInt32
  size : UInt32
deriving DecidableEq, Repr

/-! ## Their bytes -/

/-- A 4-byte field kept as flags. -/
def flagsLayout : Layout (BitVec 32) := .record .u32 UInt32.toBitVec UInt32.ofBitVec fun _ => rfl

def addressLayout : Layout Address :=
  .record (.pair (.bytes 32) (.bytes 16)) (fun f => ⟨f.1, f.2⟩)
    (fun a => (a.hash, a.context)) fun _ => rfl

def dataLayout : Layout ImmutableData :=
  .record (.pair flagsLayout (.pair .u32 (.pair .u64 (.pair .u32 (.pair .u32 .u64)))))
    (fun f => ⟨f.1, f.2.1, f.2.2.1, f.2.2.2.1, f.2.2.2.2.1, f.2.2.2.2.2⟩)
    (fun d => (d.flags, d.sizePayload, d.sizeContent, d.packOffset, d.packFile, d.lastAccess))
    fun _ => rfl

def entryLayout : Layout ImmutableStoreEntry :=
  .record (.pair addressLayout (.pair (.bytes 16) dataLayout)) (fun f => ⟨f.1, f.2.1, f.2.2⟩)
    (fun e => (e.address, e.partition, e.data)) fun _ => rfl

def dataBeforeLastAccessLayout : Layout ImmutableDataBeforeLastAccess :=
  .record (.pair flagsLayout (.pair .u32 (.pair .u64 (.pair .u32 .u32))))
    (fun f => ⟨f.1, f.2.1, f.2.2.1, f.2.2.2.1, f.2.2.2.2⟩)
    (fun d => (d.flags, d.sizePayload, d.sizeContent, d.packOffset, d.packFile)) fun _ => rfl

def entryBeforeLastAccessLayout : Layout ImmutableStoreEntryBeforeLastAccess :=
  .record (.pair addressLayout (.pair (.bytes 16) dataBeforeLastAccessLayout))
    (fun f => ⟨f.1, f.2.1, f.2.2⟩) (fun e => (e.address, e.partition, e.data)) fun _ => rfl

def packfileSizeLayout : Layout PackfileSize :=
  .record (.pair .u32 .u32) (fun f => ⟨f.1, f.2⟩) (fun s => (s.id, s.size)) fun _ => rfl

theorem packfileSizeLayout_size : packfileSizeLayout.size = 8 := rfl

end Lore.Storage
