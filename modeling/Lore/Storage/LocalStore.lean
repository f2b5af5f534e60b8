import Lore.Lib.Machine
import Lore.Storage.BucketRun
import Lore.Storage.Serve
import Mathlib.Logic.Function.Basic

/-!
# LocalStore — the local immutable store, in memory and on disk

The first byte of a hash picks one of 256 groups, the second a bucket of the group at its
level. A bucket is read from its file on first use, marked when it changes, and written
back by a flush; a group that outgrew its level is redistributed in memory and committed
to disk as a whole. A store that finds its files changed by another process drops what it
has in memory, which it does only where every change is flushed. An in-memory store is
one that is never flushed or reloaded.
-/

namespace Lore.Storage

open Lore.Lib

/-- A bucket of a group in memory: what it holds, whether it was read from its file, and
whether it holds a change no flush wrote. -/
structure BucketSlot where
  bucket : ImmutableStoreBucket
  deserialized : Bool
  dirty : Bool
deriving DecidableEq, Repr

/-- `ImmutableStoreGroup`: the level in memory and on disk, the buckets, and what each
bucket file holds, nothing where there is no file. -/
structure ImmutableStoreGroup where
  bucketCount : Nat
  committedLevel : Nat
  slot : Nat → BucketSlot
  file : Nat → ImmutableStoreBucket

/-- `ImmutableStoreBucket::default()`. -/
def BucketSlot.default : BucketSlot := ⟨.empty, false, false⟩

/-- A group nothing was written to. -/
def ImmutableStoreGroup.new (settings : ImmutableStoreSettings) : ImmutableStoreGroup :=
  ⟨settings.initialFanOutLevel, 0, fun _ => .default, fun _ => .empty⟩

/-- The scan of `clear_lost_payloads`, with the lengths the packfiles were opened at: an
entry that points past the end of its packfile loses its payload. -/
def clearLostPayloads (opened : List UInt32) (bucket : ImmutableStoreBucket) :
    ImmutableStoreBucket :=
  bucket.mapEntries fun e => e.mapData fun data =>
    if data.packFile = 0 then data
    else
      let length := (opened[data.packFile.toNat - 1]?).getD 0
      if data.packOffset.toNat + data.sizePayload.toNat > length.toNat then data.clearPayload
      else data

namespace ImmutableStoreGroup

variable (group : ImmutableStoreGroup)

/-- What a bucket file is read as, `lost` being the opened lengths where a packfile is
shorter than the file recorded. -/
def readFile (index : Nat) (lost : Option (List UInt32)) : ImmutableStoreBucket :=
  match lost with
  | some opened => clearLostPayloads opened (group.file index)
  | none => group.file index

/-- `deserialize`: a bucket read from its file, marked if it is not what the file holds or
the file is of an older version. -/
def deserialize (index : Nat) (lost : Option (List UInt32))
    (upgraded : Bool) : ImmutableStoreGroup :=
  let bucket := group.readFile index lost
  let dirty := (group.slot index).dirty || upgraded || bucket ≠ group.file index
  { group with slot := Function.update group.slot index ⟨bucket, true, dirty⟩ }

/-- A loaded bucket with new contents, marked if it changed. -/
def setBucket (index : Nat) (bucket : ImmutableStoreBucket) (marks : Bool) : ImmutableStoreGroup :=
  let before := group.slot index
  let changed : BucketSlot := ⟨bucket, true, before.dirty || (marks && bucket ≠ before.bucket)⟩
  { group with slot := Function.update group.slot index changed }

/-- The largest of the buckets that hold changes. -/
def largestDirty : Nat :=
  ((List.range group.bucketCount).map fun i =>
    if (group.slot i).dirty then (group.slot i).bucket.entry.length else 0).foldl max 0

/-- The level `maybe_fan_out_immutable_group` goes to, if it does. -/
def fanOutTarget (threshold : Nat) : Option Nat :=
  let n := group.bucketCount
  if n ≥ fanOutLevelMax then none
  else
    let bMax := group.largestDirty
    if bMax ≤ threshold then none
    else
      let target := levelFor n bMax threshold
      if target ≤ n then none else some target

/-- The redistribution of `maybe_fan_out_immutable_group`. A new bucket is marked only if
it holds an entry. -/
def fanOut (target : Nat) : ImmutableStoreGroup :=
  let old := (List.range group.bucketCount).map fun i => (group.slot i).bucket
  { group with
    bucketCount := target
    slot := fun i =>
      if i < target then
        let bucket := redistribute old target i
        ⟨bucket, true, (group.slot i).dirty || bucket.entry.length > 0⟩
      else group.slot i }

/-- A flush at the level on disk: one marked bucket to its file. -/
def flushBucket (index : Nat) : ImmutableStoreGroup :=
  let before := group.slot index
  { group with
    slot := Function.update group.slot index { before with dirty := false }
    file := Function.update group.file index before.bucket }

/-- A flush that commits the level in memory: the buckets that were on disk or are marked
are written, then the level. -/
def commit : ImmutableStoreGroup :=
  { group with
    committedLevel := group.bucketCount
    slot := fun i =>
      if i < group.bucketCount then { group.slot i with dirty := false } else group.slot i
    file := fun i =>
      if i < group.bucketCount ∧ (i < group.committedLevel ∨ (group.slot i).dirty) then
        (group.slot i).bucket
      else group.file i }

/-- `invalidate`: the group at the level on disk, with no bucket read. -/
def invalidate (settings : ImmutableStoreSettings) : ImmutableStoreGroup :=
  { group with
    bucketCount :=
      if group.committedLevel = 0 then settings.initialFanOutLevel else group.committedLevel
    slot := fun _ => .default }

end ImmutableStoreGroup

/-! ## Steps -/

/-- The hash an action on a bucket names. -/
def BucketAction.hash : BucketAction → Option Hash
  | .storeEntry _ address _ _ _ _ => some address.hash
  | .copy _ sourceAddress _ _ _ _ => some sourceAddress.hash
  | .tombstone _ address _ => some address.hash
  | .evictUpTo .. | .evictAccessedBy .. | .repoint .. | .stamp .. => none

/-- The action is one the store makes with its settings. -/
def BucketAction.fits (settings : ImmutableStoreSettings) : BucketAction → Bool
  | .evictUpTo _ protect => protect == settings.protectLocalFragment
  | .evictAccessedBy _ protect => protect == settings.protectLocalFragment
  | .stamp .. => settings.atime
  | _ => true

/-- The action marks the bucket it changes. A stamp left by a read does not. -/
def BucketAction.marks : BucketAction → Bool
  | .stamp .. => false
  | _ => true

/-- What changes a group. Every action on a bucket but `load` is on one that is loaded: the
operations load it first. -/
inductive GroupAction where
  | load (index : Nat) (lost : Option (List UInt32)) (upgraded : Bool)
  | onBucket (index : Nat) (action : BucketAction)
  | untombstone (partition : Partition) (address : Address) (original : ImmutableData)
  | healPayload (index : Nat) (hash : Hash) (failed : ImmutableData)
  | healFragment (hash : Hash) (failed : List ImmutableData)
  | fanOut
  | flushBucket (index : Nat)
  | commit
  | reload
deriving Repr

/-- The hash an action on a group names. -/
def GroupAction.hash : GroupAction → Option Hash
  | .onBucket _ action => action.hash
  | .untombstone _ address _ => some address.hash
  | .healPayload _ hash _ => some hash
  | .healFragment hash _ => some hash
  | .load .. | .fanOut | .flushBucket _ | .commit | .reload => none

/-- A bucket that an action may change: one of the level in memory, loaded, and the bucket
of the hash the action names. -/
def ImmutableStoreGroup.ready (group : ImmutableStoreGroup) (index : Nat) (hash : Option Hash) :
    Bool :=
  index < group.bucketCount && (group.slot index).deserialized
    && hash.all fun hash => bucketIndexFor hash group.bucketCount = index

/-- One step of a group, `none` where the action cannot happen. A failed write leaves files
and marks as they were and is no step; `verify` heals locations only; and what
`untombstone` gives back is the live data `tombstone` replaced. -/
def groupStep (settings : ImmutableStoreSettings) (group : ImmutableStoreGroup) :
    GroupAction → Option ImmutableStoreGroup
  | .load index lost upgraded =>
      if index < group.bucketCount ∧ (group.slot index).deserialized = false then
        some (group.deserialize index lost upgraded)
      else none
  | .onBucket index action =>
      if group.ready index action.hash ∧ action.fits settings then
        (bucketStep (group.slot index).bucket action).map fun bucket =>
          group.setBucket index bucket action.marks
      else none
  | .untombstone partition address original =>
      let index := bucketIndexFor address.hash group.bucketCount
      if group.ready index (some address.hash) ∧ original.isObliterated = false then
        some (group.setBucket index
          (untombstoneEntry (group.slot index).bucket partition address original) true)
      else none
  | .healPayload index hash failed =>
      if group.ready index (some hash) ∧ failed.packFile ≠ 0 then
        some (group.setBucket index (healPayload (group.slot index).bucket hash failed) true)
      else none
  | .healFragment hash failed =>
      let index := bucketIndexFor hash group.bucketCount
      if group.ready index (some hash) then
        some (group.setBucket index (healFragment (group.slot index).bucket hash failed) true)
      else none
  | .fanOut =>
      if ∀ i < group.bucketCount, (group.slot i).deserialized = true then
        (group.fanOutTarget settings.fanOutThreshold).map group.fanOut
      else none
  | .flushBucket index =>
      if group.ready index none ∧ group.committedLevel = group.bucketCount then
        some (group.flushBucket index)
      else none
  | .commit =>
      if group.committedLevel ≠ group.bucketCount then some group.commit else none
  | .reload =>
      if ∀ i < fanOutLevelMax, (group.slot i).dirty = false then
        some (group.invalidate settings)
      else none

/-- The local store: its groups by index. -/
abbrev LocalImmutableStore := Nat → ImmutableStoreGroup

/-- A new store. -/
def LocalImmutableStore.new (settings : ImmutableStoreSettings) : LocalImmutableStore :=
  fun _ => .new settings

/-- `GROUP_COUNT`. -/
def groupCount : Nat := 256

/-- The group of a hash. -/
def groupIndex (hash : Hash) : Nat := hashByte hash 0

/-- One step of the store, in one of its groups. -/
def storeStep (settings : ImmutableStoreSettings) (store : LocalImmutableStore)
    (step : Nat × GroupAction) : Option LocalImmutableStore :=
  let (index, action) := step
  if index < groupCount ∧ action.hash.all (fun hash => groupIndex hash = index) then
    (groupStep settings (store index) action).map (Function.update store index)
  else none

/-- The bucket a read of a hash finds: the one in memory, or what it reads from the file
first. -/
inductive ReadsFrom (store : LocalImmutableStore) (hash : Hash) : ImmutableStoreBucket → Prop where
  | loaded
      (h : ((store (groupIndex hash)).slot
        (bucketIndexFor hash (store (groupIndex hash)).bucketCount)).deserialized = true) :
      ReadsFrom store hash ((store (groupIndex hash)).slot
        (bucketIndexFor hash (store (groupIndex hash)).bucketCount)).bucket
  | file (lost : Option (List UInt32))
      (h : ((store (groupIndex hash)).slot
        (bucketIndexFor hash (store (groupIndex hash)).bucketCount)).deserialized = false) :
      ReadsFrom store hash ((store (groupIndex hash)).readFile
        (bucketIndexFor hash (store (groupIndex hash)).bucketCount) lost)

end Lore.Storage
