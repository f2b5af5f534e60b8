import Lore.Storage.StoreEntry

/-!
# BucketOps — what else changes a bucket

Copying an association, obliterating one, the two evictions, the re-pointing of moved
payloads by compaction, healing, and the stamp a lookup leaves. Each runs under the
bucket's lock, so each is one step.
-/

namespace Lore.Storage

open Lore.Lib

/-- An entry with its data changed. -/
def ImmutableStoreEntry.mapData (e : ImmutableStoreEntry) (f : ImmutableData → ImmutableData) :
    ImmutableStoreEntry := { e with data := f e.data }

/-! ## Copy -/

/-- `merge_from_copy_source`. -/
def ImmutableData.mergeFromCopySource (data source : ImmutableData) (durable : Bool) :
    ImmutableData :=
  let data := { data with sizeContent := source.sizeContent }
  let data := data.assignDeduplicatedPayload source
  if durable then { data with flags := data.flags ||| FragmentFlags.payloadStoredDurable }
  else data

variable (bucket : ImmutableStoreBucket)

/-- `in_partition_run`, of a slot that may be past the end. -/
def inPartitionRun (partition : Partition) (hash : Hash) (slot : Nat) : Bool :=
  match bucket.at? slot with
  | some e => e.address.hash = hash ∧ e.partition = partition
  | none => false

/-- `is_copy_source`: whether the slot is the source to read from, with the slot remembered
as the fallback. -/
def isCopySource (slot : Nat) (representationOnly : Option Nat) : Bool × Option Nat :=
  match bucket.at? slot with
  | none => (false, representationOnly)
  | some e =>
    if e.data.isObliterated then (false, representationOnly)
    else if e.data.packFile ≠ 0 then (true, representationOnly)
    else (false, representationOnly.or (some slot))

/-- One side of a round of the walk: the slot to read from, or the next slot of this side
and the fallback. -/
def walkSide (next : Nat → Option Nat)
    (slot representationOnly : Option Nat) : Except Nat (Option Nat × Option Nat) :=
  match slot with
  | none => .ok (none, representationOnly)
  | some slot =>
    let (isSource, representationOnly) := isCopySource bucket slot representationOnly
    if isSource then .error slot else .ok (next slot, representationOnly)

/-- The slot before, in the partition's run. -/
def runBefore (partition : Partition) (hash : Hash) (slot : Nat) : Option Nat :=
  if 0 < slot ∧ inPartitionRun bucket partition hash (slot - 1) then some (slot - 1) else none

/-- The slot after, in the partition's run. -/
def runAfter (partition : Partition) (hash : Hash) (slot : Nat) : Option Nat :=
  if inPartitionRun bucket partition hash (slot + 1) then some (slot + 1) else none

/-- The walk outwards over the partition's run, one step back and one forward a round.
The fuel bounds the rounds. -/
def copySourceWalk (bucket : ImmutableStoreBucket) (partition : Partition) (hash : Hash) :
    (fuel : Nat) → (back forward representationOnly : Option Nat) → Option Nat
  | 0, _, _, representationOnly => representationOnly
  | fuel + 1, back, forward, representationOnly =>
    if back.isNone ∧ forward.isNone then representationOnly
    else
      match walkSide bucket (runBefore bucket partition hash) back representationOnly with
      | .error slot => some slot
      | .ok (back, representationOnly) =>
        match walkSide bucket (runAfter bucket partition hash) forward representationOnly with
        | .error slot => some slot
        | .ok (forward, representationOnly) =>
          copySourceWalk bucket partition hash fuel back forward representationOnly

/-- `copy_source_slot`. -/
def copySourceSlot (partition : Partition) (address : Address) : Option Nat :=
  if address.context ≠ 0 then
    let (slot, _, matching) := lookup bucket partition address .matchFull
    if matching = .matchFull ∧ ((bucket.at? slot).map (·.data.isObliterated)) = some false then
      some slot
    else none
  else
    let (anchor, _, matching) := lookup bucket partition address .matchPartition
    if matching < .matchPartition then none
    else
      copySourceWalk bucket partition address.hash (bucket.entry.length + 1) (some anchor)
        (runAfter bucket partition address.hash anchor) none

/-- `copy`: the destination takes the source's payload and representation. -/
def copyEntry (sourcePartition : Partition)
    (sourceAddress : Address) (destinationPartition : Partition)
    (destinationContext : Context) (durable : Bool) (now : UInt64) :
    Except BucketError ImmutableStoreBucket :=
  let destinationAddress : Address := ⟨sourceAddress.hash, destinationContext⟩
  match (copySourceSlot bucket sourcePartition sourceAddress).bind bucket.at? with
  | none => .error (.addressNotFound sourceAddress)
  | some source =>
    let (destSlot, insertSlot, destMatch) :=
      lookup bucket destinationPartition destinationAddress .matchFull
    if destMatch = .matchFull then
      .ok (bucket.modifyAt destSlot fun e => e.mapData fun before =>
        let data := before.mergeFromCopySource source.data durable
        if data ≠ before then { data with lastAccess := now } else data)
    else
      let data := ImmutableData.default.mergeFromCopySource source.data durable
      .ok (bucket.insertAt insertSlot
        ⟨destinationAddress, destinationPartition, { data with lastAccess := now }⟩)

/-! ## Obliterate -/

/-- `Tombstone`: what `tombstone` did with an entry. -/
inductive Tombstone where
  | already
  | kept
  | zero (original : ImmutableData)
  | zeroOnceCompactionStops
deriving DecidableEq, Repr

/-- No other entry of the hash is anything but a tombstone, scanning the run of the hash
in both directions from the matched slot. -/
def isLastFragment (matchSlot : Nat) (hash : Hash) : Bool :=
  let live := fun e : ImmutableStoreEntry => e.data.flags ≠ FragmentFlags.payloadObliterated
  let ofHash := fun e : ImmutableStoreEntry => decide (e.address.hash = hash)
  let previous := ((bucket.slots.take matchSlot).reverse.takeWhile ofHash).any live
  let next := ((bucket.slots.drop (matchSlot + 1)).takeWhile ofHash).any live
  !previous && !next

/-- `tombstone`. -/
def tombstoneEntry (partition : Partition) (address : Address)
    (compactionStopped : Bool) : Except BucketError (Tombstone × ImmutableStoreBucket) :=
  let (matchSlot, _, made) := lookup bucket partition address .matchFull
  match if made = .matchFull then bucket.at? matchSlot else none with
  | none => .error (.addressNotFound address)
  | some e =>
    if e.data.isObliterated then .ok (.already, bucket)
    else
      let zero := isLastFragment bucket matchSlot address.hash && e.data.packFile ≠ 0
      if zero && !compactionStopped then .ok (.zeroOnceCompactionStops, bucket)
      else
        .ok (if zero then .zero e.data else .kept,
          bucket.modifyAt matchSlot fun e => e.mapData fun _ => .tombstone)

/-- `untombstone`: the entry given back, if it is still the tombstone that replaced it. -/
def untombstoneEntry (partition : Partition)
    (address : Address) (original : ImmutableData) : ImmutableStoreBucket :=
  let (slot, _, matched) := lookup bucket partition address .matchFull
  if matched ≠ .matchFull then bucket
  else
    bucket.modifyAt slot fun e => e.mapData fun data =>
      if data.flags = FragmentFlags.payloadObliterated ∧ data.packFile = 0 then original
      else data

/-! ## Eviction -/

/-- `evictable`. -/
def evictable (data : ImmutableData) (protectLocalFragment : Bool) : Bool :=
  !protectLocalFragment || data.flags &&& FragmentFlags.payloadStoredDurable != 0#32

/-- The last access up to which entries go: the greatest of the `toEvict` smallest of the
entries that can. -/
def evictionCutoffPoint (entries : List ImmutableStoreEntry) (toEvict : Nat)
    (protectLocalFragment : Bool) : Option UInt64 :=
  let keys := (entries.filter fun e => evictable e.data protectLocalFragment).map
    (·.data.lastAccess)
  ((keys.mergeSort (· ≤ ·)).take toEvict).getLast?

/-- The second half of `evict_oldest_bucket`, under the write lock: the cutoff was found
under the read lock, and the bucket may have changed since. -/
def evictUpTo (cutoff : UInt64) (protectLocalFragment : Bool) : ImmutableStoreBucket :=
  .ofList (bucket.slots.filter fun e =>
    !(evictable e.data protectLocalFragment && e.data.lastAccess ≤ cutoff))

/-- `evict_oldest_bucket` of a bucket nothing else changes. -/
def evictOldestBucket (targetCapacity : Nat) (protectLocalFragment : Bool) : ImmutableStoreBucket :=
  let toEvict := bucket.entry.length - targetCapacity
  if toEvict = 0 then bucket
  else
    match evictionCutoffPoint bucket.entry toEvict protectLocalFragment with
    | none => bucket
    | some cutoff => evictUpTo bucket cutoff protectLocalFragment

/-- `BucketPayload`: a payload of a bucket. -/
structure BucketPayload where
  hash : Hash
  packFile : UInt32
  packOffset : UInt32
  size : UInt32
  evictable : Bool
  lastAccess : UInt64
deriving DecidableEq, Repr

/-- Merges an entry holding a payload into the payloads gathered of its hash. -/
def gatherPayload (protectLocalFragment : Bool) (e : ImmutableStoreEntry) :
    List BucketPayload → List BucketPayload
  | [] => [⟨e.address.hash, e.data.packFile, e.data.packOffset, e.data.sizePayload,
      evictable e.data protectLocalFragment, e.data.lastAccess⟩]
  | payload :: rest =>
    if payload.packFile = e.data.packFile ∧ payload.packOffset = e.data.packOffset then
      { payload with
        evictable := payload.evictable && evictable e.data protectLocalFragment
        lastAccess := max payload.lastAccess e.data.lastAccess } :: rest
    else payload :: gatherPayload protectLocalFragment e rest

/-- `visit_payloads`: each payload of the bucket once, gathering those of one hash at a
time in `run`. -/
def visitPayloads (protectLocalFragment : Bool) :
    (slots : List ImmutableStoreEntry) → (hash : Option Hash) → (run : List BucketPayload) →
      List BucketPayload
  | [], _, run => run
  | e :: slots, hash, run =>
    if e.data.packFile = 0 then visitPayloads protectLocalFragment slots hash run
    else if hash ≠ some e.address.hash then
      run ++ visitPayloads protectLocalFragment slots (some e.address.hash)
        (gatherPayload protectLocalFragment e [])
    else
      visitPayloads protectLocalFragment slots hash (gatherPayload protectLocalFragment e run)

/-- Eviction up to the cutoff takes the payload. -/
def BucketPayload.accessedBy (cutoff : UInt64) (p : BucketPayload) : Bool :=
  p.evictable && p.lastAccess ≤ cutoff

/-- The entry loses its payload to `evictAccessedBy`. -/
def losesPayload (cutoff : UInt64) (protectLocalFragment : Bool) (e : ImmutableStoreEntry) : Bool :=
  let evicted := (visitPayloads protectLocalFragment bucket.slots none []).filter
    (·.accessedBy cutoff)
  e.data.packFile ≠ 0 && evictable e.data protectLocalFragment
    && evicted.any fun payload => payload.hash = e.address.hash
      && payload.packFile = e.data.packFile && payload.packOffset = e.data.packOffset

/-- The data without the payload. -/
def ImmutableData.clearPayload (data : ImmutableData) : ImmutableData :=
  { data with
    packFile := 0, packOffset := 0
    flags := data.flags &&& ~~~FragmentFlags.payloadStoredLocal }

/-- `evict_accessed_by`: drops each payload last accessed at or before the cutoff from the
entries holding it. -/
def evictAccessedBy (cutoff : UInt64) (protectLocalFragment : Bool) : ImmutableStoreBucket :=
  bucket.mapEntries fun e =>
    if losesPayload bucket cutoff protectLocalFragment e then e.mapData .clearPayload else e

/-! ## Compaction, healing, access stamps -/

/-- A payload compaction copied: where it was, its size, and where the copy is. -/
structure PayloadCopy where
  offset : UInt32
  size : UInt32
  copy : PackStoreRef
deriving DecidableEq, Repr

/-- The end of `compact_bucket_packfile`: the entries at a copied location point to the
copy. -/
def repointEntries (packfile : UInt32) (copies : List PayloadCopy) : ImmutableStoreBucket :=
  bucket.mapEntries fun e => e.mapData fun data =>
    if data.packFile ≠ packfile then data
    else
      match copies.find? fun c => c.offset = data.packOffset with
      | some c =>
        if c.size = data.sizePayload then
          { data with packFile := c.copy.id, packOffset := c.copy.offset }
        else data
      | none => data

/-- The heal of `verify`: drops the entries of a hash at a location that failed. -/
def healPayload (hash : Hash) (failed : ImmutableData) : ImmutableStoreBucket :=
  .ofList (bucket.slots.filter fun e =>
    !(e.address.hash = hash && e.data.packFile = failed.packFile
      && e.data.packOffset = failed.packOffset))

/-- The heal of `verify_fragment`: drops the live entries of a hash that hold no payload or
one that failed. -/
def healFragment (hash : Hash) (failed : List ImmutableData) : ImmutableStoreBucket :=
  .ofList (bucket.slots.filter fun e =>
    let unserviceable := e.data.packFile = 0
      || failed.any fun f => e.data.packFile = f.packFile && e.data.packOffset = f.packOffset
    !(e.address.hash = hash && unserviceable && !e.data.isObliterated))

/-- `stamp_last_access`, of the entry a lookup matched. -/
def stampEntry (slot : Nat) (now : UInt64) : ImmutableStoreBucket :=
  bucket.modifyAt slot fun e => e.mapData fun data =>
    if data.isObliterated then data else { data with lastAccess := now }

end Lore.Storage
