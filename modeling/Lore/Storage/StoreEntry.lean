import Lore.Storage.Lookup

/-!
# StoreEntry — adding and updating an entry of a bucket

All associations of a hash are to share one payload: a store takes the payload of the best
match it finds, and a store that brings a payload hands it to every other association of
the hash, sweeping outwards over the sorted index from the insertion slot of its search.
A tombstone is an entry whose flags say `PayloadObliterated`; the sweep passes it over.
-/

namespace Lore.Storage

open Lore.Lib

/-- `PackStoreRef`: where a packstore put a payload. -/
structure PackStoreRef where
  id : UInt32
  offset : UInt32
deriving DecidableEq, Repr

/-- `StorePayload`: the payload a store carries. -/
inductive StorePayload where
  | absent
  | unwritten
  | written (at_ : PackStoreRef)
deriving DecidableEq, Repr

/-- The store carries a payload, written or not. -/
def StorePayload.carried : StorePayload → Bool
  | .absent => false
  | .unwritten | .written _ => true

/-- `StoreOutcome`. -/
inductive StoreOutcome where
  | needsPayload
  | kept (changedFlags : Option (BitVec 32))
  | stored (flags : BitVec 32) (packFile : UInt32)
deriving DecidableEq, Repr

/-- The errors of an operation on a bucket. -/
inductive BucketError where
  | addressNotFound (address : Address)
  | payloadNotFound (hash : Hash)
  | internal (message : String)
deriving DecidableEq, Repr

namespace ImmutableData

/-- The range the data points at. -/
def ref (data : ImmutableData) : PackStoreRef := ⟨data.packFile, data.packOffset⟩

/-- The entry is a tombstone. -/
def isObliterated (data : ImmutableData) : Bool :=
  data.flags &&& FragmentFlags.payloadObliterated != 0#32

/-- `ImmutableData::stored_flags`: durable as `flags` say, and local exactly when the
entry holds its payload. -/
def storedFlags (flags : BitVec 32) (packFile : UInt32) : BitVec 32 :=
  (flags &&& FragmentFlags.payloadStored &&& ~~~FragmentFlags.payloadStoredLocal)
    ||| (if packFile ≠ 0 then FragmentFlags.payloadStoredLocal else 0#32)

/-- `assign_deduplicated_payload`. -/
def assignDeduplicatedPayload (data deduplicated : ImmutableData) : ImmutableData :=
  { data with
    packFile := deduplicated.packFile
    packOffset := deduplicated.packOffset
    sizePayload := deduplicated.sizePayload
    flags := (deduplicated.flags &&& ~~~FragmentFlags.payloadStored)
      ||| storedFlags data.flags deduplicated.packFile }

/-- Points at the same payload. -/
def SamePayload (a b : ImmutableData) : Prop :=
  a.packFile = b.packFile ∧ a.packOffset = b.packOffset ∧ a.sizePayload = b.sizePayload

instance (a b : ImmutableData) : Decidable (SamePayload a b) := instDecidableAnd

/-- The data of a tombstone. -/
def tombstone : ImmutableData := ⟨FragmentFlags.payloadObliterated, 0, 0, 0, 0, 0⟩

theorem isObliterated_tombstone : tombstone.isObliterated = true := by decide

end ImmutableData

/-! ## The sweep -/

/-- What the sweep does with an entry of the hash: a live one pointing elsewhere takes the
payload. -/
def deduplicateEntry (data : ImmutableData) (e : ImmutableStoreEntry) : ImmutableStoreEntry :=
  if e.data.isObliterated = false
      ∧ (e.data.packFile ≠ data.packFile ∨ e.data.packOffset ≠ data.packOffset) then
    { e with data := e.data.assignDeduplicatedPayload data }
  else e

variable (bucket : ImmutableStoreBucket)

/-- `update_slot`: the bucket after the slot, `none` at an entry of another hash. -/
def updateSlot (hash : Hash) (data : ImmutableData) (slot : Nat) : Option ImmutableStoreBucket :=
  match bucket.at? slot with
  | none => none
  | some e =>
    if e.address.hash ≠ hash then none else some (bucket.modifyAt slot (deduplicateEntry data))

/-- The slots below `slot`, downwards. -/
def sweepDown (hash : Hash) (data : ImmutableData) :
    (slot : Nat) → ImmutableStoreBucket → ImmutableStoreBucket
  | 0, bucket => bucket
  | slot + 1, bucket =>
    match updateSlot bucket hash data slot with
    | none => bucket
    | some bucket => sweepDown hash data slot bucket

/-- The `left` slots above `slot`, upwards. -/
def sweepUp (hash : Hash) (data : ImmutableData) :
    (slot left : Nat) → ImmutableStoreBucket → ImmutableStoreBucket
  | _, 0, bucket => bucket
  | slot, left + 1, bucket =>
    match updateSlot bucket hash data (slot + 1) with
    | none => bucket
    | some bucket => sweepUp hash data (slot + 1) left bucket

/-- Both directions from the insertion slot. -/
def sweep (hash : Hash) (data : ImmutableData) (insertSlot : Nat) : ImmutableStoreBucket :=
  let bucket := sweepDown hash data insertSlot bucket
  let lastSlot := bucket.sortedIndex.length - 1
  sweepUp hash data insertSlot (lastSlot - insertSlot) bucket

/-! ## The entry -/

/-- What a store is going to record: the locals of `store_entry`. -/
structure Placement where
  flags : BitVec 32
  sizePayload : UInt32
  packFile : UInt32
  packOffset : UInt32
deriving DecidableEq, Repr

/-- The payload of the best match, unless the store is forced to replace it. -/
def inherit (fragment : Fragment) (force carried : Bool) (data : ImmutableData) : Placement :=
  if !force || !carried then
    if data.packFile ≠ 0 then
      ⟨(data.flags &&& ~~~FragmentFlags.payloadStored)
        ||| (fragment.flags &&& FragmentFlags.payloadStored), data.sizePayload, data.packFile,
        data.packOffset⟩
    else ⟨fragment.flags, fragment.sizePayload, data.packFile, data.packOffset⟩
  else ⟨fragment.flags, fragment.sizePayload, 0, 0⟩

/-- The location of the payload the store wrote, where it is to have one of its own;
`none` while it is unwritten. -/
def locate (matchedPartition : Bool) (payload : StorePayload) (p : Placement) : Option Placement :=
  if !matchedPartition || (p.packFile = 0 && payload.carried) then
    if payload.carried then
      if p.packFile = 0 then
        match payload with
        | .written at_ => some { p with packFile := at_.id, packOffset := at_.offset }
        | _ => none
      else some p
    else some p
  else some p

/-- The data the entry is written with. -/
def Placement.data (p : Placement) (sizeContent now : UInt64) : ImmutableData :=
  ⟨(p.flags &&& ~~~FragmentFlags.payloadStored) ||| ImmutableData.storedFlags p.flags p.packFile,
    p.sizePayload, sizeContent, p.packOffset, p.packFile, now⟩

/-- The entry over the full match, or a new one at the insertion slot. -/
def writeEntry (partition : Partition) (address : Address)
    (matchSlot insertSlot : Nat) (made : StoreMatch) (data : ImmutableData) :
    ImmutableStoreBucket :=
  if made = .matchFull then bucket.modifyAt matchSlot fun e => { e with data := data }
  else bucket.insertAt insertSlot ⟨address, partition, data⟩

/-- The stored flags of an entry that keeps its payload. -/
def keepEntry (matchSlot : Nat) (fragment : Fragment)
    (data : ImmutableData) : StoreOutcome × ImmutableStoreBucket :=
  let stored := ImmutableData.storedFlags fragment.flags data.packFile
  if stored ≠ data.flags &&& FragmentFlags.payloadStored then
    let current := (data.flags &&& ~~~FragmentFlags.payloadStored) ||| stored
    (.kept (if current ≠ data.flags then some current else none),
      bucket.modifyAt matchSlot fun e =>
        { e with data := { e.data with
            flags := (e.data.flags &&& ~~~FragmentFlags.payloadStored) ||| stored } })
  else (.kept none, bucket)

/-- The end of `store_entry`, from where the payload of the entry is settled. -/
def storeAt (partition : Partition) (address : Address)
    (fragment : Fragment) (payload : StorePayload) (now : UInt64)
    (found : Nat × Nat × StoreMatch) (p : Placement) : StoreOutcome × ImmutableStoreBucket :=
  let (matchSlot, insertSlot, made) := found
  let matchedPartition := made = .matchPartition ∨ made = .matchFull
  match locate matchedPartition payload p with
  | none => (.needsPayload, bucket)
  | some p =>
    let data := p.data fragment.sizeContent now
    let bucket := writeEntry bucket partition address matchSlot insertSlot made data
    let bucket :=
      if data.packFile ≠ 0 then sweep bucket address.hash data insertSlot else bucket
    (.stored p.flags p.packFile, bucket)

/-- `store_entry`, under the bucket's write lock. -/
def storeEntry (partition : Partition) (address : Address)
    (fragment : Fragment) (payload : StorePayload) (force : Bool) (now : UInt64) :
    Except BucketError (StoreOutcome × ImmutableStoreBucket) :=
  let found := lookup bucket partition address .matchFull
  let (matchSlot, _, made) := found
  match if made ≠ .matchNone then bucket.at? matchSlot else none with
  | none =>
    .ok (storeAt bucket partition address fragment payload now found
      ⟨fragment.flags, fragment.sizePayload, 0, 0⟩)
  | some e =>
    if made = .matchFull ∧ payload.carried = false ∧ e.data.isObliterated then
      .error (.payloadNotFound address.hash)
    else if e.data.sizeContent ≠ fragment.sizeContent ∧ e.data.isObliterated = false then
      .error (.internal s!"Hash collision in immutable store for {address.hash} size {fragment.sizeContent}, previous entry has size {e.data.sizeContent}")
    else if made = .matchFull
        ∧ (force = false ∧ e.data.packFile ≠ 0 ∨ payload.carried = false) then
      .ok (keepEntry bucket matchSlot fragment e.data)
    else
      .ok (storeAt bucket partition address fragment payload now found
        (inherit fragment force payload.carried e.data))

end Lore.Storage
