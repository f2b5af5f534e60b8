import Lore.Storage.FanOut
import Lore.Storage.Read

/-!
# Serve — what the store answers from a bucket

`find` resolves an address to the best match of the bucket at full strength; `query`,
`getMetadata` and `get` gate what it found on the scope the store answers at, and answer
nothing for a tombstone. A store that isolates partitions serves the very association it
is asked for.
-/

namespace Lore.Storage

open Lore.Lib

/-- `ImmutableStoreSettings`, the settings the modelled operations read. -/
structure ImmutableStoreSettings where
  protectLocalFragment : Bool
  implicitDurableStored : Bool
  isolatePartitions : Bool
  atime : Bool
  initialFanOutLevel : Nat
  fanOutThreshold : Nat
  ladder : initialFanOutLevel ∈ levelLadder

/-- The settings of a client: it shares payloads between partitions, and protects what only it
holds. -/
def clientSettings : ImmutableStoreSettings :=
  ⟨true, false, false, true, 1, 1000, one_mem_levelLadder⟩

/-- `read_scope`: the weakest match content is served from. -/
def ImmutableStoreSettings.readScope (settings : ImmutableStoreSettings) : StoreMatch :=
  if settings.isolatePartitions then .matchFull else .matchHash

/-- `query_scope`: the weakest match that is reported. -/
def ImmutableStoreSettings.queryScope (settings : ImmutableStoreSettings) : StoreMatch :=
  if settings.isolatePartitions then .matchPartition else .matchHash

/-- The errors of a read. -/
inductive StoreError where
  | payloadNotFound (hash : Hash)
  | storage (error : StorageError)
deriving DecidableEq, Repr

/-! ## Finding -/

/-- `ImmutableStoreFindResult`. -/
structure ImmutableStoreFindResult where
  data : ImmutableData
  matching : StoreMatch
  partition : Partition
  context : Context
deriving DecidableEq, Repr

/-- The data `find` reports of an entry: of a tombstone, only that it is one. -/
def ImmutableData.reported (data : ImmutableData) : ImmutableData :=
  if data.isObliterated then { ImmutableData.default with flags := FragmentFlags.payloadObliterated }
  else data

/-- `find`, of a bucket that is loaded. -/
def find (bucket : ImmutableStoreBucket) (partition : Partition) (address : Address) :
    ImmutableStoreFindResult :=
  let (matchSlot, _, matchMade) := lookup bucket partition address .matchFull
  match if matchMade = .matchNone then none else bucket.at? matchSlot with
  | none => ⟨.default, .matchNone, 0, 0⟩
  | some e => ⟨e.data.reported, matchMade, e.partition, e.address.context⟩

/-! ## Answering -/

/-- `StoreMatchResult`. -/
structure StoreMatchResult where
  matchMade : StoreMatch
  partition : Partition
  context : Context
  storedLocal : Bool
  storedDurable : Bool
deriving DecidableEq, Repr

/-- `StoreMatchResult::default()`. -/
def StoreMatchResult.default : StoreMatchResult := ⟨.matchNone, 0, 0, false, false⟩

section

variable (settings : ImmutableStoreSettings)

/-- `query`, of one address. -/
def query (bucket : ImmutableStoreBucket)
    (partition : Partition) (address : Address) : StoreMatchResult :=
  let found := find bucket partition address
  if found.data.isObliterated ∨ found.matching < settings.queryScope then .default
  else
    ⟨found.matching, found.partition, found.context, found.data.packFile ≠ 0,
      found.data.flags &&& FragmentFlags.payloadStoredDurable != 0#32
        || settings.implicitDurableStored⟩

/-- `StoreGetData`, without the content only a fetching store fills in. -/
structure StoreGetData where
  fragment : Fragment
  matchMade : StoreMatch
  partition : Partition
  payload : Option Bytes
deriving DecidableEq, Repr

/-- `StoreGetData::default()`. -/
def StoreGetData.default : StoreGetData := ⟨.default, .matchNone, 0, none⟩

/-- `get_metadata`. -/
def getMetadata (bucket : ImmutableStoreBucket)
    (partition : Partition) (address : Address) : StoreGetData :=
  let found := find bucket partition address
  if found.data.isObliterated ∨ found.matching < settings.readScope then .default
  else
    let storedFlags := ImmutableData.storedFlags found.data.flags found.data.packFile
    let storedFlags :=
      if settings.implicitDurableStored then
        storedFlags ||| FragmentFlags.payloadStoredDurable
      else storedFlags
    ⟨⟨(found.data.flags &&& ~~~FragmentFlags.payloadStored) ||| storedFlags,
      found.data.sizePayload, found.data.sizeContent⟩, found.matching, found.partition, none⟩

/-- The bytes of the packfiles of a group, by id. -/
abbrev Packfiles := UInt32 → Option Bytes

/-- Four bytes at the start of one packfile. -/
def fourBytes (packfile : UInt32) : Packfiles :=
  fun id => if id = packfile then some [1, 2, 3, 4] else none

/-- `PackStore::load`. -/
def loadPayload (packfiles : Packfiles) (data : ImmutableData) : Except StorageError Bytes :=
  let offset := data.packOffset.toNat
  let size := data.sizePayload.toNat
  if size = 0 then .ok []
  else if data.packFile = 0 then .error (.internal "Invalid packfile")
  else
    match packfiles data.packFile with
    | none => .error (.internal "Invalid packfile")
    | some buffer =>
      if offset + size > buffer.length then
        .error (.internal "Failed reading from packstore buffer, boundary violation")
      else .ok ((buffer.drop offset).take size)

/-- The fragment a read reports with the payload. -/
def servedFragment (data : ImmutableData) : Fragment :=
  let localFlags :=
    if settings.implicitDurableStored then
      FragmentFlags.payloadStoredLocal ||| FragmentFlags.payloadStoredDurable
    else FragmentFlags.payloadStoredLocal
  ⟨data.flags ||| localFlags, data.sizePayload, data.sizeContent⟩

/-- The checks and the load of `get`, of an entry found within scope. -/
def loadFound (packfiles : Packfiles) (hash : Hash)
    (data : ImmutableData) : Except StoreError Bytes :=
  let fragment := servedFragment settings data
  if data.packFile = 0 then .error (.payloadNotFound hash)
  else
    match validateFragmentPayload fragment data.sizePayload.toNat with
    | .error error => .error (.storage error)
    | .ok () =>
      match loadPayload packfiles data with
      | .error error => .error (.storage error)
      | .ok payload =>
        match validateFragmentPayload fragment payload.length with
        | .error error => .error (.storage error)
        | .ok () => .ok payload

/-- `get`. -/
def get (packfiles : Packfiles)
    (bucket : ImmutableStoreBucket) (partition : Partition) (address : Address) :
    Except StoreError StoreGetData :=
  let found := find bucket partition address
  if found.data.isObliterated ∨ found.matching < settings.readScope then
    .error (.storage (.addressNotFound address))
  else
    match loadFound settings packfiles address.hash found.data with
    | .error error => .error error
    | .ok payload =>
      .ok ⟨servedFragment settings found.data, found.matching, found.partition, some payload⟩

/-- `PayloadRead`, with the bytes that stand in the caller's buffer. -/
inductive PayloadRead where
  | intoBuffer (written : Bytes)
  | returned (payload : Bytes)
deriving DecidableEq, Repr

/-- `get_into`, for a buffer of `capacity` bytes. -/
def getInto (packfiles : Packfiles) (bucket : ImmutableStoreBucket) (partition : Partition)
    (address : Address) (capacity : Nat) : Except StoreError (Fragment × PayloadRead) :=
  let found := find bucket partition address
  if found.data.isObliterated ∨ found.matching < settings.readScope then
    .error (.storage (.addressNotFound address))
  else
    let fragment := servedFragment settings found.data
    match validateFragmentSize fragment with
    | .error error => .error (.storage error)
    | .ok () =>
      if found.data.packFile = 0 then .error (.payloadNotFound address.hash)
      else if !payloadIsContent fragment then
        match loadPayload packfiles found.data with
        | .error error => .error (.storage error)
        | .ok payload =>
          match validateFragmentPayload fragment payload.length with
          | .error error => .error (.storage error)
          | .ok () => .ok (fragment, .returned payload)
      else
        match validateBufferCapacity found.data.sizePayload.toNat capacity with
        | .error error => .error (.storage error)
        | .ok () =>
          match loadPayload packfiles found.data with
          | .error error => .error (.storage error)
          | .ok payload => .ok (fragment, .intoBuffer payload)

/-- The payload bytes a `get` serves. -/
def payloadServed (packfiles : Packfiles)
    (bucket : ImmutableStoreBucket) (partition : Partition) (address : Address) : Option Bytes :=
  match get settings packfiles bucket partition address with
  | .ok found => found.payload
  | .error _ => none

end

/-! ## An association with an entry -/

theorem isObliterated_reported (data : ImmutableData) :
    data.reported.isObliterated = data.isObliterated := by
  unfold ImmutableData.reported
  split
  case isTrue hobl =>
    rw [hobl]
    decide
  case isFalse => rfl

section Entry

variable {bucket : ImmutableStoreBucket} {partition : Partition} {address : Address}
  {e : ImmutableStoreEntry}

theorem find_of_mem (h : Ordered bucket) (he : e ∈ bucket.slots)
    (hkey : e.key = sortKey partition address) :
    find bucket partition address
      = ⟨e.data.reported, .matchFull, e.partition, e.address.context⟩ := by
  obtain ⟨slot, start, hl, hsl⟩ := lookup_of_mem h he hkey
  have hat : bucket.at? slot = some e := by rw [← Indexed.getElem?_slots h.indexed, hsl]
  unfold find
  rw [hl]
  dsimp only
  rw [if_neg (by decide), hat]

theorem not_matchFull_lt (scope : StoreMatch) : ¬ StoreMatch.matchFull < scope := by
  cases scope <;> decide

/-- The bytes an entry's data is served with, at any scope. -/
def servedOf (settings : ImmutableStoreSettings) (packfiles : Packfiles) (hash : Hash)
    (data : ImmutableData) : Option Bytes :=
  if data.isObliterated then none
  else
    match loadFound settings packfiles hash data with
    | .ok payload => some payload
    | .error _ => none

theorem payloadServed_of_mem (h : Ordered bucket) (settings : ImmutableStoreSettings)
    (packfiles : Packfiles) (he : e ∈ bucket.slots) (hkey : e.key = sortKey partition address) :
    payloadServed settings packfiles bucket partition address
      = servedOf settings packfiles address.hash e.data := by
  unfold payloadServed get servedOf
  rw [find_of_mem h he hkey]
  dsimp only
  rw [isObliterated_reported]
  by_cases hobl : e.data.isObliterated = true
  · rw [if_pos (Or.inl hobl), if_pos hobl]
  · have hg : ¬ (e.data.isObliterated = true ∨ StoreMatch.matchFull < settings.readScope) := by
      intro hor
      exact hor.elim hobl (not_matchFull_lt _)
    rw [if_neg hg, if_neg hobl, ImmutableData.reported, if_neg hobl]
    cases loadFound settings packfiles address.hash e.data with
    | ok payload | error error => rfl

end Entry

end Lore.Storage
