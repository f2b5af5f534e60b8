import Lore.Storage.Level

/-!
# Write — cutting content into fragments and storing them

`write_content` of a local store: content that fits one fragment is stored as one,
larger content is cut into chunks, each is stored, and the list of references to
them is stored in turn, split into lists of lists where it does not fit one
fragment. The tasks of one level run concurrently in the source and are all
awaited before the level above is stored; here they run in order. There is no
remote session, so a fragment the store holds already is not stored again, and
what a write reports about placement is left out. So is the payload `leader_body` takes
from the store where it holds the hash under another partition or context: here it is
prepared anew.
-/

namespace Lore.Storage

open Lore.Lib

/-- `WriteOptions`: the fields a local write looks at. -/
structure WriteOptions where
  revisionState : Bool
  localCachePriority : Bool
  fixedSizeChunk : Nat
  hashOnly : Bool
deriving DecidableEq, Repr

/-- `WriteOptions::default()`. -/
def WriteOptions.default : WriteOptions := ⟨false, false, 0, false⟩

/-- `WriteOptions::as_u32`. -/
def WriteOptions.asU32 (options : WriteOptions) : BitVec 32 :=
  (if options.revisionState then FragmentFlags.payloadRevisionState else 0#32) |||
    (if options.localCachePriority then FragmentFlags.payloadLocalCachePriority else 0#32)

/-- `WriteOptions::cut_size`: the size fixed chunks are cut at, `none` for
content-defined chunking. -/
def WriteOptions.cutSize (options : WriteOptions) : Option Nat :=
  if options.fixedSizeChunk > 0 then
    some (min (max options.fixedSizeChunk 1) fragmentSizeThreshold)
  else none

/-! ## Cutting -/

/-- The chunks a greedy cutter makes of `rest`, which starts at `offset`. -/
def cutBoundaries (cut : Bytes → Nat) : Nat → Nat → Bytes → List Span
  | 0, _, _ => []
  | fuel + 1, offset, rest =>
      if rest.isEmpty then []
      else ⟨offset, offset + cut rest⟩ ::
        cutBoundaries cut fuel (offset + cut rest) (rest.drop (cut rest))

/-- `chunk_boundaries`. -/
def chunkBoundaries (host : Host) (cutSize : Option Nat) (buffer : Bytes) : List Span :=
  let size := buffer.length
  match cutSize with
  | some step =>
      (List.range ((size + (step - 1)) / step)).map fun i =>
        ⟨i * step, min (i * step + step) size⟩
  | none => cutBoundaries host.cut size 0 buffer

/-! ## Compressing -/

inductive CompressionMode where
  | notSpecified
  | noCompression
  | lz4
  | oodle
  | zstd
deriving DecidableEq, Repr

/-- `compress_lz4_impl` and `compress_zstd_impl`: the compressed payload, where it
saves at least 5%. -/
def compressImpl (host : Host) (codec : Codec) (flag : BitVec 32) (fragment : Fragment)
    (payload : Bytes) : Option (Fragment × Bytes) :=
  match host.encode codec payload with
  | none => none
  | some compressed =>
      if compressed.length < fragment.sizePayload.toNat * 95 / 100 then
        some ({ flags := fragment.flags ||| flag
                sizePayload := UInt32.ofNat compressed.length
                sizeContent := fragment.sizeContent }, compressed)
      else none

/-- `compress`. The caller stores the payload as it is where this fails, whatever
the reason. -/
def compress (host : Host) (fragment : Fragment) (payload : Bytes) (mode : CompressionMode) :
    Option (Fragment × Bytes) :=
  if fragment.sizeContent.toNat > fragmentSizeThreshold then none
  else if fragment.isCompressed ∨ fragment.isFragmented
      ∨ fragment.sizePayload.toNat ≠ fragment.sizeContent.toNat then none
  else if payload.length < fragment.sizePayload.toNat then none
  else
    match mode with
    | .lz4 => compressImpl host .lz4 FragmentFlags.payloadCompressedLZ4 fragment payload
    | .zstd | .notSpecified =>
        compressImpl host .zstd FragmentFlags.payloadCompressedZstd fragment payload
    | .oodle | .noCompression => none

/-! ## Storing one fragment -/

section

variable (host : Host) (mode : CompressionMode) (partition : Partition) (context : Context)
  (options : WriteOptions)

/-- The first half of `leader_body` with no remote session, for an address the store
does not hold: the fragment is compressed where it can be, and is not durable. -/
def preparePayload (fragment : Fragment) (buffer : Bytes) : Fragment × Bytes :=
  let (fragment, payload) :=
    if mode ≠ .noCompression then
      (compress host fragment (buffer.take fragment.sizePayload.toNat) mode).getD
        (fragment, buffer)
    else (fragment, buffer)
  ({ fragment with flags := fragment.flags &&& ~~~FragmentFlags.payloadStoredDurable }, payload)

/-- `leader_body`: what was prepared is put. -/
def leaderBody (address : Address) (fragment : Fragment) (buffer : Bytes)
    (store : ContentStore) : ContentStore :=
  let (fragment, payload) := preparePayload host mode fragment buffer
  store.put partition address fragment payload

/-- `store_fragment`: checks the fragment and stores it, unless the store holds the
address already. -/
def storeFragment (address : Address) (fragment : Fragment) (buffer : Bytes)
    (store : ContentStore) : Except StorageError ContentStore :=
  let sizePayload := fragment.sizePayload.toNat
  let len := buffer.length
  if isZero address.hash ∨ buffer.isEmpty ∨ sizePayload = 0 then
    .error (.internal "zero size or zero hash buffers can not be stored")
  else if sizePayload > fragmentSizeThreshold then
    .error (.oversized
      s!"fragment size_payload {sizePayload} exceeds FRAGMENT_SIZE_THRESHOLD {fragmentSizeThreshold} on store_fragment")
  else if sizePayload ≠ len then
    .error (.internal
      s!"store_fragment buffer length mismatch: buffer {len} vs size_payload {sizePayload}")
  else
    match store partition address with
    | some _ => .ok store
    | none => .ok (leaderBody host mode partition address fragment buffer store)

/-- A chunk on its way into the store: its header, its bytes, and where the content
it stands for begins. -/
structure ChunkTask where
  fragment : Fragment
  bytes : Bytes
  contentOffset : Nat
deriving DecidableEq, Repr

/-- The reference a list names the chunk by. -/
def ChunkTask.reference (task : ChunkTask) : FragmentReference :=
  ⟨host.hash task.bytes, UInt64.ofNat task.contentOffset⟩

/-- The task of one chunk: it is hashed, and stored unless the write only hashes. -/
def storeChunk (task : ChunkTask) (store : ContentStore) :
    Except StorageError (Address × ContentStore) :=
  let address : Address := ⟨host.hash task.bytes, context⟩
  if options.hashOnly then .ok (address, store)
  else do
    let store ← storeFragment host mode partition address task.fragment task.bytes store
    .ok (address, store)

/-- The tasks of one level, and the list of references they make. -/
def storeChunks : List ChunkTask → ContentStore →
    Except StorageError (List FragmentReference × ContentStore)
  | [], store => .ok ([], store)
  | task :: tasks, store => do
      let (address, store) ← storeChunk host mode partition context options task store
      let (list, store) ← storeChunks tasks store
      .ok (⟨address.hash, UInt64.ofNat task.contentOffset⟩ :: list, store)

/-! ## Storing a fragment list -/

/-- `max_chunk_size`: the bytes of the references that fit one fragment. -/
def maxChunkSize : Nat := referenceSize * (fragmentSizeThreshold / referenceSize)

/-- `list_chunk_size`. -/
def listChunkSize (remaining maxChunkSize : Nat) : Nat :=
  if remaining = maxChunkSize + referenceSize then maxChunkSize - referenceSize
  else min remaining maxChunkSize

/-- The chunk of a fragment list that holds `references`. -/
def listTask (references : List FragmentReference) (contentSize contentOffset : Nat) : ChunkTask :=
  { fragment :=
      { flags := options.asU32 ||| FragmentFlags.payloadFragmented
        sizePayload := UInt32.ofNat (references.length * referenceSize)
        sizeContent := UInt64.ofNat contentSize }
    bytes := listBytes references
    contentOffset := contentOffset }

/-- The loop of `write_fragmentlist_impl` over the `references` left, whose content
begins at `chunkContentOffset`: the chunks it cuts them into. -/
def listTasks (contentSize : Nat) :
    Nat → List FragmentReference → Nat → Except StorageError (List ChunkTask)
  | _, [], _ => .ok []
  | 0, _ :: _, _ => .error .exhausted
  | fuel + 1, first :: rest, chunkContentOffset => do
      let chunkSize := listChunkSize ((first :: rest).length * referenceSize) maxChunkSize
      let count := chunkSize / referenceSize
      let chunk := (first :: rest).take count
      let later := (first :: rest).drop count
      let chunkContentSize ←
        subU64 (nextOffset later contentSize) first.offsetContent.toNat
      let nextContentOffset ← addU64 chunkContentOffset chunkContentSize
      let tasks ← listTasks contentSize fuel later nextContentOffset
      .ok (listTask options chunk chunkContentSize chunkContentOffset :: tasks)

/-- `write_fragmentlist_impl`: a list that fits one fragment is the root, a larger one
is split and the list of its parts is written. Each level is shorter than the one
below it, so as many levels as references are enough. -/
def writeFragmentlistWith (contentSize : Nat) : Nat → List FragmentReference → ContentStore →
    Except StorageError (Address × ContentStore)
  | fuel, references, store =>
      if references.length * referenceSize ≤ fragmentSizeThreshold then
        storeChunk host mode partition context options
          (listTask options references contentSize 0) store
      else
        match fuel with
        | 0 => .error .exhausted
        | fuel + 1 => do
            let tasks ← listTasks options contentSize references.length references 0
            let (list, store) ← storeChunks host mode partition context options tasks store
            writeFragmentlistWith contentSize fuel list store

/-- `write_fragmentlist`. -/
def writeFragmentlist (references : List FragmentReference) (contentSize : Nat)
    (store : ContentStore) : Except StorageError (Address × ContentStore) :=
  writeFragmentlistWith host mode partition context options contentSize references.length
    references store

/-- `write_chunk_list`: the list of the chunks that were stored, written in turn. -/
def writeChunkList (list : List FragmentReference) (size : Nat) (store : ContentStore) :
    Except StorageError (Address × ContentStore) :=
  if list.isEmpty then
    .error (.internal s!"no chunks were written for {size} bytes of content")
  else writeFragmentlist host mode partition context options list size store

/-! ## Writing content -/

/-- A chunk of content, stored as it is. -/
def leafTask (bytes : Bytes) (contentOffset : Nat) : ChunkTask :=
  { fragment :=
      { flags := options.asU32
        sizePayload := UInt32.ofNat bytes.length
        sizeContent := UInt64.ofNat bytes.length }
    bytes := bytes
    contentOffset := contentOffset }

/-- `write_fragmented`: a chunk that is the whole content is stored alone. -/
def writeFragmented (buffer : Bytes) (store : ContentStore) :
    Except StorageError (Address × ContentStore) :=
  let size := buffer.length
  let chunkBoundaries := chunkBoundaries host options.cutSize buffer
  if chunkBoundaries.head? = some ⟨0, size⟩ then
    storeChunk host mode partition context options (leafTask options buffer 0) store
  else do
    let (list, store) ← storeChunks host mode partition context options
      (chunkBoundaries.map fun s => leafTask options (slice buffer s) s.start) store
    writeChunkList host mode partition context options list size store

/-- `write_single_fragment`. -/
def writeSingleFragment (buffer : Bytes) (store : ContentStore) :
    Except StorageError (Address × ContentStore) :=
  storeChunk host mode partition context options (leafTask options buffer 0) store

/-- `write_content`. -/
def writeContent (buffer : Bytes) (store : ContentStore) :
    Except StorageError (Address × ContentStore) :=
  if buffer.length ≤ fragmentSizeThreshold then
    writeSingleFragment host mode partition context options buffer store
  else writeFragmented host mode partition context options buffer store

end

end Lore.Storage
