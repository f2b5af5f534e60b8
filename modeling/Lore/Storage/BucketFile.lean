import Lore.Storage.BucketEntry

/-!
# BucketFile — the index file of one bucket

A bucket is written as a header, its sorted index, its entries, and the packfile sizes
the header has no room for (`ImmutableBucketWrite`). A reader counts the entries from
the length of the file and the bytes an entry takes in the file's version, checks the
header's count against that, and parses the file either from the head bytes read with
the open or with further reads (`deserializeFileContent`).
-/

namespace Lore.Storage

open Lore.Lib

/-- `ImmutableStoreVersion`, written to the file as its discriminant. -/
inductive ImmutableStoreVersion where
  | initial
  | lastAccessTimestamps
  | packfilePerGroup
  | lastAccessInEntry
  | lazyFanOut
deriving DecidableEq, Repr

def ImmutableStoreVersion.asU32 : ImmutableStoreVersion → UInt32
  | .initial => 1
  | .lastAccessTimestamps => 2
  | .packfilePerGroup => 3
  | .lastAccessInEntry => 4
  | .lazyFanOut => 5

/-- `ImmutableStoreHeader`. -/
structure ImmutableStoreHeader where
  version : UInt32
  packfileSizes : UInt32
  count : UInt32
  firstPackfileSize : UInt32
deriving DecidableEq, Repr

def headerLayout : Layout ImmutableStoreHeader :=
  .record (.pair .u32 (.pair .u32 (.pair .u32 .u32)))
    (fun f => ⟨f.1, f.2.1, f.2.2.1, f.2.2.2⟩)
    (fun h => (h.version, h.packfileSizes, h.count, h.firstPackfileSize)) fun _ => rfl

/-- `SIZES_RECORDED`: set by a writer that records packfile sizes. -/
def sizesRecorded : UInt32 := (1 : UInt32) <<< (31 : UInt32)

/-- `SIZES_COUNT_SHIFT`. -/
def sizesCountShift : UInt32 := 24

/-- `SIZES_ID_MASK`: the bits that hold the first packfile's id. -/
def sizesIdMask : UInt32 := ((1 : UInt32) <<< sizesCountShift) - 1

/-- `TRAILER_SIZES`: the most sizes a file holds after its entries. -/
def trailerSizes : Nat := 12

/-- `BUCKET_HEAD_READ`. -/
def bucketHeadRead : Nat := 256 * 1024

/-- `RecordedSizes`: the packfile sizes a bucket file records. -/
inductive RecordedSizes where
  | unrecorded
  | recorded (first : Option PackfileSize) (rest : Bytes)
  | torn
deriving DecidableEq, Repr

/-- The sizes as `clear_lost_payloads` goes through them: the first, then those in the
whole chunks of the rest. -/
def RecordedSizes.sizes : RecordedSizes → List PackfileSize
  | .recorded first rest =>
      first.toList ++ packfileSizeLayout.decodeAll (rest.length / packfileSizeLayout.size) rest
  | .unrecorded | .torn => []

/-- `record_sizes`. -/
def ImmutableStoreHeader.recordSizes (header : ImmutableStoreHeader)
    (sizes : List PackfileSize) : ImmutableStoreHeader :=
  let packfileSizes := sizesRecorded ||| (UInt32.ofNat sizes.length <<< sizesCountShift)
  match sizes.head? with
  | some first => { header with
      packfileSizes := packfileSizes ||| first.id, firstPackfileSize := first.size }
  | none => { header with packfileSizes := packfileSizes }

/-- The number of sizes the header counts. -/
def ImmutableStoreHeader.sizesCount (header : ImmutableStoreHeader) : Nat :=
  ((header.packfileSizes &&& ~~~sizesRecorded) >>> sizesCountShift).toNat

/-- `recorded_sizes`: the first from the header, the rest from the bytes after the
entries. -/
def ImmutableStoreHeader.recordedSizes (header : ImmutableStoreHeader) (trailer : Bytes) :
    RecordedSizes :=
  if header.packfileSizes &&& sizesRecorded = 0 then .unrecorded
  else if (header.sizesCount - 1) * packfileSizeLayout.size ≠ trailer.length then .torn
  else
    .recorded
      (if 0 < header.sizesCount then
        some ⟨header.packfileSizes &&& sizesIdMask, header.firstPackfileSize⟩ else none)
      trailer

/-- `recordable_sizes`: the first `unsettled` of `sizes`, if there were not more than it
holds and the first id has room in the header. -/
def recordableSizes (sizes : List PackfileSize) (unsettled : Option Nat) :
    Option (List PackfileSize) := do
  let sizes := sizes.take (← unsettled)
  if ∀ first ∈ sizes.head?, first.id ≤ sizesIdMask then some sizes else none

/-! ## Writing -/

/-- `ImmutableBucketWrite::copy`: the bucket's chunks after room for the header. -/
def ImmutableBucketWrite.copy (sortedIndex : List UInt32) (entry : List ImmutableStoreEntry) :
    Bytes :=
  List.replicate headerLayout.size 0
    ++ (Layout.u32.encodeAll sortedIndex ++ entryLayout.encodeAll entry)

/-- `ImmutableBucketWrite::finish`: the header in the room left for it, and the sizes it
has no room for at the end. -/
def ImmutableBucketWrite.finish (bytes : Bytes) (header : ImmutableStoreHeader)
    (sizes : List PackfileSize) : Bytes :=
  headerLayout.encode (header.recordSizes sizes) ++ bytes.drop headerLayout.size
    ++ packfileSizeLayout.encodeAll sizes.tail

/-- The bytes `serialize_files` writes for a bucket: `header` is zeroed but for the
version and the count. -/
def bucketFileBytes (version : UInt32) (sortedIndex : List UInt32)
    (entry : List ImmutableStoreEntry) (sizes : List PackfileSize) : Bytes :=
  ImmutableBucketWrite.finish (ImmutableBucketWrite.copy sortedIndex entry)
    ⟨version, 0, UInt32.ofNat entry.length, 0⟩ sizes

/-! ## Reading -/

/-- `BucketFile`: what a bucket file holds. -/
structure BucketFile where
  sortedIndex : List UInt32
  entry : List ImmutableStoreEntry
  upgradePackfile : Bool
  markDirty : Bool
  sizes : RecordedSizes
deriving DecidableEq, Repr

/-- `BucketFile::empty`. -/
def BucketFile.empty : BucketFile := ⟨[], [], false, false, .unrecorded⟩

/-- An `io::Error`, as far as `bucket_read_error` tells them apart. -/
inductive ReadError where
  | unexpectedEof (text : String)
  | other (text : String)
deriving DecidableEq, Repr

/-- `DeserializeFileError`. -/
inductive DeserializeFileError where
  | futureVersion (version : UInt32)
  | corrupt (reason : String)
  | unreadable (err : ReadError)
deriving DecidableEq, Repr

/-- `bucket_read_error`. -/
def bucketReadError (err : ReadError) (what : String) : DeserializeFileError :=
  match err with
  | .unexpectedEof text => .corrupt s!"{what}: {text}"
  | .other text => .unreadable (.other text)

/-- `IoFile::read_exact_at`: so many bytes at an offset. -/
abbrev IoFile := (length offset : Nat) → Except ReadError Bytes

/-- A file that holds `bytes` and reads without failures. -/
def IoFile.holding (bytes : Bytes) : IoFile := fun length offset =>
  if offset + length ≤ bytes.length then .ok ((bytes.drop offset).take length)
  else .error (.unexpectedEof "file ended before the requested read length")

/-- `GrowVec::read_from` with the text of the error its callers wrap. -/
def readFrom {α : Type} (layout : Layout α) (count : Nat) (what : String) (reader : Bytes) :
    Except DeserializeFileError (List α × Bytes) :=
  match layout.readArray count reader with
  | some read => .ok read
  | none => .error (.corrupt s!"{what}: failed to fill whole buffer")

/-- The bytes one entry takes in a file of the version, as the reader counts them. -/
def perEntrySize (version : UInt32) : Option Nat :=
  if version = ImmutableStoreVersion.lazyFanOut.asU32
      ∨ version = ImmutableStoreVersion.lastAccessInEntry.asU32 then
    some (Layout.u32.size + entryLayout.size)
  else if version = ImmutableStoreVersion.packfilePerGroup.asU32
      ∨ version = ImmutableStoreVersion.lastAccessTimestamps.asU32 then
    -- the last access timestamps were an array of `u32` after the entries
    some (Layout.u32.size + entryBeforeLastAccessLayout.size + Layout.u32.size)
  else if version = ImmutableStoreVersion.initial.asU32 then
    some (Layout.u32.size + entryLayout.size)
  else none

/-- An entry of the older layout with no last access. -/
def ImmutableStoreEntryBeforeLastAccess.upgrade (e : ImmutableStoreEntryBeforeLastAccess) :
    ImmutableStoreEntry where
  address := e.address
  partition := e.partition
  data := ⟨e.data.flags, e.data.sizePayload, e.data.sizeContent, e.data.packOffset,
    e.data.packFile, 0⟩

/-- The index, the entries and the trailer of a file whose bytes are all in its head. -/
def segmentsFromHead (head : Bytes) (fileSize entriesEnd count : Nat) :
    Except DeserializeFileError (List UInt32 × List ImmutableStoreEntry × Bytes) := do
  let (sortedIndex, reader) ←
    readFrom Layout.u32 count "read sorted index" (head.drop headerLayout.size)
  let (entry, _) ← readFrom entryLayout count "read entries" reader
  return (sortedIndex, entry, (head.take fileSize).drop entriesEnd)

/-- The bytes after the entries, read only for a header that records sizes. -/
def trailerFromFile (file : IoFile) (header : ImmutableStoreHeader) (fileSize entriesEnd : Nat) :
    Except DeserializeFileError Bytes :=
  if header.packfileSizes &&& sizesRecorded ≠ 0 ∧ entriesEnd < fileSize then
    (file (fileSize - entriesEnd) entriesEnd).mapError fun err =>
      bucketReadError err "read packfile sizes"
  else .ok []

/-- The same of a file read further: one vectored read fills the index and then the
entries. -/
def segmentsFromFile (file : IoFile) (header : ImmutableStoreHeader)
    (fileSize entriesEnd count : Nat) :
    Except DeserializeFileError (List UInt32 × List ImmutableStoreEntry × Bytes) := do
  let bytes ← (file (count * Layout.u32.size + count * entryLayout.size)
    headerLayout.size).mapError fun err => bucketReadError err "read bucket data"
  let trailer ← trailerFromFile file header fileSize entriesEnd
  return (Layout.u32.decodeAll count bytes,
    entryLayout.decodeAll count (bytes.drop (count * Layout.u32.size)), trailer)

/-- The branch of `deserialize_file_content` for the layouts from `LastAccessInEntry` on. -/
def deserializeEntries (file : IoFile) (fileSize : Nat) (head : Bytes)
    (header : ImmutableStoreHeader) (perEntry count : Nat) :
    Except DeserializeFileError BucketFile := do
  let upgradePackfile : Bool := header.version < ImmutableStoreVersion.packfilePerGroup.asU32
  let entriesEnd := headerLayout.size + count * perEntry
  let (sortedIndex, entry, trailer) ←
    if fileSize ≤ head.length then segmentsFromHead head fileSize entriesEnd count
    else segmentsFromFile file header fileSize entriesEnd count
  return ⟨sortedIndex, entry, upgradePackfile, false, header.recordedSizes trailer⟩

/-- The branch of `deserialize_file_content` for the layouts before `LastAccessInEntry`. -/
def deserializeLegacyEntries (file : IoFile) (fileSize : Nat) (head : Bytes)
    (header : ImmutableStoreHeader) (count : Nat) : Except DeserializeFileError BucketFile := do
  let upgradePackfile : Bool := header.version < ImmutableStoreVersion.packfilePerGroup.asU32
  let reader ←
    if fileSize ≤ head.length then pure (head.drop headerLayout.size)
    else
      (file (fileSize - headerLayout.size) headerLayout.size).mapError fun err =>
        bucketReadError err "read bucket data"
  let (sortedIndex, reader) ← readFrom Layout.u32 count "read sorted index" reader
  let (entryOld, _) ← readFrom entryBeforeLastAccessLayout count "read legacy entries" reader
  return ⟨sortedIndex, entryOld.map (·.upgrade), upgradePackfile, true, .unrecorded⟩

/-- `deserialize_file_content`. -/
def deserializeFileContent (path : String) (file : IoFile) (fileSize : Nat) (head : Bytes) :
    Except DeserializeFileError BucketFile := do
  let headerSize := headerLayout.size
  if head.length < headerSize then
    throw (.corrupt s!"file size {fileSize} smaller than header size {headerSize}")
  let header := headerLayout.decode head
  if header.version > ImmutableStoreVersion.lazyFanOut.asU32 ∧ header.version < 0xFFFF then
    throw (.futureVersion header.version)
  match perEntrySize header.version with
  | none => throw (.corrupt s!"invalid store version {header.version}")
  | some perEntry =>
    let expectedCount := (fileSize - headerSize) / perEntry
    if expectedCount = 0 then
      return .empty
    if header.count ≠ UInt32.ofNat expectedCount then
      throw (.corrupt s!"bad index file, unexpected count {header.count} when expecting {expectedCount} for index file {path}")
    if header.version ≥ ImmutableStoreVersion.lastAccessInEntry.asU32 then
      deserializeEntries file fileSize head header perEntry expectedCount
    else
      deserializeLegacyEntries file fileSize head header expectedCount

/-- `deserialize_files` up to its recovery: `open_read_head` reads the first
`bucketHeadRead` bytes with the open. -/
def deserializeBytes (path : String) (bytes : Bytes) : Except DeserializeFileError BucketFile :=
  deserializeFileContent path (.holding bytes) bytes.length (bytes.take bucketHeadRead)

/-- `deserialize_files`: a missing file is an empty bucket, and a corrupt one is removed
and read as one. -/
def deserializeFiles (path : String) (file : Option Bytes) :
    Except DeserializeFileError BucketFile :=
  match file with
  | none => .ok .empty
  | some bytes =>
    match deserializeBytes path bytes with
    | .error (.corrupt _) => .ok .empty
    | result => result

end Lore.Storage
