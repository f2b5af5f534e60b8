import Lore.Storage.Read
import Lore.Storage.Write

/-!
# Chunker — cutting a file a window at a time

`FileChunker` reads a file through one window, or two where the file is larger than
a window: while chunks are cut and handed out from one, the next read fills the
other, and what the last cut could not decide is carried into the room in front of
the bytes just read. The file does not change under the chunker, so what a read in
flight will deliver is settled when it starts. A window's bytes are cells that are
`none` until something writes them; reading such a cell, a slice that leaves its
buffer, and a failed `debug_assert` are an `abort`.
-/

namespace Lore.Storage

open Lore.Lib

/-- `WINDOW_SIZE`. -/
def windowSize : Nat := 2 * fragmentSizeThreshold

/-- A chunk: where it starts in the file, and its bytes. -/
structure Chunk where
  offset : Nat
  data : Bytes
deriving DecidableEq, Repr

/-- `CutMode`. -/
inductive CutMode where
  | contentDefined
  | fixedSize (size : Nat)
deriving DecidableEq, Repr

/-- A read in flight: the window it hands back, and how many bytes it fills. -/
structure PendingRead where
  result : Except StorageError CallerBuffer
  want : Nat

/-- `FileChunker`. The unconsumed bytes are `window[head .. head + length]`, and
`base` is the offset of the first of them in the file. -/
structure FileChunker where
  window : CallerBuffer
  head : Nat
  length : Nat
  headroom : Nat
  decided : Nat
  ready : List (Nat × Nat)
  failed : Bool
  pending : Option PendingRead
  spare : Option CallerBuffer
  base : Nat
  readOffset : Nat
  fileSize : Nat
  eof : Bool
  mode : CutMode

/-- `&buffer[start..stop]`. -/
def sliceCells (buffer : CallerBuffer) (start stop : Nat) : Except StorageError CallerBuffer :=
  if start ≤ stop ∧ stop ≤ buffer.length then .ok (slice buffer ⟨start, stop⟩)
  else .error .abort

/-- The buffer with `cells` written from `start` on. -/
def overwrite (buffer : CallerBuffer) (start : Nat) (cells : CallerBuffer) : CallerBuffer :=
  buffer.take start ++ cells ++ buffer.drop (start + cells.length)

/-- `buffer[start..stop].copy_from_slice(cells)`. -/
def copyFromSlice (buffer : CallerBuffer) (start stop : Nat) (cells : CallerBuffer) :
    Except StorageError CallerBuffer :=
  if start ≤ stop ∧ stop ≤ buffer.length ∧ cells.length = stop - start then
    .ok (overwrite buffer start cells)
  else .error .abort

/-- `ContentHandle::read_window`: fills `want` cells of the buffer from `start` on with
the file's bytes from `offset` on, or fails. -/
def readWindow (file : Bytes) (buffer : CallerBuffer) (start want offset : Nat) :
    Except StorageError CallerBuffer :=
  if start + want > buffer.length then .error .abort
  else if offset + want > file.length then .error (.internal "read file for chunking")
  else .ok (overwrite buffer start ((slice file ⟨offset, offset + want⟩).map some))

namespace FileChunker

/-- `FileChunker::open`. -/
def opened (fileSize : Nat) (mode : CutMode) : FileChunker :=
  let capacity := min fileSize windowSize
  let singleRead : Bool := decide (fileSize ≤ windowSize)
  let headroom := if singleRead then 0 else fragmentSizeThreshold
  { window := .allocate capacity
    head := headroom
    length := 0
    headroom := headroom
    decided := 0
    ready := []
    failed := false
    pending := none
    spare := if singleRead then none else some (.allocate capacity)
    base := 0
    readOffset := 0
    fileSize := fileSize
    eof := false
    mode := mode }

/-- `FileChunker::content_defined`. -/
def contentDefined (fileSize : Nat) : FileChunker := opened fileSize .contentDefined

/-- `FileChunker::fixed_size`. -/
def fixedSize (fileSize chunkSize : Nat) : FileChunker :=
  opened fileSize (.fixedSize (min (max chunkSize 1) fragmentSizeThreshold))

section

variable (cut : Bytes → Nat) (file : Bytes)

variable (chunker : FileChunker)

/-- `start_read`. -/
def startRead (buffer : CallerBuffer) : Except StorageError PendingRead := do
  let start := chunker.headroom
  let offset := chunker.readOffset
  let remaining := chunker.fileSize - offset
  let room ← subU64 buffer.length start
  let want := min room remaining
  .ok ⟨readWindow file buffer start want offset, want⟩

/-- The read to wait for in `take_read`: the one in flight, or one started now, into the
spare window or, where there is none, into the only window. -/
def pendingRead : Except StorageError (PendingRead × FileChunker) :=
  match chunker.pending with
  | some pending => .ok (pending, { chunker with pending := none })
  | none =>
      match chunker.spare with
      | some spare => do
          let pending ← chunker.startRead file spare
          .ok (pending, { chunker with spare := none })
      | none => do
          let pending ← chunker.startRead file chunker.window
          .ok (pending, { chunker with window := [] })

/-- `take_read`: the window just read, how many bytes were read, and the chunker past
them. -/
def takeRead : Except StorageError (CallerBuffer × Nat × FileChunker) := do
  let (pending, chunker) ← chunker.pendingRead file
  let buffer ← pending.result
  let readOffset := chunker.readOffset + pending.want
  .ok (buffer, pending.want, { chunker with
      readOffset := readOffset
      eof := chunker.eof || decide (readOffset ≥ chunker.fileSize) })

/-- `swap_in`: makes `buffer` the window, with the undecided remainder carried in front
of the bytes just read. -/
def swapIn (buffer : CallerBuffer) (read : Nat) : Except StorageError FileChunker := do
  let remainder ← subU64 chunker.length chunker.decided
  if remainder > chunker.headroom then .error .abort
  else
    let head := chunker.headroom - remainder
    let carried ← sliceCells chunker.window (chunker.head + chunker.decided)
      (chunker.head + chunker.length)
    let buffer ← copyFromSlice buffer head chunker.headroom carried
    .ok { chunker with
      window := buffer
      spare := some chunker.window
      base := chunker.base + chunker.decided
      head := head
      length := remainder + read
      decided := 0 }

/-- The loop of `cut_fixed` from `decided` on: the boundaries queued, and how far the
window is decided. -/
def cutFixed (head length : Nat) (eof : Bool) (size : Nat) :
    Nat → Nat → List (Nat × Nat) × Nat
  | 0, decided => ([], decided)
  | fuel + 1, decided =>
      if decided < length then
        let remaining := length - decided
        if remaining ≥ size ∨ eof then
          let take := if remaining ≥ size then size else remaining
          let (boundaries, last) := cutFixed head length eof size fuel (decided + take)
          ((head + decided, take) :: boundaries, last)
        else ([], decided)
      else ([], decided)

/-- The loop of `cut_on_content` from `decided` on, over the window's bytes. -/
def cutOnContent (head : Nat) (window : Bytes) (eof : Bool) :
    Nat → Nat → List (Nat × Nat) × Nat
  | 0, decided => ([], decided)
  | fuel + 1, decided =>
      if !eof ∧ decided + fragmentSizeThreshold > window.length then ([], decided)
      else if decided < window.length then
        let take := cut (window.drop decided)
        let (boundaries, last) := cutOnContent head window eof fuel (decided + take)
        ((head + decided, take) :: boundaries, last)
      else ([], decided)

/-- The boundaries the mode's loop queues, and how far it decides the window. -/
def decideCuts : Except StorageError (List (Nat × Nat) × Nat) :=
  match chunker.mode with
  | .contentDefined => do
      let cells ← sliceCells chunker.window chunker.head (chunker.head + chunker.length)
      let bytes ← assembled cells
      .ok (cutOnContent cut chunker.head bytes chunker.eof (chunker.length + 1) 0)
  | .fixedSize size =>
      .ok (cutFixed chunker.head chunker.length chunker.eof size (chunker.length + 1) 0)

/-- `cut`: queues every chunk the window can decide. -/
def cutWindow : Except StorageError FileChunker := do
  let (boundaries, decided) ← chunker.decideCuts cut
  let remainder ← subU64 chunker.length decided
  if remainder > chunker.headroom then .error .abort
  else .ok { chunker with ready := chunker.ready ++ boundaries, decided := decided }

/-- `issue_read`. -/
def issueRead : Except StorageError FileChunker :=
  if chunker.pending.isSome ∨ chunker.readOffset ≥ chunker.fileSize then .ok chunker
  else
    match chunker.spare with
    | none => .ok chunker
    | some target => do
        let pending ← chunker.startRead file target
        .ok { chunker with spare := none, pending := some pending }

/-- `advance`. -/
def advance : Except StorageError FileChunker := do
  let (buffer, read, chunker) ← chunker.takeRead file
  let chunker ← chunker.swapIn buffer read
  let chunker ← chunker.cutWindow cut
  chunker.issueRead file

/-- The chunk of a queued boundary, copied out of the window. -/
def handOut (offset length : Nat) : Except StorageError Chunk := do
  let cells ← sliceCells chunker.window offset (offset + length)
  let data ← assembled cells
  let position ← subU64 offset chunker.head
  .ok ⟨chunker.base + position, data⟩

/-- The loop of `next_chunk`. A failed call leaves the chunker failed. -/
def nextChunkLoop : Nat → FileChunker → Except StorageError (Option Chunk) × FileChunker
  | 0, chunker => (.error .exhausted, chunker)
  | fuel + 1, chunker =>
      match chunker.ready with
      | (offset, length) :: rest =>
          ((chunker.handOut offset length).map some, { chunker with ready := rest })
      | [] =>
          if chunker.eof then (.ok none, chunker)
          else
            match chunker.advance cut file with
            | .error e => (.error e, { chunker with failed := true })
            | .ok next => nextChunkLoop fuel next

/-- `next_chunk`. Every round but the last reads on, so there are no more rounds than
bytes in the file. -/
def nextChunk : Except StorageError (Option Chunk) × FileChunker :=
  if chunker.failed then
    (.error (.internal "chunker was used again after a read failure"), chunker)
  else nextChunkLoop cut file (chunker.fileSize + 2) chunker

/-- The chunks of repeated `next_chunk` calls up to the first `None`. -/
def chunks : Nat → FileChunker → Except StorageError (List Chunk)
  | 0, _ => .error .exhausted
  | fuel + 1, chunker =>
      match chunker.nextChunk cut file with
      | (.error e, _) => .error e
      | (.ok none, _) => .ok []
      | (.ok (some chunk), chunker) => do
          let rest ← chunks fuel chunker
          .ok (chunk :: rest)

end

end FileChunker

/-! ## Writing from a file -/

section

variable (host : Host) (mode : CompressionMode) (partition : Partition) (context : Context)
  (options : WriteOptions)

/-- The chunker `write_fragmented_from_file` opens. -/
def openChunker (size : Nat) : FileChunker :=
  match options.cutSize with
  | some step => FileChunker.fixedSize size step
  | none => FileChunker.contentDefined size

/-- `write_fragmented_from_file`. Every chunk holds at least one byte, so there are no
more chunks than bytes. -/
def writeFragmentedFromFile (file : Bytes) (store : ContentStore) :
    Except StorageError (Address × ContentStore) := do
  let size := file.length
  let chunks ← (openChunker options size).chunks host.cut file (size + 1)
  let (list, store) ← storeChunks host mode partition context options
    (chunks.map fun chunk => leafTask options chunk.data chunk.offset) store
  writeChunkList host mode partition context options list size store

/-- `write_from_file`. -/
def writeFromFile (file : Bytes) (store : ContentStore) :
    Except StorageError (Address × ContentStore) :=
  let size := file.length
  if size = 0 then .ok (⟨0#256, context⟩, store)
  else if size ≤ fragmentSizeThreshold then
    writeSingleFragment host mode partition context options file store
  else writeFragmentedFromFile host mode partition context options file store

end

end Lore.Storage
