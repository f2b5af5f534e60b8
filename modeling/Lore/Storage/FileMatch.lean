import Lore.Storage.Chunker

/-!
# FileMatch — comparing a file against stored content

`file_matches` asks whether a file still holds the content an address names. Small
content is settled by one hash of the whole file, larger content by walking the
fragment lists the store holds for the address: each chunk's range of the file is
hashed and compared with the hash the list records. The walk takes an entry for a
list when its range is wider than a fragment, and splices the list's entries in its
place. There is no remote session. A file that can be read at all is read whole and
does not change meanwhile, and the buffers of the windows are left out.
-/

namespace Lore.Storage

open Lore.Lib

/-- `FileMatch`. -/
inductive FileMatch where
  | matched
  | differs
  | indeterminate
  | unreadable
deriving DecidableEq, Repr

/-- `ContentSource`: the bytes of a file, `none` for one that can not be read, or content
named by its address. -/
inductive ContentSource where
  | file (content : Option Bytes)
  | virtualImmutable (address : Address) (size : Nat)
deriving DecidableEq, Repr

/-- `ContentSource::size`. -/
def ContentSource.size : ContentSource → Option Nat
  | .file content => content.map List.length
  | .virtualImmutable _ size => some size

/-- `ReadOptions::no_decompress`. -/
def ReadOptions.noDecompress (options : ReadOptions) : ReadOptions :=
  { options with decompress := false }

/-! ## What is already known of the file -/

/-- `ContentHashes`: what comparing the file established about it. -/
structure ContentHashes where
  whole : Option Hash
  chunked : Option Hash
deriving DecidableEq, Repr

/-- `ContentHashes::default()`. -/
def ContentHashes.default : ContentHashes := ⟨none, none⟩

/-- How a hash of the file compares to the hash asked for. -/
def compareHash (hash previous : Hash) : FileMatch :=
  if hash = previous then .matched else .differs

/-- `ContentHashes::decides`. -/
def ContentHashes.decides (established : ContentHashes) (previous : Address)
    (previousSize : Option Nat) (fileSize : Nat) : Option FileMatch :=
  if previousSize.any (· != fileSize) then some .differs
  else if fileSize = 0 then some (if isZero previous.hash then .matched else .differs)
  else if isZero previous.hash then some .differs
  else if fileSize ≤ fragmentSizeMinimum then
    established.whole.map (compareHash · previous.hash)
  else none

section

variable (host : Host) (store : ContentStore) (partition : Partition)

/-- `whole_content_hash`. -/
def wholeContentHash (file : Bytes) (established : ContentHashes) : Hash × ContentHashes :=
  match established.whole with
  | some hash => (hash, established)
  | none => (host.hash file, { established with whole := some (host.hash file) })

/-- `whole_content_matches`. -/
def wholeContentMatches (file : Bytes) (previous : Hash) (established : ContentHashes) :
    FileMatch × ContentHashes :=
  let (hash, established) := wholeContentHash host file established
  (compareHash hash previous, established)

/-- `chunked_content_hash`. -/
def chunkedContentHash (context : Context) (file : Bytes) (established : ContentHashes) :
    Except StorageError (Hash × ContentHashes) :=
  match established.chunked with
  | some hash => .ok (hash, established)
  | none => do
      let (address, _) ← writeFragmentedFromFile host .notSpecified partition context
        { WriteOptions.default with hashOnly := true } file store
      .ok (address.hash, { established with chunked := some address.hash })

/-- `hashed_under_current_chunking`. -/
def hashedUnderCurrentChunking (previous : Address) (file : Bytes)
    (established : ContentHashes) : Except StorageError (FileMatch × ContentHashes) := do
  let (hash, established) ← chunkedContentHash host store partition previous.context file
    established
  .ok (if hash = previous.hash then .matched else .indeterminate, established)

/-- `stored_as_one_fragment`. -/
def storedAsOneFragment (previous : Address) : Bool :=
  match store partition previous with
  | some (fragment, _) => !fragment.isFragmented
  | none => false

end

/-! ## Windows of the file -/

/-- `HASH_WINDOW_SIZE`. -/
def hashWindowSize : Nat := 2 * fragmentSizeThreshold

/-- `HashWindow`: bytes of the file that are resident, and where they start in it. -/
structure HashWindow where
  offset : Nat
  data : Bytes
deriving DecidableEq, Repr

namespace HashWindow

/-- `HashWindow::end`. -/
def stop (window : HashWindow) : Nat := window.offset + window.data.length

/-- `HashWindow::holds`. -/
def holds (window : HashWindow) (start stop : Nat) : Bool :=
  decide (start ≥ window.offset) && decide (stop ≤ window.stop)

/-- `HashWindow::slice`. -/
def slice (window : HashWindow) (start stop : Nat) : Except StorageError Bytes := do
  let base ← subU64 start window.offset
  let length ← subU64 stop start
  if base + length ≤ window.data.length then .ok (Lib.slice window.data ⟨base, base + length⟩)
  else .error .abort

end HashWindow

/-- A read in flight: what it delivers, and the offset it reads at. -/
structure WindowRead where
  result : Except StorageError Bytes
  offset : Nat

/-- `window_length`. -/
def windowLength (fileSize offset : Nat) : Except StorageError Nat := do
  let remaining ← subU64 fileSize offset
  .ok (min remaining hashWindowSize)

/-- `start_window_read` of a whole window. -/
def startWindowRead (file : Bytes) (offset : Nat) : Except StorageError WindowRead := do
  let want ← windowLength file.length offset
  .ok ⟨if offset + want ≤ file.length then .ok (slice file ⟨offset, offset + want⟩)
    else .error (.internal "read file"), offset⟩

/-! ## The walk over the chunks

The walk never looks back, so it is given the entries from the current one on. -/

/-- `chunk_end`: where the current chunk ends. -/
def chunkEnd (current : FragmentReference) (later : List FragmentReference) (fileSize : Nat) :
    Option Nat :=
  let stop := match later with
    | next :: _ => next.offsetContent.toNat
    | [] => fileSize
  if stop ≥ current.offsetContent.toNat then some stop else none

/-- `next_window_offset`. -/
def nextWindowOffset (windowEnd fileSize : Nat) : List FragmentReference → Option Nat
  | [] => none
  | chunk :: later =>
      match chunkEnd chunk later fileSize with
      | none => none
      | some stop =>
          if stop ≤ windowEnd then nextWindowOffset windowEnd fileSize later
          else if stop ≤ fileSize ∧ stop - chunk.offsetContent.toNat ≤ fragmentSizeThreshold then
            some chunk.offsetContent.toNat
          else none

/-- The read that fills the window at `start`: the one in flight where it reads there, and
a new one otherwise. -/
def readAt (file : Bytes) (start : Nat) (pending : Option WindowRead) :
    Except StorageError WindowRead :=
  match pending with
  | some read => if read.offset = start then .ok read else startWindowRead file start
  | none => startWindowRead file start

/-- The window for the chunk at the front of `chunks` where the one held does not hold it.
The next read is started. -/
def readResident (file : Bytes) (chunks : List FragmentReference) (start : Nat)
    (pending : Option WindowRead) : Except StorageError (HashWindow × Option WindowRead) := do
  let read ← readAt file start pending
  let data ← read.result
  let resident : HashWindow := ⟨start, data⟩
  match nextWindowOffset resident.stop file.length chunks with
  | some offset => do
      let next ← startWindowRead file offset
      .ok (resident, some next)
  | none => .ok (resident, none)

/-- The window the current chunk is hashed in. -/
def residentWindow (file : Bytes) (chunks : List FragmentReference) (start stop : Nat)
    (window : Option HashWindow) (pending : Option WindowRead) :
    Except StorageError (HashWindow × Option WindowRead) :=
  match window with
  | some resident =>
      if resident.holds start stop then .ok (resident, pending)
      else readResident file chunks start pending
  | none => readResident file chunks start pending

section

variable (host : Host) (store : ContentStore) (partition : Partition)

/-- The loop of `compare_previous_chunks`. A list in the store that contains itself would
make it run forever. -/
def compareChunks (context : Context) (file : Bytes) :
    Nat → List FragmentReference → Option HashWindow → Option WindowRead →
      Except StorageError FileMatch
  | _, [], _, _ => .ok .matched
  | 0, _ :: _, _, _ => .error .exhausted
  | fuel + 1, current :: later, window, pending =>
      let start := current.offsetContent.toNat
      match chunkEnd current later file.length with
      | none => .ok .indeterminate
      | some stop =>
          if stop - start > fragmentSizeThreshold then
            match loadFragment host store partition ⟨current.hash, context⟩
              ReadOptions.default.noDecompress with
            | .error _ => .ok .indeterminate
            | .ok (subFragment, subPayload) =>
                if !subFragment.isFragmented then .ok .indeterminate
                else compareChunks context file fuel (asReferences subPayload ++ later) window
                  pending
          else if stop > file.length then .ok .indeterminate
          else do
            let (resident, pending) ← residentWindow file (current :: later) start stop window
              pending
            let bytes ← resident.slice start stop
            if host.hash bytes ≠ current.hash then .ok .differs
            else compareChunks context file fuel later (some resident) pending

/-- `compare_previous_chunks`. -/
def comparePreviousChunks (fuel : Nat) (context : Context) (file : Bytes)
    (previousFragmentation : List FragmentReference) : Except StorageError FileMatch :=
  compareChunks host store partition context file fuel previousFragmentation none none

/-! ## The comparison -/

/-- `file_matches` for a file whose size and what is known of it do not settle it. -/
def storedMatches (fuel : Nat) (previous : Address) (file : Bytes)
    (established : ContentHashes) : Except StorageError (FileMatch × ContentHashes) :=
  let fileSize := file.length
  if fileSize ≤ fragmentSizeMinimum ∨
      (fileSize ≤ fragmentSizeThreshold ∧ storedAsOneFragment store partition previous) then
    .ok (wholeContentMatches host file previous.hash established)
  else
    match loadFragment host store partition previous ReadOptions.default.noDecompress with
    | .error _ =>
        if fileSize ≤ fragmentSizeThreshold then
          match wholeContentMatches host file previous.hash established with
          | (.matched, established) => .ok (.matched, established)
          | (_, established) =>
              hashedUnderCurrentChunking host store partition previous file established
        else hashedUnderCurrentChunking host store partition previous file established
    | .ok (fragment, payload) =>
        if fragment.sizeContent.toNat ≠ fileSize then .ok (.differs, established)
        else if !fragment.isFragmented then
          .ok (wholeContentMatches host file previous.hash established)
        else if (asReferences payload).isEmpty then
          hashedUnderCurrentChunking host store partition previous file established
        else do
          match ← comparePreviousChunks host store partition fuel previous.context file
            (asReferences payload) with
          | .indeterminate =>
              hashedUnderCurrentChunking host store partition previous file established
          | settled => .ok (settled, established)

/-- `file_matches`. -/
def fileMatches (fuel : Nat) (previous : Address) (previousSize : Option Nat)
    (source : ContentSource) (established : ContentHashes) :
    Except StorageError (FileMatch × ContentHashes) :=
  match source.size with
  | none => .ok (.unreadable, established)
  | some fileSize =>
      match established.decides previous previousSize fileSize with
      | some settled => .ok (settled, established)
      | none =>
          match source with
          | .virtualImmutable address _ =>
              .ok (compareHash address.hash previous.hash, established)
          | .file none => .ok (.unreadable, established)
          | .file (some file) => storedMatches host store partition fuel previous file established

end

end Lore.Storage
