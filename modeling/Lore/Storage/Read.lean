import Lore.Storage.Walk

/-!
# Read — the two ways content is reassembled

`read` loads a root and assembles the range it was asked for into a buffer of the
range's length, through `read_defragment`; `read_stream` sends it leaf by leaf,
through the walk and the ordered fetch pool of `defragment_pipeline`. The buffer
is modelled cell by cell, a cell being `none` until it is written, so that a read
that would hand out memory nothing has written shows. The pieces of one list are
read concurrently in the source into disjoint parts of the buffer; the read fails
when any of them does.
-/

namespace Lore.Storage

open Lore.Lib

/-- `CallerBuffer`: the memory a read writes into. -/
abbrev CallerBuffer := List (Option UInt8)

/-- `CallerBuffer::allocate`: nothing written yet. -/
def CallerBuffer.allocate (len : Nat) : CallerBuffer := List.replicate len none

/-- The buffer once `bytes` were copied over its start. -/
def CallerBuffer.place (dst : CallerBuffer) (bytes : Bytes) : CallerBuffer :=
  bytes.map some ++ dst.drop bytes.length

/-- `assembled`: the content of a buffer. Reading a cell that was never written is
undefined behaviour in the source, an `abort` here. -/
def assembled (content : CallerBuffer) : Except StorageError Bytes :=
  match content.mapM id with
  | some bytes => .ok bytes
  | none => .error .abort

/-- `resolve_content_range`. -/
def resolveContentRange (range : Option Span) (sizeContent : Nat) : Span :=
  match range with
  | some range =>
      let start := min range.start sizeContent
      ⟨start, max (min range.stop sizeContent) start⟩
  | none => ⟨0, sizeContent⟩

/-- `check_max_content_size`. -/
def checkMaxContentSize (fragment : Fragment) (maxContentSize : Option Nat) :
    Except StorageError Unit :=
  let sizeContent := fragment.sizeContent.toNat
  match maxContentSize with
  | some maximum =>
      if sizeContent > maximum then
        .error (.oversized
          s!"fragment size_content {sizeContent} exceeds caller-supplied max {maximum}")
      else .ok ()
  | none => .ok ()

/-- `validate_buffer_capacity`. -/
def validateBufferCapacity (size capacity : Nat) : Except StorageError Unit :=
  if size > capacity then
    .error (.oversized s!"content of {size} bytes exceeds the {capacity} byte destination buffer")
  else .ok ()

/-- `copy_into_buffer`. -/
def copyIntoBuffer (bytes : Bytes) (dst : CallerBuffer) :
    Except StorageError (Nat × CallerBuffer) := do
  validateBufferCapacity bytes.length dst.length
  .ok (bytes.length, dst.place bytes)

/-- `cut_content`. -/
def cutContent (buffer : Bytes) (range : Span) : Except StorageError Bytes :=
  let start := range.start
  let stop := range.stop
  let len := buffer.length
  if stop > len then
    .error (.internal s!"content range {start}..{stop} reaches past the {len} byte root")
  else .ok (slice buffer range)

/-! ## Assembling into a buffer -/

/-- The shape of `read_defragment`: the range counted from the start of the list's
content, the list's fragment and bytes, the target and the depth. -/
abbrev Defragment := Span → Fragment → Bytes → CallerBuffer → Nat → Except StorageError CallerBuffer

/-- Where `content_payload_for_buffer` left the payload of an address. -/
inductive BufferPayload where
  | placed (dst : CallerBuffer)
  | stored (payload : Bytes)

section

variable (host : Host) (store : ContentStore) (partition : Partition) (context : Context)
  (options : ReadOptions)

/-- `content_payload_for_buffer` with no remote session: `get_into` of the local
store. A payload too large for the buffer fails the read, and so does any other
failure, as a miss. -/
def contentPayloadForBuffer (address : Address) (dst : CallerBuffer) :
    Except StorageError (Fragment × BufferPayload) :=
  match store partition address with
  | none => .error (.addressNotFound address)
  | some (fragment, payload) =>
      match validateFragmentPayload fragment payload.length with
      | .error e => .error (if e.isOversized then e else .addressNotFound address)
      | .ok () =>
          if payloadIsContent fragment then do
            validateBufferCapacity payload.length dst.length
            .ok (fragment, .placed (dst.place payload))
          else .ok (fragment, .stored payload)

/-- `deliver_root_into_buffer`, for a fragment list and its whole content. -/
def deliverRootIntoBuffer (recur : Defragment) (fragment : Fragment) (buffer : Bytes)
    (dst : CallerBuffer) (depth : Nat) : Except StorageError (Nat × CallerBuffer) := do
  let content := resolveContentRange none fragment.sizeContent.toNat
  if content.isEmpty then .ok (0, dst)
  else
    validateBufferCapacity content.length dst.length
    let filled ← recur content fragment buffer (dst.take content.length) depth
    .ok (content.length, filled ++ dst.drop content.length)

/-- `read_content_into_buffer`: the whole content of an address into the start of
`dst`, with the number of bytes written. `none` leaves the read to the caller. -/
def readContentIntoBuffer (recur : Defragment) (address : Address) (dst : CallerBuffer)
    (depth : Nat) : Except StorageError (Option (Nat × CallerBuffer)) := do
  let (fragment, payload) ← contentPayloadForBuffer store partition address dst
  let sizeContent := fragment.sizeContent.toNat
  match payload with
  | .placed dst =>
      checkMaxContentSize fragment options.maxContentSize
      .ok (some (sizeContent, dst))
  | .stored payload =>
      if (checkPayloadSizes fragment payload.length).isOk then
        checkMaxContentSize fragment options.maxContentSize
        if fragment.isCompressed then
          validateBufferCapacity sizeContent dst.length
          match decompressInto host fragment payload sizeContent with
          | .ok (_, content) => .ok (some (sizeContent, dst.place content))
          | .error _ => .ok none
        else if fragment.isFragmented then
          let delivered ← deliverRootIntoBuffer recur fragment payload dst depth
          .ok (some delivered)
        else
          let written ← copyIntoBuffer payload dst
          .ok (some written)
      else .ok none

/-- `place_whole_leaf`: reads the content of `address` into `target`'s own memory,
or leaves it to be loaded and cut. What a failed attempt left in the target is
overwritten by whoever takes over, so the target is returned as it was. -/
def placeWholeLeaf (recur : Defragment) (address : Address) (range : Span)
    (target : CallerBuffer) (depth : Nat) : Except StorageError (Bool × CallerBuffer) :=
  if range.start ≠ 0 then .ok (false, target)
  else
    match readContentIntoBuffer host store partition options recur address target depth with
    | .ok (some (written, filled)) =>
        if written = target.length then .ok (true, filled) else .ok (false, target)
    | .ok none => .ok (false, target)
    | .error e => if e.isOversized then .ok (false, target) else .error e

/-- The second half of `read_defragment_subread`: the fragment of the entry is loaded,
and its list is read or its leaf is cut. -/
def loadPiece (recur : Defragment) (address : Address) (range : Span) (target : CallerBuffer)
    (depth : Nat) : Except StorageError CallerBuffer := do
  let (fragment, buffer) ← loadFragment host store partition address options
  if fragment.isFragmented then recur range fragment buffer target depth
  else
    let start := range.start
    let stop := range.stop
    let len := buffer.length
    let available := target.length
    if start > stop ∨ stop > len then
      .error (.internal s!"unexpected size: buffer {len} vs range {start}..{stop}")
    else
      let leaf := slice buffer range
      let size := leaf.length
      if size > available then
        .error (.internal s!"unexpected size: target {available} vs range {size}")
      else .ok (target.place leaf)

/-- `read_defragment_subread`: one entry's piece of the range. -/
def readDefragmentSubread (recur : Defragment) (address : Address) (range : Span)
    (target : CallerBuffer) (depth : Nat) : Except StorageError CallerBuffer := do
  let (whole, target) ←
    placeWholeLeaf host store partition options recur address range target depth
  if whole then .ok target
  else loadPiece host store partition options recur address range target depth

/-- The loop of `read_defragment`, back to front over the `indices` left: each
entry fills the end of what is left of the target. Returns how much of the range
is still in no entry, and the target. -/
def readEntries (subread : Address → Span → CallerBuffer → Except StorageError CallerBuffer)
    (fragmentList : List FragmentReference) (offset : Nat) :
    List Nat → Nat → CallerBuffer → Except StorageError (Nat × CallerBuffer)
  | [], targetEnd, target => .ok (targetEnd, target)
  | index :: rest, targetEnd, target =>
      if targetEnd = 0 then .ok (targetEnd, target)
      else do
        let entry ← indexSlice fragmentList index
        let fragmentOffset := entry.offsetContent.toNat
        let endOffset ← addU64 offset targetEnd
        if fragmentOffset > endOffset then .ok (targetEnd, target)
        else
          let whole := endOffset - fragmentOffset
          let toRead := if whole > targetEnd then targetEnd else whole
          let localOffset := if whole > targetEnd then offset - fragmentOffset else 0
          let splitPoint ← subU64 target.length toRead
          let filled ← subread ⟨entry.hash, context⟩ ⟨localOffset, localOffset + toRead⟩
            (target.drop splitPoint)
          let (left, before) ← readEntries subread fragmentList offset rest
            (targetEnd - toRead) (target.take splitPoint)
          .ok (left, before ++ filled)

/-- The body of `read_defragment`, given the reader of the lists below. -/
def readDefragmentBody (recur : Defragment) : Defragment :=
  fun range fragment sourceBuffer target depth =>
    let size := sourceBuffer.length
    if depth > 16 then .error (.internal "defragment recursion depth exceeded")
    else if size < fragment.sizePayload.toNat then .error (.internal "insufficient buffer")
    else
      match asReferences sourceBuffer with
      | [] =>
          .error (.internal s!"Defragmenting malformed fragment list, size {size} is too small")
      | head :: rest =>
          let base := head.offsetContent.toNat
          match checkedAdd range.start base, checkedAdd base fragment.sizeContent.toNat with
          | none, _ => .error (.internal "fragment offset overflow")
          | _, none => .error (.internal "fragment list content window overflows")
          | some offset, some levelEnd => do
              let len := min range.length target.length
              let windowStop ← addU64 offset len
              let wanted ← wantedEntries (head :: rest) levelEnd ⟨offset, windowStop⟩
              let entries := wanted.getD ⟨0, 0⟩
              let (left, filled) ← readEntries context
                (fun address subrange subtarget =>
                  readDefragmentSubread host store partition options recur address subrange
                    subtarget (depth + 1))
                (head :: rest) offset
                (List.range' entries.start (entries.stop - entries.start)).reverse len target
              if left ≠ 0 then
                .error (.internal
                  s!"Defragmenting malformed fragment list, {left} bytes of the range are in no entry")
              else .ok filled

/-- `read_defragment`. The first argument bounds the model's recursion. -/
def readDefragment : Nat → Defragment
  | 0 => fun _ _ _ _ _ => .error .exhausted
  | fuel + 1 =>
      readDefragmentBody host store partition context options (readDefragment fuel)

/-- The recursion bound of a read: one call for every depth up to the first refused. -/
def readFuel : Nat := 18

/-! ## Reading content -/

/-- `load_root`. -/
def loadRoot (address : Address) : Except StorageError (Fragment × Bytes) := do
  let (fragment, buffer) ← loadFragment host store partition address options.withDecompress
  checkMaxContentSize fragment options.maxContentSize
  .ok (fragment, buffer)

/-- `read_root_content`. -/
def readRootContent (fragment : Fragment) (buffer : Bytes) (range : Option Span) :
    Except StorageError Bytes := do
  let range := resolveContentRange range fragment.sizeContent.toNat
  if range.isEmpty then .ok []
  else if fragment.isFragmented then
    let content ← readDefragment host store partition context options readFuel range fragment
      buffer (CallerBuffer.allocate range.length) 0
    assembled content
  else cutContent buffer range

/-- `read`: the fragment describing the whole content, and the bytes of the range. -/
def read (address : Address) (range : Option Span) :
    Except StorageError (Fragment × Bytes) := do
  let (fragment, buffer) ← loadRoot host store partition options address
  let content ← readRootContent host store partition address.context options.withDecompress
    fragment buffer range
  .ok (fragment, content)

/-! ## Streaming content -/

/-- One leaf of the ordered fetch pool: loaded, checked to be a leaf of the size its
list claims (`content_leaf`), and cut to the part asked for. -/
def fetchLeaf (leaf : LeafReference) : Except StorageError Bytes := do
  let (fragment, buffer) ← loadFragment host store partition ⟨leaf.hash, leaf.context⟩
    options.withDecompress
  let size := buffer.length
  let expected := leaf.expectedSize
  if fragment.isFragmented then
    .error (.internal "expected leaf fragment but peer returned an intermediate fragment list")
  else if size ≠ expected then
    .error (.internal s!"leaf fragment content size {size} does not match expected {expected}")
  else .ok (slice buffer leaf.clip)

/-- `defragment_pipeline` into a stream whose consumer takes every item: the payloads
in content order, or the failure that ends the stream. -/
def defragmentPipeline (fragment : Fragment) (sourceBuffer : Bytes) (range : Span) :
    Except StorageError (List Bytes) :=
  match walkFragmentTree host store partition context options fragment sourceBuffer range
      none Outbox.fresh with
  | (.error e, _) => .error e
  | (.ok (), outbox) => outbox.sent.mapM (fetchLeaf host store partition options)

/-- `read_stream`: the fragment, the range streamed and the payloads sent. -/
def readStream (address : Address) (range : Option Span) :
    Except StorageError (Fragment × Span × List Bytes) := do
  let (fragment, buffer) ← loadRoot host store partition options address
  let streamed := resolveContentRange range fragment.sizeContent.toNat
  if streamed.isEmpty then .ok (fragment, streamed, [])
  else if fragment.isFragmented then
    let payloads ← defragmentPipeline host store partition address.context
      options.withDecompress fragment buffer streamed
    .ok (fragment, streamed, payloads)
  else
    let content ← cutContent buffer streamed
    .ok (fragment, streamed, [content])

end

end Lore.Storage
