import Lore.Lib.Producer
import Lore.Storage.Load

/-!
# Walk — the streaming walk over a fragment tree

`walk_fragment_tree` and what it is made of: the windows a list gives its
entries, the entries a read wants, the leaf level, the coverage check of a
sublist, and the intermediate level. The walk sends the leaves it reaches to the
fetch pool, whose end of the queue may go away at any time; that is the
`Producer` it is modelled as. The loads of an intermediate level run ahead of
the walk in the source; the store does not change under a walk, so the model
loads each child where its result is used.
-/

namespace Lore.Storage

open Lore.Lib

/-- Leaf fragment reference yielded by the tree walker to the fetch pool. -/
structure LeafReference where
  hash : Hash
  targetOffset : Nat
  expectedSize : Nat
  clip : Span
  context : Context
deriving DecidableEq, Repr

/-- `MAX_FRAGMENT_TREE_DEPTH`. -/
def maxFragmentTreeDepth : Nat := 8

/-- `slice[index]`, which aborts past the end of the slice. -/
def indexSlice {α : Type} (list : List α) (index : Nat) : Except StorageError α :=
  match list[index]? with
  | some x => .ok x
  | none => .error .abort

section

variable (fragmentList : List FragmentReference)

/-- Where the entry after `index` starts, or the level's end after the last entry. -/
def entryStop (index levelEnd : Nat) : Nat :=
  match fragmentList[index + 1]? with
  | some next => next.offsetContent.toNat
  | none => levelEnd

/-- `entry_window`: the absolute content window one entry of a list stands for. -/
def entryWindow (index levelEnd : Nat) : Except StorageError Span := do
  let entry ← indexSlice fragmentList index
  let start := entry.offsetContent.toNat
  if isZero entry.hash then
    .error (.internal
      s!"fragment list entry {index} at content offset {start} has a zero hash")
  else
    let stop := entryStop fragmentList index levelEnd
    match checkedSub stop start with
    | none =>
        .error (.internal
          "fragment list offset_content is not strictly increasing inside content window")
    | some size =>
        if size = 0 then .error (.internal "fragment list chunk has zero size")
        else .ok ⟨start, stop⟩

/-- `clip_to_window`: the part of `entry` that `window` asks for, relative to the
entry's own start. -/
def clipToWindow (entry window : Span) : Except StorageError (Option Span) :=
  let start := max entry.start window.start
  let stop := min entry.stop window.stop
  if start < stop then do
    let clipStart ← subU64 start entry.start
    let clipStop ← subU64 stop entry.start
    .ok (some ⟨clipStart, clipStop⟩)
  else .ok none

/-- One round of `wanted_entries`. -/
def wantEntry (levelEnd : Nat) (window : Span)
    (wanted : Option Span) (index : Nat) : Except StorageError (Option Span) := do
  let entry ← entryWindow fragmentList index levelEnd
  let clip ← clipToWindow entry window
  match clip, wanted with
  | none, _ => .ok wanted
  | some _, some range => .ok (some ⟨range.start, index + 1⟩)
  | some _, none => .ok (some ⟨index, index + 1⟩)

/-- `wanted_entries`: the contiguous index range of the entries `window` reaches,
checking every entry. -/
def wantedEntries (levelEnd : Nat) (window : Span) : Except StorageError (Option Span) :=
  (List.range fragmentList.length).foldlM (wantEntry fragmentList levelEnd window) none

end

/-- `sublist_coverage`: a sublist covers exactly the window its parent entry has. -/
def sublistCoverage (parent : FragmentReference) (subList : List FragmentReference)
    (subContentSize : Nat) (window : Span) : Except StorageError Unit :=
  let offset := parent.offsetContent.toNat
  let start := window.start
  let stop := window.stop
  if isZero parent.hash then
    .error (.internal s!"fragment list entry at content offset {start} has a zero hash")
  else if offset ≠ start ∨ stop < start then
    .error (.internal
      s!"fragment list entry at content offset {offset} is given the window {start}..{stop}")
  else
    match subList with
    | [] => .error (.internal s!"fragment sublist at offset {start} is empty")
    | first :: _ =>
        let firstOffset := first.offsetContent.toNat
        if subContentSize = 0 then
          .error (.internal s!"fragment sublist at offset {start} expands to zero bytes")
        else if firstOffset ≠ offset then
          .error (.internal
            s!"fragment sublist starts at {firstOffset} but its parent entry places it at {offset}")
        else
          match checkedAdd offset subContentSize with
          | none =>
              .error (.internal "fragment sublist offset + content size overflows u64")
          | some sum =>
              if sum ≠ stop then do
                let given ← subU64 stop start
                .error (.internal
                  s!"fragment sublist at content offset {start} expands to {subContentSize} bytes but its parent's list gives it {given}")
              else .ok ()

section

open Producer

variable (host : Host) (store : ContentStore) (partition : Partition) (context : Context)
  (options : ReadOptions)

/-- The loop of `walk_leaf_level` over the remaining `indices`. -/
def walkLeafEntries (fragmentList : List FragmentReference) (contentEnd : Nat) (window : Span) :
    List Nat → Producer StorageError LeafReference
  | [] => done
  | index :: rest =>
      require (indexSlice fragmentList index) fun fragRef =>
      require (entryWindow fragmentList index contentEnd) fun entry =>
      require (subU64 entry.stop entry.start) fun expectedContentSize =>
      if expectedContentSize > fragmentSizeThreshold then
        fail (.internal
          s!"fragment list chunk size {expectedContentSize} exceeds FRAGMENT_SIZE_THRESHOLD {fragmentSizeThreshold}")
      else
        require (clipToWindow entry window) fun
          | none => walkLeafEntries fragmentList contentEnd window rest
          | some clip =>
              unlessClosed <|
              require (addU64 entry.start clip.start) fun position =>
              require (subU64 position window.start) fun targetOffset =>
              andThen
                (send
                  { hash := fragRef.hash
                    targetOffset := targetOffset
                    expectedSize := expectedContentSize
                    clip := clip
                    context := context })
                (walkLeafEntries fragmentList contentEnd window rest)

/-- `walk_leaf_level`: yields the entries of a leaf-level list that `window` reaches. -/
def walkLeafLevel (fragmentList : List FragmentReference) (totalContentSize baseOffset : Nat)
    (window : Span) : Producer StorageError LeafReference :=
  match checkedAdd baseOffset totalContentSize with
  | none =>
      fail (.internal "fragment list base_offset + total_content_size overflows u64")
  | some contentEnd =>
      walkLeafEntries context fragmentList contentEnd window (List.range fragmentList.length)

/-- The walk of one level, as the intermediate level calls it for a child's list:
the list, the content size it claims, the window and the depth. -/
abbrev LevelWalk := List FragmentReference → Nat → Span → Nat → Producer StorageError LeafReference

/-- A child of an intermediate level read as a list and checked against the entry
naming it: its references, its content size and its window. -/
def openSublist (fragmentList : List FragmentReference) (levelEnd index : Nat)
    (subFrag : Fragment) (subBuf : Bytes) :
    Except StorageError (List FragmentReference × Nat × Span) := do
  if subBuf.length < subFrag.sizePayload.toNat then
    .error (.internal "insufficient buffer")
  else
    let subList := asReferences subBuf
    let subContentSize := subFrag.sizeContent.toNat
    let entry ← entryWindow fragmentList index levelEnd
    let parent ← indexSlice fragmentList index
    sublistCoverage parent subList subContentSize entry
    .ok (subList, subContentSize, entry)

/-- The walk of one child's list, a leaf level or one more level of lists. -/
def walkSublist (recur : LevelWalk) (childrenAreLeaves : Bool)
    (subList : List FragmentReference) (subContentSize : Nat) (window : Span) (depth : Nat) :
    Producer StorageError LeafReference :=
  if childrenAreLeaves then
    require (indexSlice subList 0) fun first =>
      walkLeafLevel context subList subContentSize first.offsetContent.toNat window
  else recur subList subContentSize window (depth + 1)

/-- One round of the loop of `walk_intermediate_level` over the remaining children. -/
def walkChild (recur : LevelWalk) (childrenAreLeaves : Bool)
    (fragmentList : List FragmentReference) (levelEnd : Nat) (window : Span) (depth : Nat)
    (index : Nat) : Producer StorageError LeafReference :=
  require (indexSlice fragmentList index) fun reference =>
  require (loadFragment host store partition ⟨reference.hash, context⟩ options) fun loaded =>
  require (openSublist fragmentList levelEnd index loaded.1 loaded.2) fun sub =>
    walkSublist context recur childrenAreLeaves sub.1 sub.2.1 window depth

/-- `walk_intermediate_level`: walks the children the window reaches. The tier of
all of them is settled by one peek below the first. -/
def walkIntermediateLevel (recur : LevelWalk) (fragmentList : List FragmentReference)
    (levelEnd : Nat) (window wanted : Span) (firstFrag : Fragment) (firstBuf : Bytes)
    (depth : Nat) : Producer StorageError LeafReference :=
  require (openSublist fragmentList levelEnd wanted.start firstFrag firstBuf) fun first =>
  require (wantedEntries first.1 first.2.2.stop window) fun
    | none =>
        let start := first.2.2.start
        fail (.internal
          s!"fragment sublist at content offset {start} holds none of the range it was entered for")
    | some peek =>
        require (indexSlice first.1 peek.start) fun peekReference =>
        require (loadFragment host store partition ⟨peekReference.hash, context⟩ options)
          fun peeked =>
        let childrenAreLeaves := !peeked.1.isFragmented
        andThen (walkSublist context recur childrenAreLeaves first.1 first.2.1 window depth)
          (forEachOpen
            (walkChild host store partition context options recur childrenAreLeaves
              fragmentList levelEnd window depth)
            (List.range' (wanted.start + 1) (wanted.stop - (wanted.start + 1))))

/-- `walk_fragment_level`: walks one level, as leaves or as lists by a peek at the
first entry the read reaches. The first argument bounds the model's recursion. -/
def walkFragmentLevel : Nat → LevelWalk
  | 0, _, _, _, _ => fail .exhausted
  | fuel + 1, fragmentList, totalContentSize, window, depth =>
      unlessClosed <|
      if depth > maxFragmentTreeDepth then
        fail (.internal s!"fragment tree recursion depth exceeded {maxFragmentTreeDepth}")
      else
        match fragmentList with
        | [] =>
            fail (.internal
              s!"fragment list is empty, claiming {totalContentSize} bytes of content")
        | head :: _ =>
            let baseOffset := head.offsetContent.toNat
            match checkedAdd baseOffset totalContentSize with
            | none =>
                fail (.internal
                  "fragment list base_offset + total_content_size overflows u64")
            | some levelEnd =>
                require (wantedEntries fragmentList levelEnd window) fun
                  | none => done
                  | some wanted =>
                      require (indexSlice fragmentList wanted.start) fun reference =>
                      require (loadFragment host store partition
                        ⟨reference.hash, context⟩ options) fun first =>
                      if first.1.isFragmented then
                        walkIntermediateLevel host store partition context options
                          (walkFragmentLevel fuel) fragmentList levelEnd window wanted
                          first.1 first.2 depth
                      else
                        walkLeafLevel context fragmentList totalContentSize baseOffset window

/-- `walk_fragment_tree` with its recursion bounded by `fuel`. -/
def walkFragmentTreeWith (fuel : Nat) (fragment : Fragment) (sourceBuffer : Bytes)
    (range : Span) : Producer StorageError LeafReference :=
  if sourceBuffer.length < fragment.sizePayload.toNat then
    fail (.internal "insufficient buffer")
  else
    let totalContentSize := fragment.sizeContent.toNat
    match asReferences sourceBuffer with
    | [] =>
        fail (.internal
          s!"fragment list is empty, claiming {totalContentSize} bytes of content")
    | head :: rest =>
        match checkedAdd head.offsetContent.toNat range.start,
            checkedAdd head.offsetContent.toNat range.stop with
        | some start, some stop =>
            walkFragmentLevel host store partition context options fuel (head :: rest)
              totalContentSize ⟨start, stop⟩ 0
        | _, _ => fail (.internal "content range offset overflow")

/-- `walk_fragment_tree`: a walk never calls itself below the first refused depth. -/
def walkFragmentTree (fragment : Fragment) (sourceBuffer : Bytes) (range : Span) :
    Producer StorageError LeafReference :=
  walkFragmentTreeWith host store partition context options (maxFragmentTreeDepth + 2)
    fragment sourceBuffer range

end

end Lore.Storage
