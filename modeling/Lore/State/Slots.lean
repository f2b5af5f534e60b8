import Mathlib.Data.List.Defs
import Mathlib.Logic.Function.Basic

/-!
# Slots — the slot allocator of a State

A node's slot is taken from a block: from its free list, a list threaded through the
`sibling` words of its free slots, or past its `node_count`. The blocks with room form the
unused chain, threaded through `block_unused_next` from the tree's `block_unused_first`. A
grab takes a slot of the head under the head's lock alone; the chain changes only under the
allocation permit: a full head is retired, and where the chain is empty the last block is
recycled or a fresh one made. A slot is freed under its block's lock; a full block that frees
one is marked, and the next save threads it behind the head.

Each step here is one hold of a lock, or one wait for the permit. Whether a block is in memory
is left open: a grab reads any head, and which block is the last in memory is the step's.
-/

namespace Lore.State

/-! ## Node ids -/

def blockNodeShift : Nat := 9

/-- `BLOCK_NODE_COUNT` -/
def blockNodeCount : Nat := 512

def rootNode : Nat := 0

def invalidNode : Nat := 0xFFFFFFFF

def invalidBlock : Nat := 0xFFFFFFFF

def maxTreeBlockCount : Nat := 1000000

/-- `NodeBlock::node_id` -/
def nodeId (blockIndex nodeIndex : Nat) : Nat := (blockIndex <<< blockNodeShift) ||| nodeIndex

/-- `NodeBlock::index` -/
def blockIndex (node : Nat) : Nat := node >>> blockNodeShift

/-- `Node::index` -/
def nodeIndex (node : Nat) : Nat := node &&& (blockNodeCount - 1)

def isValidNodeId (node : Nat) : Bool := node != rootNode && node != invalidNode

/-! ## A block -/

/-- What the allocator reads and writes of a node block. -/
structure NodeBlock where
  nodeCount : Nat
  nodeUnusedCount : Nat
  nodeUnused : Nat
  /-- The `sibling` of each node: a free slot's is the next free slot. -/
  sibling : Nat → Nat
  blockUnusedNext : Nat
  /-- In memory only: the block freed a slot while it was full. -/
  firstUnusedNode : Bool
  dirty : Bool

namespace NodeBlock

def newZeroed : NodeBlock where
  nodeCount := 0
  nodeUnusedCount := 0
  nodeUnused := 0
  sibling _ := 0
  blockUnusedNext := invalidBlock
  firstUnusedNode := false
  dirty := false

def markDirty (block : NodeBlock) : NodeBlock := { block with dirty := true }

def isFull (block : NodeBlock) : Bool :=
  block.nodeUnusedCount == 0 && block.nodeCount == blockNodeCount

/-- The slots of the free list, in its order. -/
def freeList (block : NodeBlock) : List Nat :=
  List.iterate block.sibling block.nodeUnused block.nodeUnusedCount

def discardNode (block : NodeBlock) (blockIndex nodeIndex : Nat) : NodeBlock :=
  let freed : NodeBlock :=
    { block with
      firstUnusedNode := block.firstUnusedNode || block.isFull
      sibling := Function.update block.sibling nodeIndex
        (if 0 < block.nodeUnusedCount then block.nodeUnused else invalidNode)
      nodeUnused := nodeIndex
      nodeUnusedCount := block.nodeUnusedCount + 1 }
  -- The first block's root is never counted as used.
  let reserved := if blockIndex = 0 then 1 else 0
  if freed.nodeCount - reserved = freed.nodeUnusedCount then
    { freed with nodeUnused := 0, nodeUnusedCount := 0, nodeCount := reserved }
  else freed

def grabNodeUnused (block : NodeBlock) (blockIndex : Nat) : NodeBlock × Nat :=
  if 0 < block.nodeUnusedCount then
    let index := nodeIndex block.nodeUnused
    ({ block with
        nodeUnused := block.sibling index
        nodeUnusedCount := block.nodeUnusedCount - 1
        sibling := Function.update block.sibling index 0 },
      nodeId blockIndex index)
  else if block.nodeCount < blockNodeCount then
    ({ block with
        nodeCount := block.nodeCount + 1
        sibling := Function.update block.sibling block.nodeCount 0 },
      nodeId blockIndex block.nodeCount)
  else (block, invalidNode)

end NodeBlock

/-! ## The allocator -/

/-- How far a `grab_node_slot` has come. -/
inductive Grab where
  /-- Not begun, or back at the top of its loop. -/
  | idle
  /-- It read the head of the chain. -/
  | headed (head : Nat)
  /-- The head is a block of the tree, from which it takes a slot. -/
  | found (head : Nat)
  /-- The head had no slot left; it waits for the permit to retire it. -/
  | full (head : Nat)
  | retiring (head : Nat)
  /-- There was no head; it waits for the permit. -/
  | absent (head : Nat)
  | checking (head : Nat)
  /-- There is still no head. -/
  | recycling
  | recycled (index : Nat)
  | extending
  | extended (index : Nat)
  /-- It has its slot, of a block it puts on the chain. -/
  | pushing (index : Nat)
deriving DecidableEq, Repr

/-- The tasks of `τ` grab slots of one State. -/
structure Allocator (τ : Type) where
  blocks : Nat → NodeBlock
  blockCount : Nat
  blockUnusedFirst : Nat
  freshBlocksFrom : Option Nat
  /-- Who holds the `unused` permit. -/
  permit : Option τ
  grabs : τ → Grab
  /-- The slots handed out and not freed since, each as often as it was handed out. -/
  owned : List Nat

inductive SlotAction (τ : Type) where
  /-- The steps of `grab_node_slot`: `unused_head`, `block_count`, `try_grab_in`, the wait for
  the permit, `retire_full_block`, the head checked again, `try_recycle_last_block` with the
  last block in memory, `allocate_fresh_block` and `push_unused_block_list`. -/
  | head (task : τ)
  | count (task : τ)
  | grab (task : τ)
  | acquire (task : τ)
  | retire (task : τ)
  | check (task : τ)
  | recycle (task : τ) (last : Option Nat)
  | allocate (task : τ)
  | push (task : τ)
  /-- The grab is dropped, cannot load its block, or may not. -/
  | leave (task : τ)
  /-- `release_node` of a slot by its owner. -/
  | release (node : Nat)
  /-- A discard or a sweep frees a slot. -/
  | discard (node : Nat)
  /-- A slot's owner writes its `sibling`. -/
  | link (node sibling : Nat)
  /-- `take_new_nodes_from_fresh_blocks` -/
  | freshBlocks
  /-- A save with `blockDirty` for its list, come to its end, or failed after its threading. -/
  | save (blockDirty : List Nat) (saved : Bool)
  /-- The State is dropped, and the one last saved deserialized. -/
  | reload

namespace Allocator

variable {τ : Type} [DecidableEq τ]

variable (a : Allocator τ)

def setBlock (index : Nat) (block : NodeBlock) : Allocator τ :=
  { a with blocks := Function.update a.blocks index block }

def setGrab (task : τ) (grab : Grab) : Allocator τ :=
  { a with grabs := Function.update a.grabs task grab }

/-- `try_grab_in`: the slot, and the block after it. -/
def tryGrabIn (index : Nat) : Option (Allocator τ) :=
  let (block, node) := (a.blocks index).grabNodeUnused index
  if isValidNodeId node then
    some { a.setBlock index block.markDirty with owned := a.owned ++ [node] }
  else none

/-- `retire_full_block` -/
def retireFullBlock (head : Nat) : Allocator τ :=
  let block := a.blocks head
  if a.blockUnusedFirst = head ∧ block.isFull = true then
    { a.setBlock head { block with blockUnusedNext := invalidBlock }.markDirty with
      blockUnusedFirst := block.blockUnusedNext }
  else a

/-- `try_recycle_last_block`, `last` the last block of the block vector where it is in
memory. -/
def tryRecycleLastBlock (last : Option Nat) : Option Nat :=
  last.filter fun index =>
    a.freshBlocksFrom.all (· ≤ index) && !(a.blocks index).isFull

/-- `allocate_fresh_block` -/
def allocateFreshBlock : Option (Allocator τ) :=
  if maxTreeBlockCount ≤ a.blockCount then none
  else
    let block : NodeBlock :=
      { NodeBlock.newZeroed.markDirty with nodeCount := if a.blockCount = 0 then 1 else 0 }
    some { a.setBlock a.blockCount block with blockCount := a.blockCount + 1 }

/-- `push_unused_block_list` -/
def pushUnusedBlockList (index : Nat) : Allocator τ :=
  if a.blockUnusedFirst = index then a
  else
    { a.setBlock index
        { a.blocks index with blockUnusedNext := a.blockUnusedFirst }.markDirty with
      blockUnusedFirst := index }

/-- One slot freed, under its block's lock. -/
def discardNode (a : Allocator τ) (node : Nat) : Allocator τ :=
  let index := blockIndex node
  { a.setBlock index ((a.blocks index).discardNode index (nodeIndex node)).markDirty with
    owned := a.owned.erase node }

/-- One block of the save's list in `thread_unused_blocks`: `next` are the blocks threaded so
far. -/
def threadOne (first : Nat) : (Nat → NodeBlock) × Nat → Nat → (Nat → NodeBlock) × Nat
  | (blocks, next), index =>
      let block := blocks index
      if block.firstUnusedNode then
        let taken := { block with firstUnusedNode := false }
        if block.isFull = false ∧ index ≠ first then
          (Function.update blocks index { taken with blockUnusedNext := next }.markDirty, index)
        else (Function.update blocks index taken, next)
      else (blocks, next)

/-- `thread_unused_blocks` -/
def threadUnusedBlocks (blockDirty : List Nat) : Allocator τ :=
  match blockDirty.findIdx? fun index => (a.blocks index).firstUnusedNode with
  | none => a
  | some start =>
      let first := a.blockUnusedFirst
      let behind :=
        if first < a.blockCount then (a.blocks first).blockUnusedNext else invalidBlock
      let threaded := (blockDirty.drop start).foldl (threadOne first) (a.blocks, behind)
      let a := { a with blocks := threaded.1 }
      if threaded.2 = behind then a
      else if first < a.blockCount then
        a.setBlock first { a.blocks first with blockUnusedNext := threaded.2 }.markDirty
      else { a with blockUnusedFirst := threaded.2 }

/-- The steps of a grab. -/
def grabStep (task : τ) : SlotAction τ → Option (Allocator τ)
  | .head _ =>
      match a.grabs task with
      | .idle => some (a.setGrab task (.headed a.blockUnusedFirst))
      | _ => none
  | .count _ =>
      match a.grabs task with
      | .headed head =>
          some (a.setGrab task (if head < a.blockCount then .found head else .absent head))
      | _ => none
  | .grab _ =>
      match a.grabs task with
      | .found head =>
          match a.tryGrabIn head with
          | some a => some (a.setGrab task .idle)
          | none => some (a.setGrab task (.full head))
      | .recycled index =>
          match a.tryGrabIn index with
          | some a => some (a.setGrab task (.pushing index))
          | none => some (a.setGrab task .extending)
      | .extended index =>
          match a.tryGrabIn index with
          | some a => some (a.setGrab task (.pushing index))
          | none => some ({ a with permit := none }.setGrab task .idle)
      | _ => none
  | .acquire _ =>
      match a.permit, a.grabs task with
      | none, .full head => some ({ a with permit := some task }.setGrab task (.retiring head))
      | none, .absent head => some ({ a with permit := some task }.setGrab task (.checking head))
      | _, _ => none
  | .retire _ =>
      match a.grabs task with
      | .retiring head =>
          some ({ a.retireFullBlock head with permit := none }.setGrab task .idle)
      | _ => none
  | .check _ =>
      match a.grabs task with
      | .checking head =>
          if a.blockUnusedFirst = head then some (a.setGrab task .recycling)
          else some ({ a with permit := none }.setGrab task .idle)
      | _ => none
  | .recycle _ last =>
      match a.grabs task with
      | .recycling =>
          if last.all (· < a.blockCount) then
            match a.tryRecycleLastBlock last with
            | some index => some (a.setGrab task (.recycled index))
            | none => some (a.setGrab task .extending)
          else none
      | _ => none
  | .allocate _ =>
      match a.grabs task with
      | .extending =>
          match a.allocateFreshBlock with
          | some extended => some (extended.setGrab task (.extended a.blockCount))
          | none => some ({ a with permit := none }.setGrab task .idle)
      | _ => none
  | .push _ =>
      match a.grabs task with
      | .pushing index =>
          some ({ a.pushUnusedBlockList index with permit := none }.setGrab task .idle)
      | _ => none
  | .leave _ =>
      -- Only while it waits: for its block, or for the permit.
      match a.grabs task with
      | .headed _ | .found _ | .full _ | .absent _ => some (a.setGrab task .idle)
      | _ => none
  | _ => none

/-- The steps beside the grabs, on one State. -/
def ownerStep : SlotAction τ → Option (Allocator τ)
  | .release node => if node ∈ a.owned ∧ a.permit = none then some (a.discardNode node) else none
  | .discard node => if node ∈ a.owned then some (a.discardNode node) else none
  | .link node sibling =>
      if node ∈ a.owned then
        let index := blockIndex node
        let block := a.blocks index
        some (a.setBlock index { block with
          sibling := Function.update block.sibling (nodeIndex node) sibling }.markDirty)
      else none
  | .freshBlocks =>
      some { a with blockUnusedFirst := invalidBlock, freshBlocksFrom := some a.blockCount }
  | .save blockDirty saved =>
      let a := a.threadUnusedBlocks blockDirty
      some (if saved then
        { a with blocks := fun index => { a.blocks index with dirty := false } }
      else a)
  | _ => none

/-- The tree of a State with nothing stored, its first block with the root in it. -/
def new : Allocator τ where
  blocks index := { NodeBlock.newZeroed with nodeCount := if index = 0 then 1 else 0 }
  blockCount := 1
  blockUnusedFirst := 0
  freshBlocksFrom := none
  permit := none
  grabs _ := .idle
  owned := []

/-- What `deserialize` makes of an allocator saved: its blocks as they were, with nothing of
what is in memory only. -/
def deserialized : Allocator τ :=
  { a with
    blocks := fun index => { a.blocks index with firstUnusedNode := false, dirty := false }
    freshBlocksFrom := none
    permit := none
    grabs := fun _ => .idle }

end Allocator

/-- A State and what was last saved of it. -/
structure SlotWorld (τ : Type) where
  memory : Allocator τ
  stored : Allocator τ

namespace SlotWorld

variable {τ : Type} [DecidableEq τ]

def new : SlotWorld τ := ⟨.new, .new⟩

def step (w : SlotWorld τ) (action : SlotAction τ) : Option (SlotWorld τ) :=
  match action with
  | .head task | .count task | .grab task | .acquire task | .retire task | .check task
  | .recycle task _ | .allocate task | .push task | .leave task =>
      (w.memory.grabStep task action).map fun a => { w with memory := a }
  | .save _ saved =>
      (w.memory.ownerStep action).map fun a => ⟨a, if saved then a else w.stored⟩
  | .release _ | .discard _ | .link _ _ | .freshBlocks =>
      (w.memory.ownerStep action).map fun a => { w with memory := a }
  | .reload => some { w with memory := w.stored.deserialized }

/-- Nothing runs on the State. -/
def Alone (w : SlotWorld τ) : Prop := w.memory.permit = none ∧ ∀ task, w.memory.grabs task = .idle

/-- A save lists the dirty blocks, each once. -/
def Lists (w : SlotWorld τ) (blockDirty : List Nat) : Prop :=
  blockDirty.Nodup ∧ ∀ index, index ∈ blockDirty ↔
    index < w.memory.blockCount ∧ (w.memory.blocks index).dirty = true

/-- How the State is used: a save runs alone, on a State whose free slots are all in use, and
`take_new_nodes_from_fresh_blocks` before any writer. -/
def Used (w : SlotWorld τ) : SlotAction τ → Prop
  | .save blockDirty _ =>
      w.Alone ∧ w.memory.freshBlocksFrom = none ∧ w.Lists blockDirty
  | .freshBlocks => w.Alone
  | _ => True

end SlotWorld

end Lore.State
