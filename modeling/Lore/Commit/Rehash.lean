import Mathlib.Data.List.Perm.Basic
import Lore.Lib.Layout
import Lore.Storage.Fragment

/-!
# Rehash — directory addresses of a revision to commit

`rehash_directory` hashes the root and every staged directory below it, from the bottom up.
A directory's address is the keyed hash of its children in the order of their name hashes:
for each the fixed-size record of what it contributes, then the length and the bytes of its
spelled name. The subdirectories are hashed by tasks of their own, each patching the record
of its child once it is joined, in whatever order they finish.
-/

namespace Lore.Commit

open Lore.Storage Lore.Lib

abbrev NodeID := UInt32

/-- `ROOT_NODE`. -/
def rootNode : NodeID := 0

/-! ## Nodes -/

namespace NodeFlags

def dirty : BitVec 16 := 0b1000#16
def staged : BitVec 16 := 0b10000#16
def stagedDelete : BitVec 16 := 0b10010000#16
def stagedBits : BitVec 16 := 0b111111111110000#16

end NodeFlags

/-- What a node of any kind carries. The type bits of the flag word are the constructors of
`Tree`, and so is what the `child` field of the source means for each kind. -/
structure Node where
  id : NodeID
  flags : BitVec 16
  mode : UInt16
  name : Bytes
  nameHash : UInt64
  size : UInt64
  address : Address
deriving DecidableEq, Repr

namespace Node

def isStaged (node : Node) : Bool := (node.flags &&& NodeFlags.staged) == NodeFlags.staged

def isStagedDelete (node : Node) : Bool :=
  (node.flags &&& NodeFlags.stagedDelete) == NodeFlags.stagedDelete

def isDirty (node : Node) : Bool := (node.flags &&& NodeFlags.dirty) == NodeFlags.dirty

/-- `set_hash_and_size`: the context of the address stays. -/
def setHashAndSize (node : Node) (hash : Hash) (size : UInt64) : Node :=
  { node with address := ⟨hash, node.address.context⟩, size }

def clearStagedAndActionBits (node : Node) : Node :=
  { node with flags := node.flags &&& ~~~NodeFlags.stagedBits }

end Node

/-- A node with what hangs below it, the children of a directory in the order of its chain. -/
inductive Tree where
  | file (node : Node)
  | link (node : Node) (mountSource : NodeID)
  | directory (node : Node) (children : List Tree)

inductive Kind where
  | file
  | link
  | directory
deriving DecidableEq, Repr

namespace Tree

def node : Tree → Node
  | .file node => node
  | .link node _ => node
  | .directory node _ => node

def kind : Tree → Kind
  | .file _ => .file
  | .link _ _ => .link
  | .directory _ _ => .directory

def mountSource : Tree → Option NodeID
  | .link _ source => some source
  | _ => none

def children : Tree → List Tree
  | .directory _ children => children
  | _ => []

end Tree

/-! ## What is hashed -/

/-- What a child contributes to its directory's address besides its name. -/
structure NodeHashData where
  nameHash : UInt64
  mode : UInt32
  address : Address
  mountSource : NodeID
  size : UInt64
deriving DecidableEq, Repr

/-- The 72 bytes of the record, in the order of its fields. -/
def NodeHashData.layout : Layout NodeHashData :=
  Layout.record
    (.pair .u64 (.pair .u32 (.pair (.bytes 32) (.pair (.bytes 16) (.pair .u32 .u64)))))
    (fun fields => ⟨fields.1, fields.2.1, ⟨fields.2.2.1, fields.2.2.2.1⟩, fields.2.2.2.2.1,
      fields.2.2.2.2.2⟩)
    (fun data => (data.nameHash, data.mode, data.address.hash, data.address.context,
      data.mountSource, data.size))
    (fun _ => rfl)

/-- `NodeHashData::from_node`: the kind of the node is not part of it, and a link that mounts
the root of its revision contributes the mount every other node does. -/
def NodeHashData.fromNode (tree : Tree) : NodeHashData where
  nameHash := tree.node.nameHash
  mode := tree.node.mode.toUInt32
  address := tree.node.address
  mountSource := tree.mountSource.getD rootNode
  size := tree.node.size

/-- A child of a directory being hashed: what it contributes, and its name. -/
structure ChildHashData where
  data : NodeHashData
  name : Bytes
deriving DecidableEq, Repr

def ChildHashData.of (tree : Tree) : ChildHashData := ⟨.fromNode tree, tree.node.name⟩

/-- What the hasher is fed for one child. -/
def ChildHashData.bytes (child : ChildHashData) : Bytes :=
  NodeHashData.layout.encode child.data ++
    (Layout.u32.encode (UInt32.ofNat child.name.length) ++ child.name)

/-- `sort_unstable_by_key` on the name hash. -/
def sortByNameHash (children : List ChildHashData) : List ChildHashData :=
  children.mergeSort fun a b => decide (a.data.nameHash ≤ b.data.nameHash)

/-- All the hasher is fed for a directory. -/
def hashInput (children : List ChildHashData) : Bytes :=
  (sortByNameHash children).flatMap ChildHashData.bytes

/-! ## The rehash -/

inductive CommitError where
  | internal (message : String)
deriving DecidableEq, Repr

/-- What a child is refused for, `names` being the bytes of the names read so far with its
own. -/
def refusal (names : Nat) (child : Tree) : Option CommitError :=
  if ¬ names < UInt32.size then
    some (.internal "Names of a directory's children exceed 4 GiB")
  else if child.node.isStagedDelete then
    some (.internal "Deleted node remains after nodes were committed")
  else if child.node.isDirty then
    some (.internal "Dirty node remain after nodes were committed")
  else
    match child with
    | .directory _ _ => none
    | .link node _ =>
        if node.isStaged then
          some (.internal "Staged node remain after nodes were committed")
        else none
    | .file node =>
        if node.isStaged then
          some (.internal "Staged node remain after nodes were committed")
        else if isZero node.address.hash ∧ 0 < node.size then
          some (.internal "Node with zero hash remain after nodes were committed")
        else none

/-- What the task of a subdirectory returns: its index among the children, and what it
contributes. -/
abbrev ChildRehash := Except CommitError (Nat × NodeHashData)

/-- The order in which the tasks of each directory finish: any order of those it spawned. -/
structure Schedule where
  order : NodeID → List ChildRehash → List ChildRehash
  perm : ∀ id tasks, (order id tasks).Perm tasks

/-- The walk of a directory's children with the tasks it spawned. -/
structure Walk where
  /-- The children as the tasks leave them. -/
  children : List Tree
  data : List ChildHashData
  tasks : List ChildRehash
  /-- The sizes of the files and links. -/
  size : UInt64
  failure : Option CommitError

/-- What a directory is hashed from, while the tasks are joined. -/
structure Joined where
  data : List ChildHashData
  /-- The sum wraps; a build with overflow checks aborts instead. -/
  size : UInt64
  failure : Option CommitError

/-- One task joined: its result patches the child of its index, and the first failure is
kept. -/
def Joined.task (joined : Joined) : ChildRehash → Joined
  | .ok (index, result) =>
      { joined with
        size := joined.size + result.size
        data := joined.data.modify index fun child => { child with data := result } }
  | .error error =>
      { joined with failure := some (joined.failure.getD error) }

/-- The walk of one directory joined with its tasks in the order they finish. -/
def Walk.join (walk : Walk) (finished : List ChildRehash) : Joined :=
  finished.foldl Joined.task ⟨walk.data, walk.size, walk.failure⟩

section

/- BLAKE3 keyed with `DIRECTORY_HASH_KEY`. -/
variable (keyedHash : Bytes → Hash)

/-- The node of a directory hashed from `data`. -/
def Node.rehashed (node : Node) (data : List ChildHashData) (size : UInt64) : Node :=
  (node.setHashAndSize (keyedHash (hashInput data)) size).clearStagedAndActionBits

variable (schedule : Schedule)

mutual

/-- `rehash_directory` below the root: the subtree as it is left, and the answer. A file or a
link is never asked for. -/
def rehashDirectory : Tree → Tree × Except CommitError Unit
  | .file node => (.file node, .ok ())
  | .link node source => (.link node source, .ok ())
  | .directory node children =>
      if node.isStaged then
        let walk := walkChildren 0 0 children
        let joined := walk.join (schedule.order node.id walk.tasks)
        match joined.failure with
        | some error => (.directory node walk.children, .error error)
        | none =>
            (.directory (node.rehashed keyedHash joined.data joined.size) walk.children, .ok ())
      else (.directory node children, .ok ())

/-- The walk over the children of a directory, from the child `index` on, `names` bytes of
names read before it. A refused child ends it; the tasks spawned before run on. -/
def walkChildren (index names : Nat) : List Tree → Walk
  | [] => ⟨[], [], [], 0, none⟩
  | child :: rest =>
      let names := names + child.node.name.length
      match refusal names child with
      | some error => ⟨child :: rest, [], [], 0, some error⟩
      | none =>
          let walk := walkChildren (index + 1) names rest
          match child with
          | .directory _ _ =>
              let (after, answer) := rehashDirectory child
              { walk with
                children := after :: walk.children
                data := .of child :: walk.data
                tasks := (answer.map fun _ => (index, .fromNode after)) :: walk.tasks }
          | _ =>
              { walk with
                children := child :: walk.children
                data := .of child :: walk.data
                size := child.node.size + walk.size }

end

/-- A revision's tree: the record of the root and the root's children. -/
structure Root where
  node : Node
  children : List Tree

/-- `rehash_directory` of the root, which is hashed whether staged or not. -/
def rehashRoot (root : Root) : Root × Except CommitError Unit :=
  let walk := walkChildren keyedHash schedule 0 0 root.children
  let joined := walk.join (schedule.order root.node.id walk.tasks)
  match joined.failure with
  | some error => ({ root with children := walk.children }, .error error)
  | none =>
      ({ node := root.node.rehashed keyedHash joined.data joined.size
         children := walk.children }, .ok ())

end

/-- The tree record of a revision: where the hash and the size of the root are kept. -/
structure TreeHeader where
  hashRoot : Hash
  size : UInt64
deriving DecidableEq, Repr

/-- `update_tree_root_hash`: the hash and size of the root go to the tree record, where the
hash differs from the one there, and the record of the root is reset to zero. -/
def updateTreeRootHash (root : Root) (header : TreeHeader) : Root × TreeHeader :=
  ({ root with node := root.node.setHashAndSize 0 0 },
    if root.node.address.hash ≠ header.hashRoot then
      ⟨root.node.address.hash, root.node.size⟩
    else header)

end Lore.Commit
