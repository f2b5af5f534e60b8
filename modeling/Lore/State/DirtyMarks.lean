import Mathlib.Logic.Function.Basic
import Lore.Commit.Rehash
import Lore.State.Slots

/-!
# DirtyMarks — the marks and clears that climb the node tree

`node_mark` writes a node and then its parent, up to the first ancestor that holds the mark.
`node_clear` drops a node's dirty flags and then, level by level, those of each ancestor that
nothing below keeps dirty: it reads the ancestor, walks its children, clears it, and walks the
children again, marking it again where one of them turned dirty. No lock is held between the
levels, nor between the phases of one, so any number of these climbs run through one another
and through the detaches and the adds. Each read or write under a block's lock is one step.

The type bits and the `Discarded` bit of a node's flag word are fields here, and the sibling
pointers of a directory's chain are the order of a list. No slot is given back meanwhile, so
nodes are numbered in the order they are published.
-/

namespace Lore.State

open Commit (NodeFlags.dirty NodeFlags.staged NodeFlags.stagedBits)

namespace NodeFlags

def actionBits : BitVec 16 := 0b1111100000#16
def mergeBits : BitVec 16 := 0b111110000000000#16
def stagedMergeConflict : BitVec 16 := 0b110000010000#16
def dirtyBits : BitVec 16 := 0b1111101000#16

end NodeFlags

/-! ## One node -/

/-- What the climbs read and write of a node. -/
structure TreeNode where
  flags : BitVec 16
  extFlags : UInt32
  parent : Nat
  isDirectory : Bool
  isDiscarded : Bool

namespace TreeNode

def isDirty (node : TreeNode) : Bool := node.flags &&& NodeFlags.dirty == NodeFlags.dirty

def isStaged (node : TreeNode) : Bool := node.flags &&& NodeFlags.staged == NodeFlags.staged

/-- The staged and the dirty action share their bits, which stay while the other half holds. -/
def clearDirtyFlags (node : TreeNode) : TreeNode :=
  let flags := node.flags &&& ~~~NodeFlags.dirty
  { node with
    flags := if node.isStaged then flags else flags &&& ~~~NodeFlags.actionBits
    extFlags := 0 }

def clearStagedFlags (node : TreeNode) : TreeNode :=
  let flags := node.flags &&& ~~~(NodeFlags.staged ||| NodeFlags.mergeBits)
  { node with flags := if node.isDirty then flags else flags &&& ~~~NodeFlags.actionBits }

/-- What a clear asks of an ancestor, before it walks the children and again before it
writes. -/
def clearable (node : TreeNode) : Bool := !node.isDiscarded && node.isDirty && node.isDirectory

end TreeNode

/-! ## The mark -/

inductive Ext where
  | keep
  | set (flags : UInt32)

/-- The two halves of a mark, each with the target's flags and whether to set them where the
target holds them already. -/
structure Mark where
  staged : Option (BitVec 16 × Bool)
  dirty : Option (BitVec 16 × Ext × Bool)

def Mark.forAncestors (mark : Mark) : Mark where
  staged := mark.staged.map fun _ => (NodeFlags.staged, false)
  dirty := mark.dirty.map fun _ => (NodeFlags.dirty, .keep, false)

structure Half where
  flags : BitVec 16
  force : Bool

/-- The halves still climbing. -/
structure Halves where
  staged : Option Half
  dirty : Option Half
  ext : UInt32
  setExt : Bool
  notFound : Bool

namespace Halves

def of (mark : Mark) : Halves where
  staged := mark.staged.map fun (flags, force) => ⟨flags &&& NodeFlags.stagedBits, force⟩
  dirty := mark.dirty.map fun (flags, _, force) => ⟨flags &&& NodeFlags.dirtyBits, force⟩
  ext := match mark.dirty with | some (_, .set ext, _) => ext | _ => 0
  setExt := match mark.dirty with | some (_, .set _, _) => true | _ => false
  notFound := false

/-- The staged half at one level, with whether it wrote. A mark that sets no merge state keeps
the node's; one that does keeps a merge and a conflict. -/
def applyStaged (halves : Halves) (node : TreeNode) : Halves × TreeNode × Bool :=
  match halves.staged with
  | none => (halves, node, false)
  | some ⟨flags, force⟩ =>
      if !force && node.flags &&& flags == flags then
        ({ halves with staged := none }, node, false)
      else
        let merge := node.flags &&& NodeFlags.mergeBits
        let flags := flags ||| if flags &&& NodeFlags.mergeBits == 0 then merge
          else merge &&& NodeFlags.stagedMergeConflict
        ({ halves with staged := some ⟨NodeFlags.staged, false⟩ }, { node with
            flags := node.flags &&& ~~~NodeFlags.stagedBits |||
              (NodeFlags.staged ||| flags) &&& NodeFlags.stagedBits }, true)

/-- The dirty half at one level, with whether it wrote. The base bit alone on a clean node
keeps the action bits of its staged action. -/
def applyDirty (halves : Halves) (node : TreeNode) : Halves × TreeNode × Bool :=
  match halves.dirty with
  | none => (halves, node, false)
  | some ⟨flags, force⟩ =>
      if node.isDiscarded then
        ({ halves with dirty := none, notFound := true }, node, false)
      else if !force && node.flags &&& flags == flags &&
          (!halves.setExt || node.extFlags == halves.ext) then
        ({ halves with dirty := none }, node, false)
      else
        let kept := if flags != NodeFlags.dirty || node.isDirty
          then node.flags &&& ~~~NodeFlags.dirtyBits else node.flags
        ({ halves with dirty := some ⟨NodeFlags.dirty, false⟩, setExt := false }, { node with
            flags := kept ||| flags
            extFlags := if halves.setExt then halves.ext else node.extFlags }, true)

/-- One level of the mark: the halves that climb on, the node, and whether either wrote. -/
def apply (halves : Halves) (node : TreeNode) : Halves × TreeNode × Bool :=
  let staged := halves.applyStaged node
  let dirty := staged.1.applyDirty staged.2.1
  (dirty.1, dirty.2.1, staged.2.2 || dirty.2.2)

end Halves

/-! ## The tree and its climbs -/

/-- Where a task stands: at a level of a mark, or before a phase of a clear's level. The walks
carry the child they read next, and the second one the parent read with the clear. -/
inductive Climb where
  | idle
  | mark (dir : Nat) (halves : Halves)
  | read (dir : Nat)
  | check (dir : Nat) (child : Option Nat)
  | clean (dir : Nat)
  | recheck (dir parent : Nat) (child : Option Nat)

/-- A mark that has come to the directory with its dirty half. -/
def Climb.marks (dir : Nat) : Climb → Bool
  | mark node halves => node == dir && halves.dirty.isSome
  | _ => false

inductive Clear where
  | staged
  | dirty
  | vacated
  deriving DecidableEq

structure NodeTree (τ : Type) where
  nodes : Nat → TreeNode
  /-- The chain of each directory, its head first. -/
  children : Nat → List Nat
  /-- The nodes from here on have not been published yet. -/
  count : Nat
  climbs : τ → Climb

inductive TreeAction (τ : Type) where
  | mark (task : τ) (node : Nat) (mark : Mark)
  | clear (task : τ) (node : Nat) (clear : Clear)
  | advance (task : τ)
  | detach (node : Nat)
  | add (task : τ) (parent : Nat) (record : TreeNode) (mark : Mark)

/-- What is left of a chain from one of its nodes on. -/
def chainFrom (chain : List Nat) (node : Nat) : List Nat := chain.dropWhile (· != node)

namespace NodeTree

variable {τ : Type} [DecidableEq τ]

variable (tree : NodeTree τ)

def setNode (node : Nat) (record : TreeNode) : NodeTree τ :=
  { tree with nodes := Function.update tree.nodes node record }

def setClimb (task : τ) (climb : Climb) : NodeTree τ :=
  { tree with climbs := Function.update tree.climbs task climb }

def child (dir : Nat) : Option Nat := (tree.children dir).head?

def sibling (dir node : Nat) : Option Nat := (chainFrom (tree.children dir) node).tail.head?

/-- Whether a walk of `dir`'s chain goes on past `child`: the child still hangs there, and is
clean. -/
def passes (dir child : Nat) : Bool :=
  let node := tree.nodes child
  !node.isDiscarded && node.parent == dir && !node.isDirty

/-- The next locked section of the task's climb. -/
def advance (task : τ) : Option (NodeTree τ) :=
  match tree.climbs task with
  | .idle => none
  | .mark dir halves =>
      if isValidNodeId dir then
        let (halves, node, wrote) := halves.apply (tree.nodes dir)
        some ((tree.setNode dir node).setClimb task
          (if wrote then .mark node.parent halves else .idle))
      else some (tree.setClimb task .idle)
  | .read dir =>
      some (tree.setClimb task
        (if isValidNodeId dir && (tree.nodes dir).clearable then .check dir (tree.child dir)
          else .idle))
  | .check dir none => some (tree.setClimb task (.clean dir))
  | .check dir (some child) =>
      some (tree.setClimb task
        (if tree.passes dir child then .check dir (tree.sibling dir child) else .idle))
  | .clean dir =>
      if (tree.nodes dir).clearable then
        some ((tree.setNode dir (tree.nodes dir).clearDirtyFlags).setClimb task
          (.recheck dir (tree.nodes dir).parent (tree.child dir)))
      else some (tree.setClimb task .idle)
  | .recheck _ parent none => some (tree.setClimb task (.read parent))
  | .recheck dir parent (some child) =>
      some (tree.setClimb task
        (if tree.passes dir child then .recheck dir parent (tree.sibling dir child)
          else .mark dir (.of ⟨none, some (NodeFlags.dirty, .keep, false)⟩)))

/-- An operation starts on a task that runs none. -/
def start (task : τ) (climb : Climb) : Option (NodeTree τ) :=
  match tree.climbs task with
  | .idle => some (tree.setClimb task climb)
  | _ => none

/-- `node_clear` up to its climb. -/
def clear (task : τ) (node : Nat) : Clear → Option (NodeTree τ)
  | .staged => some (tree.setNode node (tree.nodes node).clearStagedFlags)
  | .dirty =>
      (tree.setNode node (tree.nodes node).clearDirtyFlags).start task
        (.read (tree.nodes node).parent)
  | .vacated => tree.start task (.read node)

/-- The node leaves the chain of its parent and is flagged. -/
def detach (node : Nat) : NodeTree τ :=
  let record := tree.nodes node
  { tree.setNode node { record with isDiscarded := true } with
    children := Function.update tree.children record.parent
      ((tree.children record.parent).erase node) }

/-- The prepared node goes to the head of its parent's chain. -/
def publish (parent : Nat) (record : TreeNode) : NodeTree τ :=
  { tree.setNode tree.count { record with parent, isDiscarded := false } with
    children := Function.update tree.children parent (tree.count :: tree.children parent)
    count := tree.count + 1 }

/-- An add that publishes a dirty record marks its parent dirty after it. -/
def step : TreeAction τ → Option (NodeTree τ)
  | .mark task node mark => tree.start task (.mark node (.of mark))
  | .clear task node clear => if isValidNodeId node then tree.clear task node clear else some tree
  | .advance task => tree.advance task
  | .detach node =>
      if isValidNodeId node ∧ (tree.nodes node).isDiscarded = false ∧
          (tree.nodes (tree.nodes node).parent).isDiscarded = false then
        some (tree.detach node)
      else none
  | .add task parent record mark =>
      if parent < tree.count ∧ tree.count < invalidNode ∧
          (tree.nodes parent).isDiscarded = false ∧
          (record.isDirty = true → mark.dirty.isSome = true) then
        (tree.publish parent record).start task (.mark parent (.of mark.forAncestors))
      else none

/-! ## What the marks are for -/

/-- The nodes that hang from the root. -/
inductive Live (tree : NodeTree τ) : Nat → Prop
  | root : Live tree rootNode
  | child {dir node : Nat} : Live tree dir → node ∈ tree.children dir → Live tree node

/-- The ancestors of a node. -/
inductive Above (tree : NodeTree τ) : Nat → Nat → Prop
  | parent {dir node : Nat} : node ∈ tree.children dir → Above tree dir node
  | parents {dir node above : Nat} :
      node ∈ tree.children dir → Above tree above dir → Above tree above node

/-- Every ancestor but the root of a live dirty node is dirty. -/
def Closed : Prop :=
  ∀ node, tree.Live node → (tree.nodes node).isDirty = true →
    ∀ above, tree.Above above node → above ≠ rootNode → (tree.nodes above).isDirty = true

/-- No operation is in progress. -/
def AtRest : Prop := ∀ task, tree.climbs task = .idle

/-- The chains hold the published nodes that are not flagged, each once and under the parent
its record names. -/
structure Chained (tree : NodeTree τ) : Prop where
  member : ∀ {dir node}, node ∈ tree.children dir →
    (tree.nodes node).parent = dir ∧ (tree.nodes node).isDiscarded = false ∧
      node ≠ rootNode ∧ node < tree.count ∧ dir < tree.count
  hangs : ∀ {node}, node ≠ rootNode → (tree.nodes node).isDiscarded = false →
    node ∈ tree.children (tree.nodes node).parent
  nodup : ∀ dir, (tree.children dir).Nodup
  root : isValidNodeId (tree.nodes rootNode).parent = false
  bounded : tree.count ≤ invalidNode

/-- What the two writes that take a target's dirty bit away owe the tree: a mark's dirty half
carries the base bit, and a dirty clear takes a node without a dirty child but those whose mark
has come to the node. -/
def Spares : TreeAction τ → Prop
  | .mark _ _ mark => ∀ half ∈ mark.dirty, half.1 &&& NodeFlags.dirty = NodeFlags.dirty
  | .clear _ node .dirty => isValidNodeId node = true →
      ∀ child ∈ tree.children node, (tree.nodes child).isDirty = true →
        ∃ task, (tree.climbs task).marks node = true
  | _ => True

end NodeTree

end Lore.State
