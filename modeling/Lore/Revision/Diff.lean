import Mathlib.Data.List.Sort
import Lore.Lib.TaskPool
import Lore.Revision.Change

/-!
# Diff — the walk that compares two trees

The walk stands at a pair of directories, or below a directory that was added or deleted
as a whole. A pair's children are met by name hash (`mergeJoin`): a child one side lacks
is an add or a delete, with everything below it; two files are compared; two directories
whose addresses differ are a pair to walk; a file against a directory is a delete and an
add. What is handed on may be walked by any task, at any time (`Pool`).

The filter answers, for a child and the state its directory was reached with, the state
below the child and whether the walk drops it. A graft oracle, where there is one, may
take a pair of directories as one change.
-/

namespace Lore.Revision

open Lore.Storage Lore.Lib

/-- A filter, as a walk asks it. -/
structure Filter (σ : Type) where
  /-- `FilterStates::ROOT`. -/
  root : σ
  /-- `child_excludes_tree`: the states below the path, given its parent's, and whether the
  walk drops it. -/
  childExcludesTree : σ → Path → Bool → σ × Bool
  /-- `FilterStates::excluded`: whether the path of these states is itself excluded. -/
  excluded : σ → Bool

/-- What the walk is asked through. -/
structure DiffContext (σ : Type) where
  hashString : String → Nat
  filter : Filter σ
  /-- `GraftOracle::adoptable`, of a path and the directory's address before. -/
  graft : Option (Path → Address → Bool)

/-- What is left to walk. -/
inductive Pending (σ : Type) where
  /-- The children of a directory both sides hold, with the path and the filter state of
  each side. -/
  | pair (fromPath toPath : Path) (fromStates toStates : σ) (fromNodes toNodes : List Tree)
  /-- The children of a directory added or deleted as a whole. -/
  | whole (action : FileAction) (path : Path) (states : σ) (nodes : List Tree)

section Walk

variable {σ : Type} (context : DiffContext σ)

abbrev DiffWork (σ : Type) := Work (Pending σ) NodeChange

/-- The change of a child of a directory added or deleted as a whole. -/
def wholeChange (action : FileAction) (path : Path) (child : Tree) : NodeChange :=
  if action = .delete then ⟨action, .none, .ofChild path child, .invalid path⟩
  else ⟨action, .none, .invalid path, .ofChild path child⟩

/-- `add_change` of an added or a deleted node: the change itself, then everything below
the directory `side`. -/
def addChange (change : NodeChange) (states : σ) (side : Tree) : List (DiffWork σ) :=
  match side with
  | .file _ => [.emit change]
  | .directory _ children =>
      [.emit change, .visit (.whole change.action change.path states children)]

/-- `walk_hierarchy`, one child. -/
def addHierarchyChild (action : FileAction) (path : Path) (states : σ) (child : Tree) :
    List (DiffWork σ) :=
  let childPath := path ++ [child.node.name]
  let verdict := context.filter.childExcludesTree states childPath child.isDirectory
  if verdict.2 then [] else addChange (wholeChange action childPath child) verdict.1 child

/-- `add_change_for_solo_from_node`: the to side has no child of the name. -/
def soloFrom (path : Path) (states : σ) (child : Tree) : List (DiffWork σ) :=
  addHierarchyChild context .delete path states child

/-- `add_change_for_solo_to_node`: the from side has no child of the name. -/
def soloTo (path : Path) (states : σ) (child : Tree) : List (DiffWork σ) :=
  addHierarchyChild context .add path states child

/-- `presence_change`: the add or the delete of a directory alone, where the filter places
it on one side only. -/
def presenceChange (fromNode toNode : Tree) (fromStates toStates : σ) : Option FileAction :=
  if fromNode.children ≠ [] ∧ toNode.children ≠ [] then none
  else
    match context.filter.excluded fromStates, context.filter.excluded toStates with
    | true, false => some .add
    | false, true => some .delete
    | _, _ => none

/-- `add_change_for_paired_nodes`: both sides hold a child of the name. -/
def paired (fromPath toPath : Path) (fromStates toStates : σ) (fromNode toNode : Tree) :
    List (DiffWork σ) :=
  let fromChild := fromPath ++ [fromNode.node.name]
  let subpath := toPath ++ [toNode.node.name]
  let fromSide := NodeChangeState.ofChild fromChild fromNode
  let toSide := NodeChangeState.ofChild subpath toNode
  let hashEqual := fromNode.node.address = toNode.node.address
  let modeEqual := fromNode.node.mode = toNode.node.mode
  let isRename := fromNode.node.name ≠ toNode.node.name
  let measured := if hashEqual ∧ modeEqual then ChangeFlags.none else .modify
  let action := if isRename then FileAction.move else .keep
  let fromVerdict := context.filter.childExcludesTree fromStates fromChild fromNode.isDirectory
  let toVerdict := context.filter.childExcludesTree toStates subpath toNode.isDirectory
  match fromNode, toNode with
  | .file _, .file _ =>
      if ¬ hashEqual ∨ ¬ modeEqual ∨ isRename then [.emit ⟨action, measured, fromSide, toSide⟩]
      else []
  | .directory _ fromNodes, .directory _ toNodes =>
      let presence := presenceChange context fromNode toNode fromVerdict.1 toVerdict.1
      (presence.map fun action => Work.emit ⟨action, .none, fromSide, toSide⟩).toList ++
      (if ¬ modeEqual ∨ isRename then [.emit ⟨action, measured, fromSide, toSide⟩] else []) ++
      (if hashEqual then []
      else if context.graft.any (· subpath fromNode.node.address) then
        [.emit ⟨.graft, measured, fromSide, toSide⟩]
      else [.visit (.pair fromChild subpath fromVerdict.1 toVerdict.1 fromNodes toNodes)])
  | _, _ =>
      addChange ⟨.delete, .none, fromSide, toSide⟩ fromVerdict.1 fromNode ++
      (if toVerdict.2 then [] else addChange ⟨.add, .none, fromSide, toSide⟩ toVerdict.1 toNode)

/-- The children in the order of their name hashes, `named_node_sort`. -/
def sortedChildren (children : List Tree) : List Tree :=
  children.insertionSort fun a b => a.nameHash context.hashString ≤ b.nameHash context.hashString

/-- Whether the walk keeps a child of the from side. -/
def keepsFrom (path : Path) (states : σ) (child : Tree) : Bool :=
  !(context.filter.childExcludesTree states (path ++ [child.node.name]) child.isDirectory).2

/-- What the walk does where it meets a name. -/
def walkMeeting (fromPath toPath : Path) (fromStates toStates : σ) : Meeting Tree Tree → List (DiffWork σ)
  | .left fromNode => soloFrom context fromPath fromStates fromNode
  | .right toNode => soloTo context toPath toStates toNode
  | .both fromNode toNode => paired context fromPath toPath fromStates toStates fromNode toNode

/-- `diff_subtree_node`, and one level of `walk_hierarchy`. -/
def diffNode : Pending σ → List (DiffWork σ)
  | .pair fromPath toPath fromStates toStates fromNodes toNodes =>
      (mergeJoin (Tree.nameHash context.hashString) (Tree.nameHash context.hashString)
        (keepsFrom context fromPath fromStates) (sortedChildren context fromNodes)
        (sortedChildren context toNodes)).flatMap
        (walkMeeting context fromPath toPath fromStates toStates)
  | .whole action path states nodes => nodes.flatMap (addHierarchyChild context action path states)

/-- `diff_subtree`: the walk of two whole trees, before its first step. -/
def diffSubtree (fromNodes toNodes : List Tree) : Pool (Pending σ) NodeChange :=
  .start (.pair [] [] context.filter.root context.filter.root fromNodes toNodes)

/-- The walk of two trees can end with these changes, in this order. -/
def Reports (fromNodes toNodes : List Tree) (changes : List NodeChange) : Prop :=
  ∃ schedule pool, run (Pool.step (diffNode context)) (diffSubtree context fromNodes toNodes)
    schedule = some pool ∧ pool.Finished ∧ pool.emitted = changes

end Walk

end Lore.Revision
