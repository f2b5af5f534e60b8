import Mathlib.Data.List.Induction
import Lore.Revision.Tree

/-!
# Change — what a walk reports at one path

A change has two sides: what stood at the path before and what stands there after. Its
`action` says what became of the node's place, its `flags` what became of the content.
A change is applied to a tree, taken as the function from keys to entries, at the key of
its own path (`applyChange`).
-/

namespace Lore.Revision

open Lore.Storage

inductive FileAction where
  | keep
  | add
  | delete
  | move
  | copy
  | graft
deriving DecidableEq, Repr

/-- The flags a walk between revisions or a merge leaves on a change. -/
inductive ChangeFlags where
  | none
  | modify
  | conflict
deriving DecidableEq, Repr

/-- One side of a change, holding a node or nothing. -/
structure NodeChangeState where
  path : Path
  /-- The node's id, `none` where the side holds nothing. -/
  node : Option Nat
  /-- The type among the node's flags. -/
  kind : Option Kind
  address : Address
  mode : UInt16
deriving DecidableEq, Repr

namespace NodeChangeState

/-- The side a change does not have. -/
def invalid (path : Path) : NodeChangeState := ⟨path, none, none, ⟨0, 0⟩, 0⟩

/-- `from_child`: the side that holds `tree` at `path`. -/
def ofChild (path : Path) (tree : Tree) : NodeChangeState :=
  ⟨path, some tree.node.id, some tree.kind, tree.node.address, tree.node.mode⟩

/-- What the side holds, as an entry of a tree. -/
def entry (side : NodeChangeState) : Option Entry :=
  side.kind.map fun kind =>
    ⟨side.path.getLastD "", kind, if kind = .file then some side.address else none, side.mode⟩

@[simp] theorem entry_ofChild (path : Path) (tree : Tree) :
    (ofChild (path ++ [tree.node.name]) tree).entry = some tree.entry := by
  cases tree <;> simp [entry, ofChild, Tree.entry]

end NodeChangeState

structure NodeChange where
  action : FileAction
  flags : ChangeFlags
  fromSide : NodeChangeState
  toSide : NodeChangeState
deriving DecidableEq, Repr

namespace NodeChange

/-- The side the change resolves to: `from` for a delete, `to` otherwise. -/
def resolvedSide (change : NodeChange) : NodeChangeState :=
  if change.action = .delete then change.fromSide else change.toSide

/-- The path the change stands at. -/
def path (change : NodeChange) : Path := change.resolvedSide.path

end NodeChange

section Apply

variable (hashString : String → Nat)

/-- The key of the path the change stands at. -/
def NodeChange.key (change : NodeChange) : Key := change.path.key hashString

/-- The tree, as the entry at each key, once the change is applied. -/
def applyChange (tree : Key → Option Entry) (change : NodeChange) : Key → Option Entry :=
  fun key =>
    if key = change.key hashString then
      if change.action = .delete then none else change.toSide.entry
    else tree key

/-- The tree once the changes are applied, in the order they came. -/
def applyChanges (changes : List NodeChange) (tree : Key → Option Entry) : Key → Option Entry :=
  changes.foldl (applyChange hashString) tree

variable {hashString}

theorem applyChange_put {tree : Key → Option Entry} {change key} (ha : change.action ≠ .delete)
    (hkey : change.toSide.path.key hashString = key) :
    applyChange hashString tree change key = change.toSide.entry := by
  have hat : key = change.key hashString := by
    rw [NodeChange.key, NodeChange.path, NodeChange.resolvedSide, if_neg ha, hkey]
  rw [applyChange, if_pos hat, if_neg ha]

theorem applyChange_delete {tree : Key → Option Entry} {change key}
    (ha : change.action = .delete) (hkey : change.fromSide.path.key hashString = key) :
    applyChange hashString tree change key = none := by
  have hat : key = change.key hashString := by
    rw [NodeChange.key, NodeChange.path, NodeChange.resolvedSide, if_pos ha, hkey]
  rw [applyChange, if_pos hat, if_pos ha]

theorem applyChanges_at (changes : List NodeChange) (tree : Key → Option Entry) (key : Key) :
    applyChanges hashString changes tree key =
      applyChanges hashString (changes.filter (NodeChange.key hashString · = key)) tree key := by
  induction changes using List.reverseRecOn with
  | nil => rfl
  | append_singleton changes change ih =>
    unfold applyChanges at ih ⊢
    by_cases hkey : change.key hashString = key
    · simp [hkey, applyChange]
    · simp [hkey, applyChange, Ne.symm hkey, ih]

end Apply

end Lore.Revision
