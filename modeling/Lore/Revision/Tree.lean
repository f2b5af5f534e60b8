import Mathlib.Data.Nat.Basic
import Lore.Lib.MergeJoin
import Lore.Storage.Fragment

/-!
# Tree — the nodes of a revision

A revision's tree holds files and directories. A directory stores its children in no
particular order; a child is found by the hash of its name, which folds case, and no two
children of a directory share one. A path is therefore walked by its name hashes
(`Key`), and the spelling of each name is part of what stands there (`Entry`).
-/

namespace Lore.Revision

open Lore.Storage Lore.Lib Option

/-- What a node of either kind carries. -/
structure Node where
  id : Nat
  name : String
  address : Address
  /-- The executable bit. -/
  mode : UInt16
deriving DecidableEq, Repr

inductive Kind where
  | file
  | directory
deriving DecidableEq, Repr

inductive Tree where
  | file (node : Node)
  | directory (node : Node) (children : List Tree)

/-- The names of the nodes down to one, as they are spelled. -/
abbrev Path := List String

/-- The name hashes of the nodes down to one. -/
abbrev Key := List Nat

namespace Tree

def node : Tree → Node
  | .file node => node
  | .directory node _ => node

def kind : Tree → Kind
  | .file _ => .file
  | .directory _ _ => .directory

def children : Tree → List Tree
  | .file _ => []
  | .directory _ children => children

@[simp] theorem node_file (n : Node) : (Tree.file n).node = n := rfl
@[simp] theorem node_directory (n : Node) (cs : List Tree) : (Tree.directory n cs).node = n := rfl
@[simp] theorem kind_file (n : Node) : (Tree.file n).kind = .file := rfl
@[simp] theorem kind_directory (n : Node) (cs : List Tree) :
    (Tree.directory n cs).kind = .directory := rfl
@[simp] theorem children_file (n : Node) : (Tree.file n).children = [] := rfl
@[simp] theorem children_directory (n : Node) (cs : List Tree) :
    (Tree.directory n cs).children = cs := rfl

def isDirectory (tree : Tree) : Bool := tree.kind = .directory

end Tree

/-- What a path holds, the address of a directory left out: it is made from what the
directory holds. -/
structure Entry where
  name : String
  kind : Kind
  address : Option Address
  mode : UInt16
deriving DecidableEq, Repr

def Tree.entry : Tree → Entry
  | .file node => ⟨node.name, .file, some node.address, node.mode⟩
  | .directory node _ => ⟨node.name, .directory, none, node.mode⟩

section Names

/- The hash of a name, `hash_string`: it folds case. -/
variable (hashString : String → Nat)

def Tree.nameHash (tree : Tree) : Nat := hashString tree.node.name

/-- The path a key names, by the hashes of its names. -/
def Path.key (path : Path) : Key := path.map hashString

/-- The child of a name hash. -/
def findSubnode (children : List Tree) (hash : Nat) : Option Tree :=
  children.find? (Tree.nameHash hashString · = hash)

/-- The node at `key` below `children`, which stand at `path`, with its own path. -/
def locate (path : Path) (children : List Tree) : Key → Option (Path × Tree)
  | [] => none
  | hash :: rest =>
      match findSubnode hashString children hash with
      | none => none
      | some child =>
          match rest with
          | [] => some (path ++ [child.node.name], child)
          | _ :: _ => locate (path ++ [child.node.name]) child.children rest

/-- What stands at `key` below `children`. -/
def entryAt (children : List Tree) (key : Key) : Option Entry :=
  (locate hashString [] children key).map fun found => found.2.entry

/-- No two children of one directory share a name hash. -/
inductive WellFormed : List Tree → Prop where
  | intro {children : List Tree} (distinct : (children.map (Tree.nameHash hashString)).Nodup)
      (below : ∀ child ∈ children, WellFormed child.children) : WellFormed children

variable {hashString}

theorem WellFormed.distinct {children} (h : WellFormed hashString children) :
    (children.map (Tree.nameHash hashString)).Nodup := by
  cases h with
  | intro distinct _ => exact distinct

theorem WellFormed.child {children} (h : WellFormed hashString children) {child}
    (hc : child ∈ children) : WellFormed hashString child.children := by
  cases h with
  | intro _ below => exact below child hc

theorem findSubnode_eq_some {children} (h : WellFormed hashString children) {hash child} :
    findSubnode hashString children hash = some child ↔
      child ∈ children ∧ child.nameHash hashString = hash := find?_key_eq_some h.distinct hash child

theorem mem_of_findSubnode {children hash child}
    (h : findSubnode hashString children hash = some child) : child ∈ children :=
  List.mem_of_find?_eq_some h

theorem nameHash_of_findSubnode {children hash child}
    (h : findSubnode hashString children hash = some child) : child.nameHash hashString = hash := by
  simpa using List.find?_some h

theorem findSubnode_perm {children others} (h : WellFormed hashString children)
    (hp : children.Perm others) (hash : Nat) :
    findSubnode hashString others hash = findSubnode hashString children hash := by
  have ho : (others.map (Tree.nameHash hashString)).Nodup := (hp.map _).nodup_iff.mp h.distinct
  apply ext
  intro child
  rw [findSubnode_eq_some h]
  unfold findSubnode
  rw [find?_key_eq_some ho, hp.mem_iff]

theorem locate_cons (path : Path) (children : List Tree) (hash : Nat) (rest : Key) :
    locate hashString path children (hash :: rest) =
      (findSubnode hashString children hash).bind fun child =>
        if rest = [] then some (path ++ [child.node.name], child)
        else locate hashString (path ++ [child.node.name]) child.children rest := by
  rw [locate]
  cases findSubnode hashString children hash with
  | none => rfl
  | some child => cases rest <;> rfl

theorem locate_singleton {path : Path} {child : Tree} {key found}
    (h : locate hashString path [child] key = some found) :
    ∃ rest, key = child.nameHash hashString :: rest ∧
      (rest = [] ∧ found = (path ++ [child.node.name], child) ∨
        locate hashString (path ++ [child.node.name]) child.children rest = some found) := by
  cases key with
  | nil => cases h
  | cons hash rest =>
    rw [locate_cons] at h
    obtain ⟨c, hc, hf⟩ := bind_eq_some_iff.mp h
    obtain rfl := List.mem_singleton.mp (mem_of_findSubnode hc)
    refine ⟨rest, by rw [nameHash_of_findSubnode hc], ?_⟩
    split at hf
    next hr => exact .inl ⟨hr, (some.inj hf).symm⟩
    next => exact .inr hf

theorem locate_snd (path : Path) (children : List Tree) (key : Key) :
    (locate hashString path children key).map Prod.snd =
      (locate hashString [] children key).map Prod.snd := by
  induction key generalizing path children with
  | nil => rfl
  | cons hash rest ih =>
    rw [locate_cons, locate_cons]
    cases findSubnode hashString children hash with
    | none => rfl
    | some child =>
      by_cases hr : rest = []
      · simp [hr]
      · simp only [bind_some, if_neg hr]
        rw [ih, ih ([] ++ _)]

theorem entryAt_eq (path : Path) (children : List Tree) (key : Key) :
    entryAt hashString children key =
      (locate hashString path children key).map fun found => found.2.entry := by
  have h := congrArg (Option.map Tree.entry) (@locate_snd hashString path children key)
  simpa [entryAt, Function.comp_def] using h.symm

section

variable {path children key found} (h : locate hashString path children key = some found)
include h

theorem locate_key : found.1.key hashString = path.key hashString ++ key := by
  induction key generalizing path children with
  | nil => simp [locate] at h
  | cons hash rest ih =>
    rw [locate_cons] at h
    obtain ⟨child, hf, h⟩ := bind_eq_some_iff.mp h
    have hn : hashString child.node.name = hash := nameHash_of_findSubnode hf
    by_cases hr : rest = []
    · rw [if_pos hr] at h
      cases h
      simp [Path.key, hn, hr]
    · rw [if_neg hr] at h
      rw [ih h]
      simp [Path.key, hn]

theorem locate_name : ∃ parent, found.1 = parent ++ [found.2.node.name] := by
  induction key generalizing path children with
  | nil => simp [locate] at h
  | cons hash rest ih =>
    rw [locate_cons] at h
    obtain ⟨child, -, h⟩ := bind_eq_some_iff.mp h
    by_cases hr : rest = []
    · rw [if_pos hr] at h
      cases h
      exact ⟨path, rfl⟩
    · rw [if_neg hr] at h
      exact ih h

end

end Names

end Lore.Revision
