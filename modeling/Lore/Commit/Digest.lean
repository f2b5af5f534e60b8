import Mathlib.Data.List.Sort
import Mathlib.Data.UInt
import Lore.Commit.Rehash

/-!
# Digest — what a directory's address says

The address of a directory computed from scratch (`recompute`), and the trees whose
directories all hold it (`Hashed`). The bytes a directory is hashed from determine what each
child contributes, and depend on the children only, not on the order of their chain.
-/

namespace Lore.Commit

open Lore.Storage Lore.Lib List

/-! ## Induction -/

/-- Induction over a tree, a directory after its children. -/
@[elab_as_elim]
theorem Tree.induction {motive : Tree → Prop} (file : ∀ node, motive (.file node))
    (link : ∀ node source, motive (.link node source))
    (directory : ∀ node children, (∀ child ∈ children, motive child) →
      motive (.directory node children)) (tree : Tree) : motive tree :=
  @Tree.rec motive (fun children => ∀ child ∈ children, motive child) file link directory
    (fun _ hmem => nomatch hmem)
    (fun _ _ hh ht _ hmem => by
      rcases mem_cons.mp hmem with rfl | hmem
      · exact hh
      · exact ht _ hmem)
    tree

mutual

/-- A node and everything below it. -/
def Tree.nodes : Tree → List Tree
  | .file node => [.file node]
  | .link node source => [.link node source]
  | .directory node children => .directory node children :: nodesBelow children

/-- Everything at or below `children`. -/
def nodesBelow : List Tree → List Tree
  | [] => []
  | child :: rest => child.nodes ++ nodesBelow rest

end

variable {children : List Tree} {xs ys : List ChildHashData}

theorem mem_nodesBelow {tree} :
    tree ∈ nodesBelow children ↔ ∃ child ∈ children, tree ∈ child.nodes := by
  induction children with
  | nil => simp [nodesBelow]
  | cons child rest ih => simp [nodesBelow, ih]

theorem Tree.self_mem_nodes (tree : Tree) : tree ∈ tree.nodes := by
  cases tree <;> simp [nodes]

theorem Tree.mem_nodes_directory {node tree} :
    tree ∈ (Tree.directory node children).nodes ↔
      tree = .directory node children ∨ ∃ child ∈ children, tree ∈ child.nodes := by
  rw [nodes, mem_cons, mem_nodesBelow]

theorem mem_nodesBelow_of_mem {child} (h : child ∈ children) :
    child ∈ nodesBelow children := mem_nodesBelow.mpr ⟨child, h, child.self_mem_nodes⟩

theorem Tree.mem_nodes_of_child {parent child low : Tree} (hc : child ∈ parent.children)
    (hl : low ∈ child.nodes) : low ∈ parent.nodes := by
  cases parent with
  | file node | link node source => cases hc
  | directory node children => exact Tree.mem_nodes_directory.mpr (.inr ⟨child, hc, hl⟩)

theorem Tree.forall_nodes {P : Tree → Prop}
    (hs : ∀ parent child, P parent → child ∈ parent.children → P child) {tree below : Tree}
    (h : P tree) (hb : below ∈ tree.nodes) : P below := by
  induction tree using Tree.induction with
  | file node | link node source =>
    simp only [nodes, mem_singleton] at hb
    exact hb ▸ h
  | directory node children ih =>
    rcases Tree.mem_nodes_directory.mp hb with rfl | ⟨child, hc, hb⟩
    · exact h
    · exact ih child hc (hs _ child h hc) hb

/-! ## The bytes -/

theorem ChildHashData.bytes_append_inj {a b : ChildHashData} {rest others : Bytes}
    (ha : a.name.length < UInt32.size) (hb : b.name.length < UInt32.size)
    (h : a.bytes ++ rest = b.bytes ++ others) : a = b ∧ rest = others := by
  obtain ⟨hd, h⟩ := NodeHashData.layout.encode_append_inj h
  obtain ⟨hl, h⟩ := Layout.u32.encode_append_inj h
  have hl : a.name.length = b.name.length := by
    have hnat := congrArg UInt32.toNat hl
    rwa [UInt32.toNat_ofNat_of_lt' ha, UInt32.toNat_ofNat_of_lt' hb] at hnat
  obtain ⟨hn, hr⟩ := append_inj h hl
  cases a
  exact ⟨by simp_all, hr⟩

theorem ChildHashData.bytes_ne_nil (child : ChildHashData) : child.bytes ≠ [] := by
  intro h
  have hlen := congrArg length h
  simp only [ChildHashData.bytes, length_append, Layout.length_encode, length_nil] at hlen
  have : Layout.u32.size = 4 := rfl
  omega

theorem flatMap_bytes_inj (hxs : ∀ x ∈ xs, x.name.length < UInt32.size)
    (hys : ∀ y ∈ ys, y.name.length < UInt32.size)
    (h : xs.flatMap ChildHashData.bytes = ys.flatMap ChildHashData.bytes) : xs = ys := by
  induction xs generalizing ys with
  | nil =>
    cases ys with
    | nil => rfl
    | cons y ys =>
      exact absurd (append_eq_nil_iff.mp h.symm).1 y.bytes_ne_nil
  | cons x xs ih =>
    cases ys with
    | nil =>
      exact absurd (append_eq_nil_iff.mp h).1 x.bytes_ne_nil
    | cons y ys =>
      obtain ⟨hf, hr⟩ := ChildHashData.bytes_append_inj (hxs x mem_cons_self)
        (hys y mem_cons_self) h
      rw [hf, ih (fun x hx => hxs x (mem_cons_of_mem _ hx))
        (fun y hy => hys y (mem_cons_of_mem _ hy)) hr]

/-! ## The order of the children -/

theorem sortByNameHash_perm (children : List ChildHashData) :
    (sortByNameHash children).Perm children := mergeSort_perm ..

theorem sortByNameHash_pairwise (children : List ChildHashData) :
    (sortByNameHash children).Pairwise fun a b => a.data.nameHash ≤ b.data.nameHash := by
  have h : (sortByNameHash children).Pairwise fun a b =>
      decide (a.data.nameHash ≤ b.data.nameHash) = true := pairwise_mergeSort ?_ ?_ children
  · exact h.imp of_decide_eq_true
  · intro a b c hab hbc
    exact decide_eq_true (UInt64.le_trans (of_decide_eq_true hab) (of_decide_eq_true hbc))
  · intro a b
    rcases UInt64.le_total a.data.nameHash b.data.nameHash with h | h <;> simp [h]

/-- The children of a directory, whose name hashes are its own, are sorted into one list
whatever their chain. -/
theorem sortByNameHash_eq_of_perm (hp : xs.Perm ys)
    (hd : (xs.map (·.data.nameHash)).Nodup) : sortByNameHash xs = sortByNameHash ys := by
  have hso : (sortByNameHash xs).Perm (sortByNameHash ys) :=
    ((sortByNameHash_perm xs).trans hp).trans (sortByNameHash_perm ys).symm
  refine hso.eq_of_pairwise ?_ (sortByNameHash_pairwise xs) (sortByNameHash_pairwise ys)
  intro a b ha hb hab hba
  have hkey : a.data.nameHash = b.data.nameHash := UInt64.le_antisymm hab hba
  have ha : a ∈ xs := (sortByNameHash_perm xs).mem_iff.mp ha
  have hb : b ∈ xs := hp.mem_iff.mpr ((sortByNameHash_perm ys).mem_iff.mp hb)
  exact inj_on_of_nodup_map hd ha hb hkey

theorem hashInput_eq_of_perm (hp : xs.Perm ys) (hd : (xs.map (·.data.nameHash)).Nodup) :
    hashInput xs = hashInput ys := by
  rw [hashInput, hashInput, sortByNameHash_eq_of_perm hp hd]

theorem perm_of_hashInput_eq (hxs : ∀ x ∈ xs, x.name.length < UInt32.size)
    (hys : ∀ y ∈ ys, y.name.length < UInt32.size) (h : hashInput xs = hashInput ys) :
    xs.Perm ys := by
  have hso : sortByNameHash xs = sortByNameHash ys :=
    flatMap_bytes_inj (fun x hx => hxs x ((sortByNameHash_perm xs).mem_iff.mp hx))
      (fun y hy => hys y ((sortByNameHash_perm ys).mem_iff.mp hy)) h
  exact (sortByNameHash_perm xs).symm.trans (hso ▸ sortByNameHash_perm ys)

/-! ## The digest -/

/-- The size of a directory: that of all its children. -/
def totalSize (children : List Tree) : UInt64 := (children.map (·.node.size)).sum

section

variable (keyedHash : Bytes → Hash)

/-- The address hash of a directory that holds `children`. -/
def digest (children : List Tree) : Hash := keyedHash (hashInput (children.map .of))

mutual

/-- Every directory at or below a node hashed from scratch, whatever it holds and whether it
is staged or not. -/
def recompute : Tree → Tree
  | .file node => .file node
  | .link node source => .link node source
  | .directory node children =>
      .directory (node.setHashAndSize (digest keyedHash (recomputeAll children))
        (totalSize (recomputeAll children))) (recomputeAll children)

def recomputeAll : List Tree → List Tree
  | [] => []
  | child :: rest => recompute child :: recomputeAll rest

end

/-- The whole tree of a revision hashed from scratch. -/
def recomputeRoot (root : Root) : Root where
  node := root.node.setHashAndSize (digest keyedHash (recomputeAll keyedHash root.children))
    (totalSize (recomputeAll keyedHash root.children))
  children := recomputeAll keyedHash root.children

/-- A directory's record holds the hash and the size its children give. -/
def HoldsDigest (node : Node) (children : List Tree) : Prop :=
  node.address.hash = digest keyedHash children ∧ node.size = totalSize children

/-- Every directory at or below a node holds what its children give. -/
inductive Hashed : Tree → Prop where
  | file (node : Node) : Hashed (.file node)
  | link (node : Node) (source : NodeID) : Hashed (.link node source)
  | directory {node : Node} {children : List Tree} (holds : HoldsDigest keyedHash node children)
      (below : ∀ child ∈ children, Hashed child) : Hashed (.directory node children)

variable {keyedHash}

theorem recomputeAll_eq_map (children : List Tree) :
    recomputeAll keyedHash children = children.map (recompute keyedHash) := by
  induction children with
  | nil => rfl
  | cons child rest ih => rw [recomputeAll, map_cons, ih]

theorem HoldsDigest.setHashAndSize_eq {node children} (h : HoldsDigest keyedHash node children) :
    node.setHashAndSize (digest keyedHash children) (totalSize children) = node := by
  cases node
  simp only [Node.setHashAndSize, Node.mk.injEq, true_and]
  exact ⟨h.2.symm, by rw [← h.1]⟩

theorem Hashed.child {parent child} (h : Hashed keyedHash parent) (hc : child ∈ parent.children) :
    Hashed keyedHash child := by
  cases h with
  | file node | link node source => cases hc
  | directory _ below => exact below child hc

theorem Hashed.recompute_eq {tree} (h : Hashed keyedHash tree) :
    recompute keyedHash tree = tree := by
  induction tree using Tree.induction with
  | file node | link node source => rfl
  | directory node children ih =>
    cases h with
    | directory holds below =>
      have hall : recomputeAll keyedHash children = children := by
        rw [recomputeAll_eq_map]
        exact (map_congr_left fun child hc =>
          ih child hc (below child hc)).trans (map_id' children)
      rw [recompute, hall, holds.setHashAndSize_eq]

theorem recompute_hashed (tree : Tree) : Hashed keyedHash (recompute keyedHash tree) := by
  induction tree using Tree.induction with
  | file node => exact .file node
  | link node source => exact .link node source
  | directory node children ih =>
    refine .directory ⟨rfl, rfl⟩ ?_
    intro child hc
    rw [recomputeAll_eq_map] at hc
    obtain ⟨before, hb, rfl⟩ := mem_map.mp hc
    exact ih before hb

end

end Lore.Commit
