import Lore.Commit.RehashSpec
import Lore.Lib.MergeJoin

/-!
# Edited — a tree whose edits are staged

An edit that stages every node it changes, and the directories above it, leaves the hash of
a directory it did not stage right: nothing below that directory changed. The node ids say
which node of the edited tree is which node of the tree before.
-/

namespace Lore.Commit

open Lore.Storage Lore.Lib List

/-- The record of a node but for its flags. -/
def Node.record (node : Node) : Node := { node with flags := 0 }

/-- The tree before holds the node with the same record and, up to the order of the chain,
the same children: it was neither added, edited nor moved, and nothing was moved into it or
out of it. -/
def Kept (before : List Tree) (tree : Tree) : Prop :=
  ∃ held ∈ nodesBelow before, held.node.record = tree.node.record ∧ held.kind = tree.kind ∧
    held.mountSource = tree.mountSource ∧
    (held.children.map (·.node.id)).Perm (tree.children.map (·.node.id))

/-- A tree edited from one whose directories were all last hashed by the rehash: what was
edited or moved, and every directory above it, is staged, and the commit has cleared the
flags of the files and links it committed. -/
structure Edited (keyedHash : Bytes → Hash) (before after : Root) : Prop where
  hashed : ∀ child ∈ before.children, Hashed keyedHash child
  ids : ((nodesBelow before.children).map (·.node.id)).Nodup
  wellFormed : WellFormed after.children
  committed : ∀ tree ∈ nodesBelow after.children, Committed tree
  staged : ∀ node below, .directory node below ∈ nodesBelow after.children →
    ∀ tree ∈ (Tree.directory node below).nodes, Kept before.children tree ∨ node.isStaged = true

variable {keyedHash : Bytes → Hash}

theorem Hashed.of_mem_nodes {tree below} (h : Hashed keyedHash tree) (hb : below ∈ tree.nodes) :
    Hashed keyedHash below := Tree.forall_nodes (fun _ _ hp hc => hp.child hc) h hb

theorem mem_nodesBelow_of_child {trees parent child} (hp : parent ∈ nodesBelow trees)
    (hc : child ∈ parent.children) : child ∈ nodesBelow trees := by
  obtain ⟨top, htop, hp⟩ := mem_nodesBelow.mp hp
  exact mem_nodesBelow.mpr ⟨top, htop, Tree.forall_nodes (P := fun tree => ∀ low ∈ tree.nodes,
    low ∈ top.nodes) (fun _ _ hsu hc low hl => hsu low (Tree.mem_nodes_of_child hc hl))
    (fun _ hl => hl) hp _ (Tree.mem_nodes_of_child hc child.self_mem_nodes)⟩

theorem ChildHashData.of_eq_of_record {a b} (hr : a.node.record = b.node.record)
    (hm : a.mountSource = b.mountSource) : ChildHashData.of a = .of b := by
  simp only [Node.record, Node.mk.injEq] at hr
  obtain ⟨_, hmo, hn, hnH, hsi, ha⟩ := hr
  simp [ChildHashData.of, NodeHashData.fromNode, hn, hnH, hsi, ha, hm]

theorem totalSize_eq_sum (children : List Tree) :
    totalSize children = ((children.map ChildHashData.of).map (·.data.size)).sum := by
  rw [map_map]
  rfl

theorem digest_eq_of_perm {children others}
    (hp : (children.map ChildHashData.of).Perm (others.map .of))
    (hd : (others.map (·.node.nameHash)).Nodup) :
    digest keyedHash children = digest keyedHash others ∧
      totalSize children = totalSize others := by
  have hi : hashInput (children.map .of) = hashInput (others.map .of) := by
    refine (hashInput_eq_of_perm hp.symm ?_).symm
    rw [map_map]
    exact hd
  refine ⟨?_, ?_⟩
  · rw [digest, digest, hi]
  · rw [totalSize_eq_sum, totalSize_eq_sum, (hp.map _).sum_eq]

section

variable {before : List Tree}

/-- The children of a kept directory, all kept, contribute what the children of the
directory before did: each is found before by its id. -/
theorem map_of_perm_of_kept (hids : ((nodesBelow before).map (·.node.id)).Nodup)
    {held : Tree} (hh : held ∈ nodesBelow before) {children : List Tree}
    (hch : (held.children.map (·.node.id)).Perm (children.map (·.node.id)))
    (hk : ∀ child ∈ children, Kept before child) :
    (held.children.map ChildHashData.of).Perm (children.map .of) := by
  -- What the node of an id contributes in the tree before.
  let contribution : NodeID → ChildHashData := fun id =>
    ((nodesBelow before).find? (·.node.id = id)).elim (.of held) .of
  have hf : ∀ tree ∈ nodesBelow before, contribution tree.node.id = .of tree := by
    intro tree ht
    have hfi : (nodesBelow before).find? (·.node.id = tree.node.id) = some tree :=
      (find?_key_eq_some hids tree.node.id tree).mpr ⟨ht, rfl⟩
    simp [contribution, hfi]
  have hb : held.children.map ChildHashData.of
      = (held.children.map (·.node.id)).map contribution := by
    rw [map_map]
    exact map_congr_left fun child hc =>
      (hf child (mem_nodesBelow_of_child hh hc)).symm
  have ha : children.map ChildHashData.of
      = (children.map (·.node.id)).map contribution := by
    rw [map_map]
    refine map_congr_left fun child hc => ?_
    obtain ⟨same, hsa, hr, _, hm, _⟩ := hk child hc
    have hid : same.node.record.id = child.node.record.id := congrArg Node.id hr
    have hid : same.node.id = child.node.id := hid
    show _ = contribution child.node.id
    rw [← hid, hf same hsa, ChildHashData.of_eq_of_record hr hm]
  rw [hb, ha]
  exact hch.map contribution

theorem hashed_of_kept (hh : ∀ child ∈ before, Hashed keyedHash child)
    (hids : ((nodesBelow before).map (·.node.id)).Nodup) {tree : Tree}
    (hw : WellFormed tree.children) (hk : ∀ below ∈ tree.nodes, Kept before below) :
    Hashed keyedHash tree := by
  induction tree using Tree.induction with
  | file node => exact .file node
  | link node source => exact .link node source
  | directory node children ih =>
    have hmem : ∀ child ∈ children, ∀ below ∈ child.nodes,
        below ∈ (Tree.directory node children).nodes :=
      fun _ hc _ hb => Tree.mem_nodes_of_child hc hb
    refine .directory ?_ fun child hc => ih child hc (hw.child hc)
      fun below hb => hk below (hmem child hc below hb)
    obtain ⟨held, hhe, hr, hki, _, hch⟩ := hk _ (Tree.self_mem_nodes _)
    have hp := map_of_perm_of_kept hids hhe hch fun child hc =>
      hk child (hmem child hc child child.self_mem_nodes)
    obtain ⟨top, htop, hb⟩ := mem_nodesBelow.mp hhe
    have hhH := (hh top htop).of_mem_nodes hb
    cases held with
    | file heldNode | link heldNode source => cases hki
    | directory heldNode heldChildren =>
      cases hhH with
      | directory holds _ =>
        have hsa : digest keyedHash heldChildren = digest keyedHash children ∧
            totalSize heldChildren = totalSize children :=
          digest_eq_of_perm hp hw.distinct
        simp only [Node.record, Tree.node, Node.mk.injEq] at hr
        obtain ⟨_, _, _, _, _, hsi, ha⟩ := hr
        exact ⟨by rw [← ha, holds.1, hsa.1], by rw [← hsi, holds.2, hsa.2]⟩

end

/-- The directories an edit left unstaged hold the hash of what they hold. -/
theorem Edited.settled {before after} (h : Edited keyedHash before after) :
    Settled keyedHash (nodesBelow after.children) := by
  intro node below hmem hu
  have hw : WellFormed below := by
    obtain ⟨top, htop, hmem⟩ := mem_nodesBelow.mp hmem
    exact (h.wellFormed.child htop).of_mem_nodes hmem
  refine hashed_of_kept h.hashed h.ids hw fun tree ht => ?_
  rcases h.staged node below hmem tree ht with hk | hst
  · exact hk
  · rw [hu] at hst
    cases hst

end Lore.Commit
