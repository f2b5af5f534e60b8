import Lore.State.SlotList

/-!
# SlotOwned — a slot has one owner

The slots handed out are those in use, each once: a grab hands out a slot that was not in use,
and freeing a slot takes it from its owner. So no slot below a block's node count is lost: it
is the root's, on the free list, or somebody's.
-/

namespace Lore.State

open List Function Allocator

variable {τ : Type}

theorem Allocator.allocateFreshBlock_eq {a : Allocator τ} (hp : 0 < a.blockCount)
    (hcap : a.blockCount < maxTreeBlockCount) :
    a.allocateFreshBlock = some { a.setBlock a.blockCount NodeBlock.newZeroed.markDirty with
      blockCount := a.blockCount + 1 } := by
  unfold allocateFreshBlock
  rw [if_neg (Nat.not_le_of_lt hcap), if_neg (Nat.ne_of_gt hp)]
  rfl

/-- What holds of the blocks and the owners of their slots. -/
structure SlotsOwned (a : Allocator τ) : Prop where
  positive : 0 < a.blockCount
  count : a.blockCount ≤ maxTreeBlockCount
  well : ∀ index < a.blockCount, (a.blocks index).Well index
  nodup : a.owned.Nodup
  owned : ∀ node, node ∈ a.owned ↔ blockIndex node < a.blockCount ∧
    (a.blocks (blockIndex node)).InUse (blockIndex node) (nodeIndex node)

section

variable {a : Allocator τ} {index other : Nat} {block : NodeBlock}

theorem Allocator.setBlock_of_ne (hne : other ≠ index) :
    (a.setBlock index block).blocks other = a.blocks other := update_of_ne hne ..

theorem Allocator.setBlock_cases (P : NodeBlock → Prop) (hse : other = index → P block)
    (ho : other ≠ index → P (a.blocks other)) : P ((a.setBlock index block).blocks other) := by
  show P (update a.blocks index block other)
  by_cases hne : other = index
  · rw [hne, update_self]
    exact hse hne
  · rw [update_of_ne hne]
    exact ho hne

end

namespace SlotsOwned

variable {a a' : Allocator τ}

section

variable (h : SlotsOwned a)
include h

theorem owned_nodeId {index slot} (hi : index < a.blockCount) (hsl : slot < blockNodeCount) :
    nodeId index slot ∈ a.owned ↔ (a.blocks index).InUse index slot := by
  rw [h.owned, blockIndex_nodeId index hsl, nodeIndex_nodeId index hsl]
  exact and_iff_right hi

theorem frame (hc : a'.blockCount = a.blockCount) (ho : a'.owned = a.owned)
    (hn : ∀ index, (a'.blocks index).nodeCount = (a.blocks index).nodeCount)
    (hf : ∀ index, (a'.blocks index).freeList = (a.blocks index).freeList) : SlotsOwned a' where
  positive := hc ▸ h.positive
  count := hc ▸ h.count
  well index hi := (h.well index (hc ▸ hi)).of_eq (hn index) (hf index)
  nodup := ho ▸ h.nodup
  owned node := by
    rw [ho, hc, h.owned, NodeBlock.InUse.of_eq (hn _) (hf _)]

theorem setBlock {index} (hi : index < a.blockCount) {block owned}
    (hw : block.Well index) (hn : owned.Nodup)
    (hse : ∀ slot < blockNodeCount, nodeId index slot ∈ owned ↔ block.InUse index slot)
    (ho : ∀ node, blockIndex node ≠ index → (node ∈ owned ↔ node ∈ a.owned)) :
    SlotsOwned { a.setBlock index block with owned := owned } := by
  refine ⟨h.positive, h.count, fun other hlt => ?_, hn, fun node => ?_⟩
  · exact setBlock_cases (·.Well other) (fun heq => heq ▸ hw) fun _ => h.well other hlt
  · refine setBlock_cases (fun block => node ∈ owned ↔ blockIndex node < a.blockCount ∧
      block.InUse _ _) (fun heq => ?_) fun hne => (ho node hne).trans (h.owned node)
    have hno : nodeId index (nodeIndex node) = node := heq ▸ nodeId_index node
    rw [heq, and_iff_right hi, ← hse _ (nodeIndex_lt node), hno]

/-- What `try_grab_in` comes to: a full block has no slot left; any other hands out one. -/
theorem tryGrabIn {index} (hi : index < a.blockCount) :
    ((a.blocks index).isFull = true ∧ a.tryGrabIn index = none) ∨
      ∃ block owned, a.tryGrabIn index = some { a.setBlock index block with owned := owned } ∧
        SlotsOwned { a.setBlock index block with owned := owned } ∧
        (a.blocks index).isFull = false ∧
        block.blockUnusedNext = (a.blocks index).blockUnusedNext ∧
        block.firstUnusedNode = (a.blocks index).firstUnusedNode ∧ block.dirty = true := by
  rcases (h.well index hi).grabNodeUnused with ⟨hf, hg⟩ | ⟨slot, hg, hn⟩
  · refine .inl ⟨hf, ?_⟩
    unfold Allocator.tryGrabIn
    rw [hg]
    rfl
  · refine .inr ⟨((a.blocks index).grabNodeUnused index).1.markDirty, a.owned ++ [nodeId index slot],
      ?_, ?_, hg.room, hg.next, hg.mark, rfl⟩
    · unfold Allocator.tryGrabIn
      dsimp only
      rw [hn, if_pos (isValidNodeId_nodeId (Nat.lt_of_lt_of_le hi h.count) hg.bound hg.root)]
    · have hnew : nodeId index slot ∉ a.owned := by
        rw [h.owned_nodeId hi hg.bound]
        exact hg.unused
      refine h.setBlock hi (hg.well.of_eq rfl rfl) ?_ (fun other ho => ?_) fun node hne => ?_
      · rw [nodup_append]
        exact ⟨h.nodup, nodup_singleton _, fun x hx y hy hxy =>
          hnew (mem_singleton.mp hy ▸ hxy ▸ hx)⟩
      · have hinj : nodeId index other = nodeId index slot ↔ other = slot := by
          refine ⟨fun heq => ?_, fun heq => heq ▸ rfl⟩
          rw [← nodeIndex_nodeId index ho, heq, nodeIndex_nodeId index hg.bound]
        rw [mem_append, mem_singleton, h.owned_nodeId hi ho, hinj]
        exact (hg.inUse other).symm
      · rw [mem_append, mem_singleton]
        refine or_iff_left fun heq => hne ?_
        rw [heq, blockIndex_nodeId index hg.bound]

theorem discardNode {node} (hn : node ∈ a.owned) :
    SlotsOwned (a.discardNode node) ∧ blockIndex node < a.blockCount ∧
      NodeBlock.Frees (a.blocks (blockIndex node)) (blockIndex node)
        ((a.blocks (blockIndex node)).discardNode (blockIndex node) (nodeIndex node))
        (nodeIndex node) := by
  obtain ⟨hi, hu⟩ := (h.owned node).mp hn
  have hf := (h.well _ hi).discardNode hu
  refine ⟨?_, hi, hf⟩
  refine h.setBlock hi (hf.well.of_eq rfl rfl) (h.nodup.erase node)
    (fun slot hsl => ?_) fun other hne => ?_
  · rw [h.nodup.mem_erase_iff, h.owned_nodeId hi hsl, and_comm]
    refine Iff.trans (and_congr_right fun _ => not_congr ?_) (hf.inUse slot).symm
    refine ⟨fun heq => ?_, fun heq => by rw [heq, nodeId_index]⟩
    rw [← heq, nodeIndex_nodeId _ hsl]
  · rw [h.nodup.mem_erase_iff]
    refine and_iff_right fun heq => hne ?_
    rw [heq]

theorem touch {index} {block : NodeBlock} (hc : a'.blockCount = a.blockCount)
    (ho : a'.owned = a.owned) (hb : a'.blocks = update a.blocks index block)
    (hn : block.nodeCount = (a.blocks index).nodeCount)
    (hf : block.freeList = (a.blocks index).freeList) : SlotsOwned a' := by
  have hsa : ∀ other, (a'.blocks other).nodeCount = (a.blocks other).nodeCount ∧
      (a'.blocks other).freeList = (a.blocks other).freeList := by
    rw [hb]
    exact (forall_update_iff a.blocks fun other block => block.nodeCount =
      (a.blocks other).nodeCount ∧ block.freeList = (a.blocks other).freeList).mpr
        ⟨⟨hn, hf⟩, fun _ _ => ⟨rfl, rfl⟩⟩
  exact h.frame hc ho (fun other => (hsa other).1) fun other => (hsa other).2

theorem link {node} (hn : node ∈ a.owned) (sibling : Nat) :
    SlotsOwned (a.setBlock (blockIndex node) { a.blocks (blockIndex node) with
      sibling := update (a.blocks (blockIndex node)).sibling (nodeIndex node)
        sibling }.markDirty) := by
  obtain ⟨-, hu⟩ := (h.owned node).mp hn
  exact h.touch rfl rfl rfl rfl (NodeBlock.freeList_write hu.2.1 sibling)

theorem retireFullBlock (head : Nat) : SlotsOwned (a.retireFullBlock head) := by
  unfold Allocator.retireFullBlock
  dsimp only
  split
  · exact h.touch rfl rfl rfl rfl rfl
  · exact h

theorem pushUnusedBlockList (index : Nat) : SlotsOwned (a.pushUnusedBlockList index) := by
  unfold Allocator.pushUnusedBlockList
  split
  · exact h
  · exact h.touch rfl rfl rfl rfl rfl

theorem allocateFreshBlock (hcap : a.blockCount < maxTreeBlockCount) :
    SlotsOwned { a.setBlock a.blockCount NodeBlock.newZeroed.markDirty with
      blockCount := a.blockCount + 1 } where
  positive := Nat.succ_pos _
  count := hcap
  well index hi := by
    refine setBlock_cases (·.Well index) (fun heq => ?_) fun hne =>
      h.well index (Nat.lt_of_le_of_ne (Nat.le_of_lt_succ hi) hne)
    refine ⟨nodup_nil, fun slot hsl => absurd hsl not_mem_nil, Nat.zero_le _, fun hz => ?_⟩
    exact absurd (heq ▸ hz) (Nat.ne_of_gt h.positive)
  nodup := h.nodup
  owned node := by
    show node ∈ a.owned ↔ _
    rw [h.owned]
    by_cases hne : blockIndex node = a.blockCount
    · rw [hne]
      simp only [Allocator.setBlock, update_self, Nat.lt_irrefl, false_and, false_iff]
      rintro ⟨-, hsl, -⟩
      exact absurd hsl (Nat.not_lt_zero _)
    · simp only [Allocator.setBlock, update_of_ne hne]
      refine and_congr_left fun _ => ?_
      omega

end

end SlotsOwned

end Lore.State
