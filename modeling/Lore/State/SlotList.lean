import Mathlib.Data.List.Iterate
import Mathlib.Data.List.Nodup
import Mathlib.Order.Interval.Finset.Nat
import Lore.State.Slots

/-!
# SlotList — the slots of one block

A block's slots below its node count are in use or on its free list, and never both; the
root's is reserved. A grab takes one that is neither, and freeing a slot makes it free: by
putting it on the list, or, where none is left in use, by emptying the block.
-/

namespace Lore.State

open List Function

/-! ## Node ids -/

theorem nodeIndex_eq (node : Nat) : nodeIndex node = node % 512 :=
  Nat.and_two_pow_sub_one_eq_mod node 9

theorem nodeIndex_lt (node : Nat) : nodeIndex node < blockNodeCount := by
  rw [nodeIndex_eq]
  exact Nat.mod_lt _ (by omega)

theorem blockIndex_eq (node : Nat) : blockIndex node = node / 512 :=
  Nat.shiftRight_eq_div_pow node 9

theorem nodeId_eq (index : Nat) {slot} (h : slot < blockNodeCount) :
    nodeId index slot = index * 512 + slot := by
  rw [nodeId, ← Nat.shiftLeft_add_eq_or_of_lt (i := blockNodeShift) h, Nat.shiftLeft_eq,
    blockNodeShift]

theorem nodeIndex_nodeId (index : Nat) {slot} (h : slot < blockNodeCount) :
    nodeIndex (nodeId index slot) = slot := by
  rw [nodeIndex_eq, nodeId_eq index h]
  unfold blockNodeCount at h
  omega

theorem blockIndex_nodeId (index : Nat) {slot} (h : slot < blockNodeCount) :
    blockIndex (nodeId index slot) = index := by
  rw [blockIndex_eq, nodeId_eq index h]
  unfold blockNodeCount at h
  omega

theorem nodeId_index (node : Nat) : nodeId (blockIndex node) (nodeIndex node) = node := by
  rw [nodeId_eq _ (nodeIndex_lt node), blockIndex_eq, nodeIndex_eq]
  omega

theorem isValidNodeId_nodeId {index slot} (hi : index < maxTreeBlockCount)
    (hsl : slot < blockNodeCount) (hr : index = 0 → slot ≠ 0) :
    isValidNodeId (nodeId index slot) = true := by
  unfold maxTreeBlockCount at hi
  unfold isValidNodeId rootNode invalidNode
  rw [nodeId_eq index hsl]
  unfold blockNodeCount at hsl
  rw [Bool.and_eq_true, bne_iff_ne, bne_iff_ne]
  omega

theorem ne_invalidBlock {index blockCount} (h : index < blockCount)
    (hc : blockCount ≤ maxTreeBlockCount) : index ≠ invalidBlock := by
  unfold invalidBlock
  unfold maxTreeBlockCount at hc
  omega

/-! ## The free list -/

theorem iterate_update {f : Nat → Nat} {start n slot} (value : Nat) (h : slot ∉ iterate f start n) :
    iterate (update f slot value) start n = iterate f start n := by
  induction n generalizing start with
  | zero => rfl
  | succ n ih =>
    rw [iterate, mem_cons, not_or] at h
    rw [iterate, iterate, update_of_ne (Ne.symm h.1), ih h.2]

namespace NodeBlock

variable {block : NodeBlock} {index slot : Nat}

/-- What holds of the block at `index`. -/
structure Well (block : NodeBlock) (index : Nat) : Prop where
  nodup : block.freeList.Nodup
  bounded : ∀ slot ∈ block.freeList, slot < block.nodeCount
  count : block.nodeCount ≤ blockNodeCount
  root : index = 0 → 0 < block.nodeCount ∧ 0 ∉ block.freeList

/-- The slot is neither free nor the root's. -/
def InUse (block : NodeBlock) (index slot : Nat) : Prop :=
  slot < block.nodeCount ∧ slot ∉ block.freeList ∧ (index = 0 → slot ≠ 0)

@[simp] theorem length_freeList (block : NodeBlock) :
    block.freeList.length = block.nodeUnusedCount := length_iterate ..

theorem isFull_eq_false (block : NodeBlock) :
    block.isFull = false ↔ block.nodeUnusedCount ≠ 0 ∨ block.nodeCount ≠ blockNodeCount := by
  simp only [isFull, Bool.and_eq_false_iff, beq_eq_false_iff_ne]

theorem freeList_write (hsl : slot ∉ block.freeList) (value : Nat) :
    ({ block with sibling := update block.sibling slot value } : NodeBlock).freeList =
      block.freeList := iterate_update value hsl

/-! ### Grabs -/

/-- What a grab comes to: a full block has no slot, and from any other it takes one that was
not in use. -/
structure Grabs (block : NodeBlock) (index : Nat) (block' : NodeBlock) (slot : Nat) : Prop where
  room : block.isFull = false
  bound : slot < blockNodeCount
  unused : ¬ block.InUse index slot
  root : index = 0 → slot ≠ 0
  well : block'.Well index
  inUse : ∀ other, block'.InUse index other ↔ block.InUse index other ∨ other = slot
  next : block'.blockUnusedNext = block.blockUnusedNext
  mark : block'.firstUnusedNode = block.firstUnusedNode

theorem freeList_eq_cons (h : 0 < block.nodeUnusedCount) :
    block.freeList = block.nodeUnused ::
      iterate block.sibling (block.sibling block.nodeUnused) (block.nodeUnusedCount - 1) := by
  unfold freeList
  obtain ⟨n, hn⟩ := Nat.exists_eq_succ_of_ne_zero (by omega : block.nodeUnusedCount ≠ 0)
  rw [hn]
  rfl

theorem freeList_eq_nil (h : block.nodeUnusedCount = 0) : block.freeList = [] := by
  unfold freeList
  rw [h]
  rfl

section

variable (h : block.Well index)
include h

theorem Well.grab_free (hc : 0 < block.nodeUnusedCount) :
    Grabs block index (block.grabNodeUnused index).1 block.nodeUnused ∧
      (block.grabNodeUnused index).2 = nodeId index block.nodeUnused := by
  have hl := freeList_eq_cons hc
  have hmem : block.nodeUnused ∈ block.freeList := hl ▸ mem_cons_self
  have hsl : block.nodeUnused < blockNodeCount := Nat.lt_of_lt_of_le (h.bounded _ hmem) h.count
  have hi : nodeIndex block.nodeUnused = block.nodeUnused := by
    rw [nodeIndex_eq]
    exact Nat.mod_eq_of_lt hsl
  have hn := h.nodup
  rw [hl, nodup_cons] at hn
  unfold grabNodeUnused
  rw [if_pos hc, hi]
  refine ⟨?_, rfl⟩
  have hf : ({ block with
      nodeUnused := block.sibling block.nodeUnused
      nodeUnusedCount := block.nodeUnusedCount - 1
      sibling := update block.sibling block.nodeUnused 0 } : NodeBlock).freeList =
      iterate block.sibling (block.sibling block.nodeUnused) (block.nodeUnusedCount - 1) :=
    iterate_update 0 hn.1
  have hmem_iff : ∀ x, x ∈ block.freeList ↔ x = block.nodeUnused ∨
      x ∈ iterate block.sibling (block.sibling block.nodeUnused)
        (block.nodeUnusedCount - 1) := by
    intro x
    rw [hl, mem_cons]
  refine ⟨?_, hsl, fun hu => hu.2.1 hmem, ?_, ⟨?_, ?_, h.count, ?_⟩, fun other => ?_, rfl, rfl⟩
  · rw [isFull_eq_false]
    exact .inl (by omega)
  · rintro hz hr
    exact (h.root hz).2 (hr ▸ hmem)
  · rw [hf]
    exact hn.2
  · intro x hx
    rw [hf] at hx
    exact h.bounded x ((hmem_iff x).mpr (.inr hx))
  · intro hz
    refine ⟨(h.root hz).1, fun hx => (h.root hz).2 ?_⟩
    rw [hf] at hx
    exact (hmem_iff 0).mpr (.inr hx)
  · unfold InUse
    rw [hf, hmem_iff]
    constructor
    · rintro ⟨hlt, hnot, hr⟩
      by_cases ho : other = block.nodeUnused
      · exact .inr ho
      · exact .inl ⟨hlt, fun hor => hor.elim ho hnot, hr⟩
    · rintro (⟨hlt, hnot, hr⟩ | rfl)
      · exact ⟨hlt, fun hx => hnot (.inr hx), hr⟩
      · refine ⟨h.bounded _ hmem, hn.1, fun hz hr => ?_⟩
        exact (h.root hz).2 (hr ▸ hmem)

theorem Well.grab_fresh (hc : block.nodeUnusedCount = 0) (hro : block.nodeCount < blockNodeCount) :
    Grabs block index (block.grabNodeUnused index).1 block.nodeCount ∧
      (block.grabNodeUnused index).2 = nodeId index block.nodeCount := by
  unfold grabNodeUnused
  rw [if_neg (by omega), if_pos hro]
  refine ⟨?_, rfl⟩
  have hnil := freeList_eq_nil hc
  have hf : ({ block with
      nodeCount := block.nodeCount + 1
      sibling := update block.sibling block.nodeCount 0 } : NodeBlock).freeList = [] :=
    freeList_eq_nil hc
  refine ⟨?_, hro, fun hu => Nat.lt_irrefl _ hu.1, ?_, ⟨?_, ?_, hro, ?_⟩, fun other => ?_, rfl, rfl⟩
  · rw [isFull_eq_false]
    exact .inr (by omega)
  · intro hz hr
    have := (h.root hz).1
    omega
  · rw [hf]
    exact nodup_nil
  · intro x hx
    rw [hf] at hx
    cases hx
  · intro hz
    rw [hf]
    exact ⟨Nat.succ_pos _, not_mem_nil⟩
  · unfold InUse
    rw [hf, hnil]
    have hpos := fun hz => (h.root hz).1
    constructor
    · rintro ⟨hlt, _, hr⟩
      rcases Nat.lt_succ_iff_lt_or_eq.mp hlt with hlt | rfl
      · exact .inl ⟨hlt, not_mem_nil, hr⟩
      · exact .inr rfl
    · rintro (⟨hlt, _, hr⟩ | rfl)
      · exact ⟨Nat.lt_succ_of_lt hlt, not_mem_nil, hr⟩
      · refine ⟨Nat.lt_succ_self _, not_mem_nil, fun hz hr => ?_⟩
        omega

theorem Well.grabNodeUnused :
    (block.isFull = true ∧ block.grabNodeUnused index = (block, invalidNode)) ∨
      ∃ slot, Grabs block index (block.grabNodeUnused index).1 slot ∧
        (block.grabNodeUnused index).2 = nodeId index slot := by
  by_cases hc : 0 < block.nodeUnusedCount
  · exact .inr ⟨_, h.grab_free hc⟩
  · by_cases hr : block.nodeCount < blockNodeCount
    · exact .inr ⟨_, h.grab_fresh (by omega) hr⟩
    · refine .inl ⟨?_, ?_⟩
      · have hcap := h.count
        rw [isFull, Bool.and_eq_true, beq_iff_eq, beq_iff_eq]
        omega
      · unfold NodeBlock.grabNodeUnused
        rw [if_neg hc, if_neg hr]

/-! ### Discards -/

omit h in
theorem mem_of_nodup_of_length {list : List Nat} {low high : Nat} (hn : list.Nodup)
    (hb : ∀ x ∈ list, low ≤ x ∧ x < high) (hl : list.length = high - low) {x : Nat}
    (hx : low ≤ x ∧ x < high) : x ∈ list := by
  have hsu : list.toFinset ⊆ Finset.Ico low high := by
    intro y hy
    rw [Finset.mem_Ico]
    exact hb y (mem_toFinset.mp hy)
  have hc : (Finset.Ico low high).card ≤ list.toFinset.card := by
    rw [Nat.card_Ico, toFinset_card_of_nodup hn, hl]
  rw [← mem_toFinset, Finset.eq_of_subset_of_card_le hsu hc, Finset.mem_Ico]
  exact hx

omit h in
theorem freeList_cons (hsl : slot ∉ block.freeList) :
    List.iterate (Function.update block.sibling slot
      (if 0 < block.nodeUnusedCount then block.nodeUnused else invalidNode)) slot
      (block.nodeUnusedCount + 1) = slot :: block.freeList := by
  rw [List.iterate, Function.update_self]
  by_cases hc : 0 < block.nodeUnusedCount
  · rw [if_pos hc]
    exact congrArg (slot :: ·) (iterate_update _ hsl)
  · rw [freeList_eq_nil (by omega), (by omega : block.nodeUnusedCount = 0)]
    rfl

/-- What freeing a slot comes to. -/
structure Frees (block : NodeBlock) (index : Nat) (block' : NodeBlock) (slot : Nat) : Prop where
  well : block'.Well index
  inUse : ∀ other, block'.InUse index other ↔ block.InUse index other ∧ other ≠ slot
  room : block'.isFull = false
  next : block'.blockUnusedNext = block.blockUnusedNext
  mark : block'.firstUnusedNode = (block.firstUnusedNode || block.isFull)

/-- A block all of whose slots are free is emptied: they are not below its node count any
more. -/
theorem Well.empty (hsl : block.InUse index slot) {reserved : Nat}
    (hr : reserved = if index = 0 then 1 else 0)
    (hu : block.nodeCount - reserved = block.nodeUnusedCount + 1) (mark : Bool)
    (sibling : Nat → Nat) : let block' : NodeBlock :=
      { block with
        firstUnusedNode := mark, sibling := sibling, nodeUnused := 0, nodeUnusedCount := 0,
        nodeCount := reserved }
    block'.Well index ∧
      (∀ other, block'.InUse index other ↔ block.InUse index other ∧ other ≠ slot) ∧
      block'.isFull = false := by
  intro block'
  have hle : reserved ≤ 1 := by
    rw [hr]
    split <;> omega
  refine ⟨⟨?_, ?_, ?_, ?_⟩, fun other => ?_, ?_⟩
  · exact nodup_nil
  · intro x hx
    exact absurd hx not_mem_nil
  · show reserved ≤ 512
    omega
  · intro hz
    refine ⟨?_, not_mem_nil⟩
    show 0 < reserved
    rw [hr, if_pos hz]
    omega
  · constructor
    · rintro ⟨hlt, -, hro⟩
      have hlt : other < reserved := hlt
      rw [hr] at hlt
      split at hlt
      case isTrue hz => exact absurd (by omega : other = 0) (hro hz)
      case isFalse => omega
    · rintro ⟨⟨hlt, hnot, hro⟩, hne⟩
      -- The slot freed and the free ones are all there are, so `other` is one of them.
      have hlow : ∀ {x}, x < block.nodeCount → (index = 0 → x ≠ 0) →
          reserved ≤ x ∧ x < block.nodeCount := by
        intro x hx hxr
        rw [hr]
        split
        case isTrue hz =>
          omega
        case isFalse => omega
      have hall : other ∈ slot :: block.freeList := by
        refine mem_of_nodup_of_length (nodup_cons.mpr ⟨hsl.2.1, h.nodup⟩) ?_ ?_ (hlow hlt hro)
        · intro x hx
          rcases mem_cons.mp hx with rfl | hx
          · exact hlow hsl.1 hsl.2.2
          · refine hlow (h.bounded x hx) fun hz hxz => ?_
            exact (h.root hz).2 (hxz ▸ hx)
        · rw [length_cons, length_freeList]
          omega
      exact absurd hall (by simp [hne, hnot])
  · rw [isFull_eq_false]
    refine .inr ?_
    show reserved ≠ 512
    omega

theorem Well.discardNode (hsl : block.InUse index slot) :
    Frees block index (block.discardNode index slot) slot := by
  have hc := freeList_cons hsl.2.1
  unfold NodeBlock.discardNode
  dsimp only
  generalize hr : (if index = 0 then 1 else 0) = reserved
  split
  case isTrue hu =>
    obtain ⟨hw, hiU, hroo⟩ := h.empty hsl hr.symm hu (block.firstUnusedNode || block.isFull) _
    exact ⟨hw, hiU, hroo, rfl, rfl⟩
  case isFalse hu =>
    refine ⟨⟨?_, ?_, h.count, ?_⟩, fun other => ?_, ?_, rfl, rfl⟩
    · unfold freeList
      rw [hc]
      exact nodup_cons.mpr ⟨hsl.2.1, h.nodup⟩
    · intro x hx
      unfold freeList at hx
      rw [hc] at hx
      rcases mem_cons.mp hx with rfl | hx
      · exact hsl.1
      · exact h.bounded x hx
    · intro hz
      refine ⟨(h.root hz).1, ?_⟩
      unfold freeList
      rw [hc, mem_cons, not_or]
      exact ⟨Ne.symm (hsl.2.2 hz), (h.root hz).2⟩
    · unfold InUse
      conv_lhs => unfold freeList
      rw [hc, mem_cons, not_or]
      constructor
      · rintro ⟨hlt, ⟨hne, hnot⟩, hro⟩
        exact ⟨⟨hlt, hnot, hro⟩, hne⟩
      · rintro ⟨⟨hlt, hnot, hro⟩, hne⟩
        exact ⟨hlt, ⟨hne, hnot⟩, hro⟩
    · rw [isFull_eq_false]
      exact .inl (Nat.succ_ne_zero _)

/-! ### Other writes of a block -/

theorem Well.of_eq {block' : NodeBlock}
    (hc : block'.nodeCount = block.nodeCount) (hf : block'.freeList = block.freeList) :
    block'.Well index where
  nodup := hf ▸ h.nodup
  bounded := by
    rw [hf, hc]
    exact h.bounded
  count := hc ▸ h.count
  root := by
    rw [hf, hc]
    exact h.root

end

theorem InUse.of_eq {block' : NodeBlock} (hc : block'.nodeCount = block.nodeCount)
    (hf : block'.freeList = block.freeList) : block'.InUse index slot ↔ block.InUse index slot := by
  unfold InUse
  rw [hc, hf]

end NodeBlock

end Lore.State
