import Mathlib.Data.Fintype.Basic
import Lore.Lib.Machine
import Lore.State.SlotThread

/-!
# SlotAllocator — the allocator over whole runs

Whatever the grabs, the releases, the discards and the saves do, from a State with nothing
stored: no slot has two owners, every block's free list is sound, and the unused chain is a
finite list without duplicates whose blocks behind the head have room. After a save, every
block with room is on it.
-/

namespace Lore.State

open Lore.Lib List Option

variable {τ : Type}

/-- What holds of an allocator. -/
def SlotsSound (a : Allocator τ) : Prop := SlotsOwned a ∧ ∃ chain fresh, Chained a chain fresh

namespace Chained

variable {a : Allocator τ} {chain : List Nat} {fresh : Option Nat}

theorem grab (h : Chained a chain fresh) {index block} (owned : List Nat) (hbe : index ∉ chain.tail)
    (hf : fresh ≠ some index) (hr : (a.blocks index).isFull = false)
    (hn : block.blockUnusedNext = (a.blocks index).blockUnusedNext)
    (hm : block.firstUnusedNode = (a.blocks index).firstUnusedNode) (hd : block.dirty = true) :
    Chained { a.setBlock index block with owned := owned } chain fresh := by
  exact h.setBlock owned hn (fun hmem => absurd hmem hbe) (fun hso => absurd hso hf)
    (fun _ => .inl hr) hm.trans fun _ => hd

theorem head [DecidableEq τ] (h : Chained a chain fresh) (hmax : a.blockCount ≤ maxTreeBlockCount) {task : τ}
    (hg : a.grabs task = .idle) :
    Chained (a.setGrab task (.headed a.blockUnusedFirst)) chain fresh := by
  refine h.setGrab (by rw [hg]; nofun) ⟨fun head hh => ?_, nofun, nofun, nofun, nofun, nofun⟩
  cases hh
  refine ⟨h.first_not_behind, ?_, ?_⟩
  · cases chain with
    | nil => exact .inr h.first_eq
    | cons first rest => exact .inl (h.walk.head_eq ▸ h.blocks first mem_cons_self)
  · -- With a fresh block about, the chain is empty.
    intro hf
    obtain ⟨-, other, ho⟩ := h.fresh _ hf
    have hnil := (h.grabs other).empty (by rw [ho]; rfl)
    subst hnil
    have hlt := (h.grabs other).index a.blockUnusedFirst (by rw [ho]; rfl)
    exact ne_invalidBlock hlt hmax h.first_eq

end Chained

namespace SlotsSound

variable {a a' : Allocator τ}

theorem discardNode (h : SlotsSound a) {node} (hn : node ∈ a.owned) :
    SlotsSound (a.discardNode node) := by
  obtain ⟨ho, chain, fresh, hc⟩ := h
  obtain ⟨ho', -, hf⟩ := ho.discardNode hn
  refine ⟨ho', chain, fresh, hc.setBlock _ hf.next (fun ht => ⟨hf.room, ?_⟩)
    (fun _ => hf.room) (fun _ => ?_) (fun hm => ?_) fun _ => rfl⟩
  · -- A block behind the head has room, so it gets no mark.
    obtain ⟨hr, hu⟩ := hc.behind _ ht
    exact hf.mark.trans (by rw [hr, hu]; rfl)
  · cases hfu : (a.blocks (blockIndex node)).isFull with
    | true => exact .inr (hf.mark.trans (by rw [hfu, Bool.or_true]))
    | false => exact .inl rfl
  · exact hf.mark.trans (by rw [hm, Bool.true_or])

theorem link (h : SlotsSound a) {node} (hn : node ∈ a.owned) (sibling : Nat) :
    SlotsSound (a.setBlock (blockIndex node) ({ a.blocks (blockIndex node) with
      sibling := Function.update (a.blocks (blockIndex node)).sibling (nodeIndex node)
        sibling } : NodeBlock).markDirty) := by
  obtain ⟨ho, chain, fresh, hc⟩ := h
  exact ⟨ho.link hn sibling, chain, fresh, hc.setBlock a.owned rfl (hc.behind _)
    (fun hf => (hc.fresh _ hf).1) .inl id fun _ => rfl⟩

theorem freshBlocks (h : SlotsSound a) (hi : ∀ task, a.grabs task = .idle) :
    SlotsSound { a with
      blockUnusedFirst := invalidBlock, freshBlocksFrom := some a.blockCount } := by
  obtain ⟨ho, chain, fresh, hc⟩ := h
  exact ⟨ho.frame rfl rfl (fun _ => rfl) fun _ => rfl, [], none,
    ⟨.nil _, nofun, nodup_nil, nofun, fun task => hi task ▸ .idle, nofun, nofun, hc.dirty⟩⟩

/-- Nothing but the slots and the chain is left of an allocator that is stored. -/
structure Stored (a : Allocator τ) : Prop where
  sound : SlotsSound a
  idle : ∀ task, a.grabs task = .idle
  permit : a.permit = none
  all : a.freshBlocksFrom = none
  unmarked : ∀ index < a.blockCount, (a.blocks index).firstUnusedNode = false

theorem Stored.chained (h : Stored a) : ∃ chain, Chained a chain none ∧
    ∀ index < a.blockCount, (a.blocks index).isFull = false → index ∈ chain := by
  obtain ⟨-, chain, fresh, hc⟩ := h.sound
  refine ⟨chain, hc.weaken h.idle, fun index hi hr => ?_⟩
  rcases hc.room h.all index hi hr with hmem | hm | ⟨task, ht⟩
  · exact hmem
  · rw [h.unmarked index hi] at hm
    cases hm
  · rw [h.idle] at ht
    cases ht

theorem Stored.of_eq (h : Stored a) (hco : a'.blockCount = a.blockCount)
    (hf : a'.blockUnusedFirst = a.blockUnusedFirst) (ho : a'.owned = a.owned)
    (hid : ∀ task, a'.grabs task = .idle) (hp : a'.permit = none) (hall : a'.freshBlocksFrom = none)
    (hb : ∀ index, a'.blocks index = { a.blocks index with
      firstUnusedNode := (a'.blocks index).firstUnusedNode
      dirty := (a'.blocks index).dirty })
    (hu : ∀ index < a'.blockCount, (a'.blocks index).firstUnusedNode = false) : Stored a' := by
  obtain ⟨chain, hc, hr⟩ := h.chained
  have hn : ∀ index, (a'.blocks index).blockUnusedNext = (a.blocks index).blockUnusedNext :=
    fun index => by rw [hb]
  have hfu : ∀ index, (a'.blocks index).isFull = (a.blocks index).isFull :=
    fun index => by
      rw [hb]
      rfl
  refine ⟨⟨h.sound.1.frame hco ho (fun index => by rw [hb]) (fun index => ?_), chain,
    none, ?_⟩, hid, hp, hall, hu⟩
  · rw [hb]
    rfl
  · have hlt : ∀ {index}, index ∈ chain → index < a'.blockCount :=
      fun hmem => hco ▸ hc.blocks _ hmem
    refine ⟨?_, fun index hmem => hlt hmem, hc.nodup,
      fun index hmem => ⟨?_, hu index (hlt (mem_of_mem_tail hmem))⟩,
      fun task => hid task ▸ .idle, nofun, fun _ index hi hbe => .inl ?_,
      fun index hi hm => ?_⟩
    · rw [hf]
      exact hc.walk.congr fun index _ => hn index
    · rw [hfu]
      exact (hc.behind index hmem).1
    · rw [hfu] at hbe
      exact hr index (hco ▸ hi) hbe
    · rw [hu index hi] at hm
      cases hm

theorem save (h : SlotsSound a) (hid : ∀ task, a.grabs task = .idle) (hp : a.permit = none)
    (hall : a.freshBlocksFrom = none) {blockDirty} (hno : blockDirty.Nodup)
    (hl : ∀ index, index ∈ blockDirty ↔ index < a.blockCount ∧ (a.blocks index).dirty = true)
    {saved} (hste : a.ownerStep (.save blockDirty saved) = some a') : Stored a' := by
  obtain ⟨ho, chain, fresh, hch⟩ := h
  obtain ⟨⟨chain', hcha'⟩, hu, hn⟩ := hch.threadUnusedBlocks ho.count hid hno hl
  obtain ⟨hc, hg, hf, hoE, hpE⟩ :=
    Allocator.threadUnusedBlocks_frame (rfl : a.threadUnusedBlocks blockDirty = _)
  have hst : Stored (a.threadUnusedBlocks blockDirty) :=
    ⟨⟨ho.frame hc hoE (fun index => (hn index).1) fun index => (hn index).2,
      chain', none, hcha'⟩, fun task => hg ▸ hid task, hpE.trans hp,
      hf.trans hall, fun index hi => hu index (hc ▸ hi)⟩
  simp only [Allocator.ownerStep, some.injEq] at hste
  subst hste
  cases saved with
  | false => exact hst
  | true =>
    exact hst.of_eq rfl rfl rfl hst.idle hst.permit hst.all (fun _ => rfl) hst.unmarked

variable [DecidableEq τ]

omit [DecidableEq τ] in
theorem of_chained (ho : SlotsOwned a) {chain fresh} {permit : Option τ} {grabs : τ → Grab}
    (hc : Chained { a with permit, grabs } chain fresh) : SlotsSound { a with permit, grabs } :=
  ⟨ho.frame rfl rfl (fun _ => rfl) fun _ => rfl, chain, fresh, hc⟩

theorem grab {chain fresh} (ho : SlotsOwned a) (hc : Chained a chain fresh) {task : τ}
    (hst : a.grabStep task (.grab task) = some a') : SlotsSound a' := by
  have hso := hc.grabs task
  simp only [Allocator.grabStep] at hst
  split at hst
  case h_4 => cases hst
  case h_1 head hg =>
    rw [hg] at hso
    have hh : (a.grabs task).holds ≠ true := by
      rw [hg]
      nofun
    rcases ho.tryGrabIn (hso.index head rfl) with
      ⟨-, hno⟩ | ⟨block, owned, hsom, ho', hr, hn, hm, hd⟩
    · rw [hno] at hst
      cases hst
      exact of_chained ho (hc.setGrab hh ⟨hso.heads, hso.index, nofun, nofun, nofun, nofun⟩)
    · rw [hsom] at hst
      cases hst
      obtain ⟨hb, -, hf⟩ := hso.heads head rfl
      exact of_chained ho' ((hc.grab owned hb hf hr hn hm hd).setGrab hh .idle)
  case h_2 index hg =>
    rw [hg] at hso
    rcases ho.tryGrabIn (hso.index index rfl) with
      ⟨-, hno⟩ | ⟨block, owned, hsom, ho', hr, hn, hm, hd⟩
    · rw [hno] at hst
      cases hst
      exact of_chained ho (hc.moveHolder hg rfl
        ⟨nofun, nofun, nofun, hso.permit, hso.empty, nofun⟩ nofun)
    · rw [hsom] at hst
      cases hst
      have hnil := hso.empty rfl
      exact of_chained ho' ((hc.offer hg rfl rfl nofun).grab owned (by rw [hnil]; nofun) nofun hr hn hm hd)
  case h_3 index hg =>
    rw [hg] at hso
    rcases ho.tryGrabIn (hso.index index rfl) with
      ⟨hfu, -⟩ | ⟨block, owned, hsom, ho', hr, hn, hm, hd⟩
    · -- Nobody else reaches a fresh block.
      have hr := (hc.fresh index (hso.fresh index rfl)).1
      rw [hfu] at hr
      cases hr
    · rw [hsom] at hst
      cases hst
      have hnil := hso.empty rfl
      exact of_chained ho' ((hc.offer hg rfl rfl fun _ hot => (some.inj hot).symm).grab owned
        (by rw [hnil]; nofun) nofun hr hn hm hd)

theorem grabStep (h : SlotsSound a) {task : τ} {action} (hst : a.grabStep task action = some a') :
    SlotsSound a' := by
  obtain ⟨ho, chain, fresh, hc⟩ := h
  have hmax := ho.count
  have hso := hc.grabs task
  cases action <;> simp only [Allocator.grabStep] at hst
  case head _ =>
    split at hst
    case h_2 => cases hst
    case h_1 hg =>
      cases hst
      exact of_chained ho (hc.head hmax hg)
  case count _ =>
    split at hst
    case h_2 => cases hst
    case h_1 head hg =>
      cases hst
      rw [hg] at hso
      refine of_chained ho (hc.setGrab (by rw [hg]; nofun) ?_)
      split
      case isTrue hlt =>
        refine ⟨hso.heads, fun _ hi => ?_, nofun, nofun, nofun, nofun⟩
        cases hi
        exact hlt
      case isFalse hlt =>
        refine ⟨hso.heads, nofun, fun _ ha => ?_, nofun, nofun, nofun⟩
        cases ha
        exact (hso.heads head rfl).2.1.resolve_left hlt
  case grab _ => exact grab ho hc hst
  case acquire _ =>
    split at hst
    case h_3 => cases hst
    all_goals
      rename_i head hp hg
      cases hst
      rw [hg] at hso
      obtain ⟨hb, hv, -⟩ := hso.heads head rfl
      refine ⟨ho.frame rfl rfl (fun _ => rfl) fun _ => rfl, chain, none, hc.moveGrab
        (fun other _ => hc.not_holds_of_free hp other)
        ⟨fun _ hhe => ?_, hso.index, hso.absent, fun _ => rfl, nofun, nofun⟩
        (by rw [hg]; nofun)⟩
      cases hhe
      exact ⟨hb, hv, nofun⟩
  case retire _ =>
    split at hst
    case h_2 => cases hst
    case h_1 head hg =>
      cases hst
      obtain ⟨_, _, hr⟩ := hc.retireFullBlock hmax hg
      exact of_chained (ho.retireFullBlock head) hr
  case check _ =>
    split at hst
    case h_2 => cases hst
    case h_1 head hg =>
      rw [hg] at hso
      split at hst
      case isTrue hf =>
        cases hst
        have hnil := hc.eq_nil (hf.trans (hso.absent head rfl))
        exact of_chained ho (hc.moveHolder hg rfl
          ⟨nofun, nofun, nofun, hso.permit, fun _ => hnil, nofun⟩ nofun)
      case isFalse =>
        cases hst
        have hr : Chained ({ a with permit := none }.setGrab task .idle) chain none :=
          hc.moveHolder hg rfl .idle nofun
        exact of_chained ho hr
  case recycle _ last =>
    split at hst
    case h_2 => cases hst
    case h_1 hg =>
      rw [hg] at hso
      obtain ⟨hl, hst⟩ := ite_none_right_eq_some.mp hst
      split at hst
      case h_1 index hi =>
        cases hst
        refine of_chained ho (hc.moveHolder hg rfl
          ⟨nofun, fun other hot => ?_, nofun, hso.permit, hso.empty, nofun⟩ nofun)
        cases hot
        unfold Allocator.tryRecycleLastBlock at hi
        rw [filter_eq_some_iff] at hi
        rw [hi.1] at hl
        simpa using hl
      case h_2 =>
        cases hst
        exact of_chained ho (hc.moveHolder hg rfl
          ⟨nofun, nofun, nofun, hso.permit, hso.empty, nofun⟩ nofun)
  case allocate _ =>
    split at hst
    case h_2 => cases hst
    case h_1 hg =>
      by_cases hcap : a.blockCount < maxTreeBlockCount
      · rw [Allocator.allocateFreshBlock_eq ho.positive hcap] at hst
        cases hst
        exact of_chained (ho.allocateFreshBlock hcap) (hc.allocateFreshBlock hcap hg)
      · unfold Allocator.allocateFreshBlock at hst
        rw [if_pos (Nat.le_of_not_lt hcap)] at hst
        cases hst
        have hr : Chained ({ a with permit := none }.setGrab task .idle) chain none :=
          hc.moveHolder hg rfl .idle nofun
        exact of_chained ho hr
  case push _ =>
    split at hst
    case h_2 => cases hst
    case h_1 index hg =>
      cases hst
      exact of_chained (ho.pushUnusedBlockList index) (hc.pushUnusedBlockList hmax hg)
  case leave _ =>
    split at hst
    case h_5 => cases hst
    all_goals
      rename_i hg
      cases hst
      exact of_chained ho (hc.setGrab (by rw [hg]; nofun) .idle)
  all_goals cases hst

end SlotsSound

/-! ## Runs -/

/-- The blocks of the unused chain, from the tree's head on. -/
def Allocator.UnusedChain (a : Allocator τ) (chain : List Nat) : Prop :=
  Walk (fun index => (a.blocks index).blockUnusedNext) invalidBlock a.blockUnusedFirst chain
    invalidBlock ∧ ∀ index ∈ chain, index < a.blockCount

/-- What holds of a State and of what was last saved of it. -/
structure SlotWorldSound (w : SlotWorld τ) : Prop where
  memory : SlotsSound w.memory
  stored : SlotsSound.Stored w.stored

namespace SlotWorldSound

variable [DecidableEq τ] {w w' : SlotWorld τ}

omit [DecidableEq τ] in
theorem new : SlotWorldSound (.new : SlotWorld τ) := by
  have hso : SlotsSound (Allocator.new : Allocator τ) := by
    refine ⟨⟨Nat.one_pos, (by decide : 1 ≤ maxTreeBlockCount), fun index hi => ?_, nodup_nil, fun node => ?_⟩,
      [0], none, .cons (by decide : 0 ≠ invalidBlock) (.nil _), fun index hi => ?_, nodup_singleton _, nofun,
      fun _ => .idle, nofun, fun _ index hi _ => .inl ?_, fun _ _ => nofun⟩
    · rw [Nat.lt_one_iff.mp hi]
      exact ⟨nodup_nil, nofun, (by decide : 1 ≤ blockNodeCount), fun _ => ⟨Nat.one_pos, nofun⟩⟩
    · refine ⟨nofun, fun hu => ?_⟩
      obtain ⟨hi, hsl, -, hr⟩ := hu
      have hz := Nat.lt_one_iff.mp hi
      rw [hz] at hsl
      exact absurd (Nat.lt_one_iff.mp hsl) (hr hz)
    · rw [mem_singleton.mp hi]
      exact Nat.one_pos
    · rw [Nat.lt_one_iff.mp hi]
      exact mem_singleton_self 0
  exact ⟨hso, hso, fun _ => rfl, rfl, rfl, fun _ _ => rfl⟩

/-- Every step keeps both, a save and `take_new_nodes_from_fresh_blocks` as they are used. -/
theorem step (h : SlotWorldSound w) {action} (hu : w.Used action)
    (hste : w.step action = some w') : SlotWorldSound w' := by
  cases action with
  | head | count | grab | acquire | retire | check | recycle | allocate | push | leave =>
    simp only [SlotWorld.step, map_eq_some_iff] at hste
    obtain ⟨a', hg, rfl⟩ := hste
    exact ⟨h.memory.grabStep hg, h.stored⟩
  | release node =>
    simp only [SlotWorld.step, Allocator.ownerStep, map_eq_some_iff,
      ite_none_right_eq_some, some.injEq] at hste
    obtain ⟨a', ⟨⟨hno, -⟩, rfl⟩, rfl⟩ := hste
    exact ⟨h.memory.discardNode hno, h.stored⟩
  | discard node =>
    simp only [SlotWorld.step, Allocator.ownerStep, map_eq_some_iff,
      ite_none_right_eq_some, some.injEq] at hste
    obtain ⟨a', ⟨hno, rfl⟩, rfl⟩ := hste
    exact ⟨h.memory.discardNode hno, h.stored⟩
  | link node sibling =>
    simp only [SlotWorld.step, Allocator.ownerStep, map_eq_some_iff,
      ite_none_right_eq_some, some.injEq] at hste
    obtain ⟨a', ⟨hno, rfl⟩, rfl⟩ := hste
    exact ⟨h.memory.link hno sibling, h.stored⟩
  | freshBlocks =>
    cases hste
    exact ⟨h.memory.freshBlocks hu.2, h.stored⟩
  | save blockDirty saved =>
    simp only [SlotWorld.step, map_eq_some_iff] at hste
    obtain ⟨a', hsa, rfl⟩ := hste
    obtain ⟨⟨hp, hi⟩, hall, hn, hl⟩ := hu
    have hst := h.memory.save hi hp hall hn hl hsa
    refine ⟨hst.sound, ?_⟩
    cases saved with
    | true => exact hst
    | false => exact h.stored
  | reload =>
    cases hste
    have hst : SlotsSound.Stored w.stored.deserialized :=
      h.stored.of_eq rfl rfl rfl (fun _ => rfl) rfl rfl (fun _ => rfl) fun _ _ => rfl
    exact ⟨hst.sound, h.stored⟩

end SlotWorldSound

/-- The slot allocator never hands out a slot in use and never loses one. In every run from a
State with nothing stored, whose saves run alone: no slot has two owners, and an owned slot is
not free; each block's free list is a duplicate-free list of `nodeUnusedCount` slots below its
node count, and every other slot there is owned, or the root's; the unused chain is finite and
duplicate-free, and the blocks behind its head have room; and a save leaves every block that
has a free slot on it. -/
theorem slots_neither_shared_nor_lost [DecidableEq τ] (actions : List (SlotAction τ))
    {w : SlotWorld τ} (hused : StepsMeet SlotWorld.step SlotWorld.Used .new actions)
    (hrun : run SlotWorld.step .new actions = some w) :
    w.memory.owned.Nodup ∧
    (∀ index < w.memory.blockCount, (w.memory.blocks index).freeList.Nodup ∧
      (w.memory.blocks index).freeList.length = (w.memory.blocks index).nodeUnusedCount ∧
      (∀ slot ∈ (w.memory.blocks index).freeList,
        slot < (w.memory.blocks index).nodeCount ∧ nodeId index slot ∉ w.memory.owned) ∧
      ∀ slot < (w.memory.blocks index).nodeCount, slot ∉ (w.memory.blocks index).freeList →
        nodeId index slot ∈ w.memory.owned ∨ nodeId index slot = rootNode) ∧
    (∃ chain, w.memory.UnusedChain chain ∧ chain.Nodup ∧
      ∀ index ∈ chain.tail, (w.memory.blocks index).isFull = false) ∧
    (∀ blockDirty saved w', w.Used (.save blockDirty saved) →
      w.step (.save blockDirty saved) = some w' →
      ∃ chain, w'.memory.UnusedChain chain ∧
        ∀ index < w'.memory.blockCount, (w'.memory.blocks index).isFull = false →
          index ∈ chain) := by
  have hso : SlotWorldSound w :=
    run_invariant_of_stepsMeet SlotWorld.step (fun _ _ _ hso hused hst => hso.step hused hst)
      .new hused hrun
  obtain ⟨ho, chain, fresh, hc⟩ := hso.memory
  refine ⟨ho.nodup, fun index hi => ?_, ⟨chain, ⟨hc.walk, hc.blocks⟩,
    hc.nodup, fun index hmem => (hc.behind index hmem).1⟩, ?_⟩
  · have hw := ho.well index hi
    refine ⟨hw.nodup, NodeBlock.length_freeList _, fun slot hsl => ?_, fun slot hlt hsl => ?_⟩
    · have hlt := hw.bounded slot hsl
      rw [ho.owned_nodeId hi (Nat.lt_of_lt_of_le hlt hw.count)]
      exact ⟨hlt, fun hiU => hiU.2.1 hsl⟩
    · have hb := Nat.lt_of_lt_of_le hlt hw.count
      rw [ho.owned_nodeId hi hb]
      by_cases hr : index = 0 ∧ slot = 0
      · exact .inr (by rw [hr.1, hr.2]; rfl)
      · exact .inl ⟨hlt, hsl, fun hz hsZ => hr ⟨hz, hsZ⟩⟩
  · intro blockDirty saved w' hsa hst
    obtain ⟨⟨hp, hid⟩, hall, hn, hl⟩ := hsa
    simp only [SlotWorld.step, map_eq_some_iff] at hst
    obtain ⟨a', hst, rfl⟩ := hst
    obtain ⟨chain, hch, hro⟩ := (hso.memory.save hid hp hall hn hl hst).chained
    exact ⟨chain, ⟨hch.walk, hch.blocks⟩, hro⟩

instance (w : SlotWorld τ) (blockDirty : List Nat) : Decidable (w.Lists blockDirty) :=
  decidable_of_iff (blockDirty.Nodup ∧
      (∀ index ∈ blockDirty, index < w.memory.blockCount ∧ (w.memory.blocks index).dirty = true) ∧
      ∀ index < w.memory.blockCount, (w.memory.blocks index).dirty = true → index ∈ blockDirty)
    (by simp only [SlotWorld.Lists, iff_iff_implies_and_implies, forall_and, and_imp])

instance [DecidableEq τ] [Fintype τ] (w : SlotWorld τ) : Decidable w.Alone :=
  inferInstanceAs (Decidable (_ ∧ ∀ task, w.memory.grabs task = .idle))

instance [DecidableEq τ] [Fintype τ] (w : SlotWorld τ) : DecidablePred w.Used
  | .save blockDirty _ => inferInstanceAs (Decidable (_ ∧ _ ∧ w.Lists blockDirty))
  | .freshBlocks => inferInstanceAs (Decidable w.Alone)
  | .head _ | .count _ | .grab _ | .acquire _ | .retire _ | .check _ | .recycle .. | .allocate _
  | .push _ | .leave _ | .release _ | .discard _ | .link .. | .reload => instDecidableTrue

/-- Two tasks take a slot each, in step. -/
def grabInStep : List (SlotAction Bool) :=
  [.head false, .head true, .count false, .count true, .grab false, .grab true]

/-- Two tasks grab and a slot is freed, and the State is saved; then both find no head, one puts
a fresh block on the chain while the other waits for the permit; and the State is loaded again,
and the tasks grab. -/
def grabbedBeside : List (SlotAction Bool) :=
  grabInStep ++ [.discard 1, .save [0] true, .freshBlocks, .head false, .head true, .count false,
    .count true, .acquire false, .check false, .recycle false none, .allocate false, .grab false,
    .push false, .acquire true, .check true, .head true, .count true, .grab true, .reload] ++
    grabInStep

theorem slots_neither_shared_nor_lost_beside :
    ∃ w w', run SlotWorld.step .new grabbedBeside = some w ∧ w.memory.owned = [2, 1, 3] ∧
      w.memory.owned.Nodup ∧ w.step (.save [0] true) = some w' ∧
      ∃ chain, w'.memory.UnusedChain chain ∧ 0 ∈ chain := by
  have hu : StepsMeet SlotWorld.step SlotWorld.Used .new grabbedBeside := by decide
  obtain ⟨hnodup, -, -, hsave⟩ := slots_neither_shared_nor_lost grabbedBeside hu rfl
  obtain ⟨chain, hc, hr⟩ := hsave [0] true _ (by decide) rfl
  exact ⟨_, _, rfl, rfl, hnodup, rfl, chain, hc, hr 0 Nat.one_pos rfl⟩

end Lore.State
