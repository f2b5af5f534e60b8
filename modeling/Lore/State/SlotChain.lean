import Lore.Lib.Chain
import Lore.State.SlotOwned

/-!
# SlotChain — the chain of unused blocks

Between two saves the chain only loses its head, until it is empty; then it holds the one
block a grab pushes at a time. A block behind the head came there by a save, and no grab has
read it as the head since, so it keeps its room; a full block that frees a slot is the head or
off the chain. So what is marked is not on the chain behind the head, and a save that threads
it there puts no block on the chain twice.
-/

namespace Lore.State

open Lore.Lib List Allocator Function

variable {τ : Type}

/-- The head of the chain a grab read. -/
def Grab.head? : Grab → Option Nat
  | .headed head | .found head | .full head | .retiring head | .absent head | .checking head =>
      some head
  | _ => none

/-- The block of the tree a grab is about. -/
def Grab.block? : Grab → Option Nat
  | .found index | .full index | .retiring index | .recycled index | .extended index
  | .pushing index => some index
  | _ => none

/-- The head a grab read was none. -/
def Grab.absent? : Grab → Option Nat
  | .absent head | .checking head => some head
  | _ => none

/-- The grab holds the permit. -/
def Grab.holds : Grab → Bool
  | .retiring _ | .checking _ | .recycling | .recycled _ | .extending | .extended _
  | .pushing _ => true
  | _ => false

/-- The grab found the chain empty, with the permit. -/
def Grab.extendsChain : Grab → Bool
  | .recycling | .recycled _ | .extending | .extended _ | .pushing _ => true
  | _ => false

/-- The block a grab puts on the chain next, whatever room it has. -/
def Grab.offered? : Grab → Option Nat
  | .extended index | .pushing index => some index
  | _ => none

theorem Grab.holds_of_extendsChain {grab : Grab} (h : grab.extendsChain = true) :
    grab.holds = true := by
  cases grab <;> first | rfl | cases h

theorem Grab.holds_of_offered {grab : Grab} {index : Nat} (h : grab.offered? = some index) :
    grab.holds = true := by
  cases grab <;> first | rfl | cases h

/-- What holds of a grab. `fresh` is a block nobody but its maker may take a slot of. -/
structure GrabSound (blockCount : Nat) (chain : List Nat) (fresh : Option Nat)
    (permit : Option τ) (task : τ) (grab : Grab) : Prop where
  /-- No grab has read a block behind the head as the head. -/
  heads : ∀ head, grab.head? = some head →
    head ∉ chain.tail ∧ (head < blockCount ∨ head = invalidBlock) ∧ fresh ≠ some head
  index : ∀ index, grab.block? = some index → index < blockCount
  absent : ∀ head, grab.absent? = some head → head = invalidBlock
  permit : grab.holds = true → permit = some task
  empty : grab.extendsChain = true → chain = []
  fresh : ∀ index, grab = .extended index → fresh = some index

namespace GrabSound

variable {blockCount : Nat} {chain : List Nat} {fresh : Option Nat} {permit : Option τ} {task : τ}
  {grab : Grab}

theorem idle : GrabSound blockCount chain fresh permit task .idle where
  heads _ hhe := nomatch hhe
  index _ hi := nomatch hi
  absent _ ha := nomatch ha
  permit hh := nomatch hh
  empty he := nomatch he
  fresh _ hf := nomatch hf

/-- A grab beside the one that holds the permit: the chain it may shorten, a block it may
make. -/
theorem beside (h : GrabSound blockCount chain fresh permit task grab) (hh : grab.holds ≠ true)
    {blockCount' : Nat} {chain' fresh' permit'} (hc : blockCount ≤ blockCount')
    (ht : ∀ index ∈ chain'.tail, index ∈ chain.tail)
    (hf : ∀ head, head < blockCount ∨ head = invalidBlock → fresh ≠ some head →
      fresh' ≠ some head) : GrabSound blockCount' chain' fresh' permit' task grab where
  heads head hhe := by
    obtain ⟨hb, hv, hnot⟩ := h.heads head hhe
    exact ⟨fun hmem => hb (ht head hmem),
      hv.imp_left fun hlt => Nat.lt_of_lt_of_le hlt hc, hf head hv hnot⟩
  index index hi := Nat.lt_of_lt_of_le (h.index index hi) hc
  absent := h.absent
  permit hp := absurd hp hh
  empty he := absurd (Grab.holds_of_extendsChain he) hh
  fresh index hi := absurd (by rw [hi]; rfl) hh

end GrabSound

/-- The blocks of `chain` are the unused chain. -/
structure Chained (a : Allocator τ) (chain : List Nat) (fresh : Option Nat) : Prop where
  walk : Walk (fun index => (a.blocks index).blockUnusedNext) invalidBlock a.blockUnusedFirst
    chain invalidBlock
  blocks : ∀ index ∈ chain, index < a.blockCount
  nodup : chain.Nodup
  behind : ∀ index ∈ chain.tail,
    (a.blocks index).isFull = false ∧ (a.blocks index).firstUnusedNode = false
  grabs : ∀ task, GrabSound a.blockCount chain fresh a.permit task (a.grabs task)
  fresh : ∀ index, fresh = some index →
    (a.blocks index).isFull = false ∧ ∃ task, a.grabs task = .extended index
  /-- A block with room is on the chain, or a save will thread it, or a grab put it there. -/
  room : a.freshBlocksFrom = none → ∀ index < a.blockCount, (a.blocks index).isFull = false →
    index ∈ chain ∨ (a.blocks index).firstUnusedNode = true ∨
      ∃ task, (a.grabs task).offered? = some index
  dirty : ∀ index < a.blockCount, (a.blocks index).firstUnusedNode = true →
    (a.blocks index).dirty = true

namespace Chained

variable {a : Allocator τ} {chain : List Nat} {fresh : Option Nat}

theorem eq_nil (h : Chained a chain fresh) (hf : a.blockUnusedFirst = invalidBlock) :
    chain = [] := by
  have hw := h.walk
  rw [hf] at hw
  exact hw.eq_nil

theorem first_eq (h : Chained a [] fresh) : a.blockUnusedFirst = invalidBlock := h.walk.eq_of_nil

section

variable (h : Chained a chain fresh)
include h

theorem eq_cons (hf : a.blockUnusedFirst ≠ invalidBlock) :
    ∃ rest, chain = a.blockUnusedFirst :: rest := by
  cases chain with
  | nil => exact absurd h.first_eq hf
  | cons x rest => exact ⟨rest, by rw [h.walk.head_eq]⟩

theorem first_not_behind : a.blockUnusedFirst ∉ chain.tail := by
  cases chain with
  | nil => exact not_mem_nil
  | cons x rest =>
    rw [← h.walk.head_eq]
    exact (nodup_cons.mp h.nodup).1

theorem not_holds {task other : τ}
    (ht : (a.grabs task).holds = true) (hne : other ≠ task) : (a.grabs other).holds ≠ true :=
  fun ho => hne (Option.some.inj
    (((h.grabs other).permit ho).symm.trans ((h.grabs task).permit ht)))

theorem not_holds_of_free (hp : a.permit = none) (task : τ) : (a.grabs task).holds ≠ true :=
  fun hh => nomatch hp.symm.trans ((h.grabs task).permit hh)

theorem dirty_setBlock {index block other} (hd : block.firstUnusedNode = true → block.dirty = true)
    (hlt : other ≠ index → other < a.blockCount) :
    ((a.setBlock index block).blocks other).firstUnusedNode = true →
      ((a.setBlock index block).blocks other).dirty = true := by
  exact setBlock_cases (fun block => block.firstUnusedNode = true → block.dirty = true)
    (fun _ => hd) fun hne => h.dirty other (hlt hne)

/-- A block changes: what has room is on the new chain, marked, or offered in the new grabs, if
the block itself is and of the others nothing is taken away. -/
theorem room_setBlock {index block other} {chain' : List Nat} {grabs : τ → Grab}
    (hfr : a.freshBlocksFrom = none) (hlt : other ≠ index → other < a.blockCount)
    (hse : other = index → block.isFull = false → index ∈ chain' ∨
      block.firstUnusedNode = true ∨ ∃ task, (grabs task).offered? = some index)
    (hc : other ≠ index → other ∈ chain → other ∈ chain')
    (ho : other ≠ index → ∀ task, (a.grabs task).offered? = some other →
      ∃ task, (grabs task).offered? = some other) :
    ((a.setBlock index block).blocks other).isFull = false →
      other ∈ chain' ∨ ((a.setBlock index block).blocks other).firstUnusedNode = true ∨
        ∃ task, (grabs task).offered? = some other :=
  setBlock_cases (fun block => block.isFull = false → other ∈ chain' ∨
    block.firstUnusedNode = true ∨ ∃ task, (grabs task).offered? = some other)
    (fun heq hf => heq ▸ hse heq hf) fun hne hf => (h.room hfr other (hlt hne) hf).imp (hc hne)
      (Or.imp_right fun ⟨task, ht⟩ => ho hne task ht)

theorem not_offered {task third : τ} {index other : Nat} (hh : (a.grabs task).holds = true)
    (hse : (a.grabs task).offered? = some other → other = index) (hne : other ≠ index) :
    (a.grabs third).offered? ≠ some other := by
  intro ht
  by_cases hsa : third = task
  · exact hne (hse (hsa ▸ ht))
  · exact absurd (Grab.holds_of_offered ht) (h.not_holds hh hsa)

theorem setBlock {index block} (owned : List Nat)
    (hn : block.blockUnusedNext = (a.blocks index).blockUnusedNext)
    (hbe : index ∈ chain.tail → block.isFull = false ∧ block.firstUnusedNode = false)
    (hf : fresh = some index → block.isFull = false)
    (hr : block.isFull = false → (a.blocks index).isFull = false ∨ block.firstUnusedNode = true)
    (hm : (a.blocks index).firstUnusedNode = true → block.firstUnusedNode = true)
    (hd : block.firstUnusedNode = true → block.dirty = true) :
    Chained { a.setBlock index block with owned := owned } chain fresh := by
  refine ⟨h.walk.congr fun other _ => ?_, h.blocks, h.nodup, fun other ho => ?_, h.grabs,
    fun other ho => ?_, fun hfr other hlt => ?_,
    fun other hlt => h.dirty_setBlock hd fun _ => hlt⟩
  · exact setBlock_cases (·.blockUnusedNext = (a.blocks other).blockUnusedNext)
      (fun heq => heq ▸ hn) fun _ => rfl
  · exact setBlock_cases (fun block => block.isFull = false ∧ block.firstUnusedNode = false)
      (fun heq => hbe (heq ▸ ho)) fun _ => h.behind other ho
  · exact ⟨setBlock_cases (·.isFull = false) (fun heq => hf (heq ▸ ho))
      fun _ => (h.fresh other ho).1, (h.fresh other ho).2⟩
  · refine h.room_setBlock hfr (fun _ => hlt) (fun heq hfu => ?_) (fun _ => id)
      fun _ task ht => ⟨task, ht⟩
    rcases hr hfu with hb | hma
    · exact (h.room hfr index (heq ▸ hlt) hb).imp_right (Or.imp_left hm)
    · exact .inr (.inl hma)

end

variable [DecidableEq τ]

variable {task : τ} {grab : Grab}

theorem grabs_update {blockCount chain' fresh' permit}
    (ht : GrabSound blockCount chain' fresh' permit task grab)
    (ho : ∀ other, other ≠ task → GrabSound blockCount chain' fresh' permit other (a.grabs other))
    (other : τ) :
    GrabSound blockCount chain' fresh' permit other (update a.grabs task grab other) := by
  by_cases hne : other = task
  · subst hne
    rw [update_self]
    exact ht
  · rw [update_of_ne hne]
    exact ho other hne

section

variable (h : Chained a chain fresh)
include h

/-- What is offered is still, where the one that moved on offers it still. -/
theorem room_update (hof : ∀ index, (a.grabs task).offered? = some index → grab.offered? = some index)
    (hf : a.freshBlocksFrom = none) (index : Nat) (hi : index < a.blockCount)
    (hfu : (a.blocks index).isFull = false) :
    index ∈ chain ∨ (a.blocks index).firstUnusedNode = true ∨
      ∃ other, (update a.grabs task grab other).offered? = some index := by
  rcases h.room hf index hi hfu with hmem | hm | ⟨other, ho⟩
  · exact .inl hmem
  · exact .inr (.inl hm)
  · refine .inr (.inr ⟨other, ?_⟩)
    by_cases hne : other = task
    · subst hne
      rw [update_self]
      exact hof index ho
    · rw [update_of_ne hne]
      exact ho

theorem setGrab (hh : (a.grabs task).holds ≠ true)
    (ht : GrabSound a.blockCount chain fresh a.permit task grab) :
    Chained (a.setGrab task grab) chain fresh where
  __ := h
  grabs := grabs_update ht fun other _ => h.grabs other
  fresh index hi := by
    obtain ⟨hr, other, ho⟩ := h.fresh index hi
    refine ⟨hr, other, ?_⟩
    show update a.grabs task grab other = _
    rw [update_of_ne, ho]
    rintro rfl
    exact hh (by rw [ho]; rfl)
  room := h.room_update fun _ hi => absurd (Grab.holds_of_offered hi) hh

theorem moveGrab {permit} (hot : ∀ other, other ≠ task → (a.grabs other).holds ≠ true)
    (ht : GrabSound a.blockCount chain none permit task grab)
    (ho : ∀ index, (a.grabs task).offered? = some index → grab.offered? = some index) :
    Chained ({ a with permit := permit }.setGrab task grab) chain none where
  __ := h
  grabs := grabs_update ht fun other hne => (h.grabs other).beside (hot other hne)
    (Nat.le_refl _) (fun _ hmem => hmem) fun _ _ _ => nofun
  fresh _ hi := nomatch hi
  room := h.room_update ho

theorem moveHolder {held permit} (hg : a.grabs task = held) (hh : held.holds = true)
    (ht : GrabSound a.blockCount chain none permit task grab)
    (ho : ∀ index, held.offered? = some index → grab.offered? = some index) :
    Chained ({ a with permit := permit }.setGrab task grab) chain none :=
  h.moveGrab (fun _ hne => h.not_holds (hg ▸ hh) hne) ht (hg ▸ ho)

theorem offer {index held} (hg : a.grabs task = held) (hh : held.extendsChain = true)
    (hi : held.block? = some index) (ho : ∀ other, held.offered? = some other → other = index) :
    Chained (a.setGrab task (.pushing index)) chain none := by
  have hso := h.grabs task
  rw [hg] at hso
  have hho := Grab.holds_of_extendsChain hh
  refine h.moveHolder hg hho ⟨nofun, fun other hot => hso.index other (hi.trans hot), nofun,
    fun _ => hso.permit hho, fun _ => hso.empty hh, nofun⟩ fun other hot => ?_
  rw [ho other hot]
  rfl

theorem retireFullBlock (hc : a.blockCount ≤ maxTreeBlockCount)
    {head : Nat} (hg : a.grabs task = .retiring head) :
    ∃ chain' fresh',
      Chained ({ a.retireFullBlock head with permit := none }.setGrab task .idle) chain' fresh' := by
  have hh : (a.grabs task).holds = true := by
    rw [hg]
    rfl
  have hlt : head < a.blockCount := (h.grabs task).index head (by rw [hg]; rfl)
  have hv := ne_invalidBlock hlt hc
  unfold Allocator.retireFullBlock
  dsimp only
  split
  case isFalse => exact ⟨chain, none, h.moveHolder hg rfl .idle nofun⟩
  case isTrue hco =>
    obtain ⟨hf, hfu⟩ := hco
    obtain ⟨rest, rfl⟩ := h.eq_cons (by rw [hf]; exact hv)
    rw [hf] at h
    generalize hbl : ({ a.blocks head with blockUnusedNext := invalidBlock } :
      NodeBlock).markDirty = block
    have hiF : block.isFull = true := by
      rw [← hbl]
      exact hfu
    have hnot : head ∉ rest := (nodup_cons.mp h.nodup).1
    have hne : ∀ {other}, other ∈ rest → other ≠ head := fun ho heq => hnot (heq ▸ ho)
    have hb : ∀ {other}, other ∈ rest.tail → other ∈ rest := mem_of_mem_tail
    have hw : Walk (fun index => (a.blocks index).blockUnusedNext) invalidBlock
        (a.blocks head).blockUnusedNext rest invalidBlock := by
      have hw := h.walk
      cases hw with
      | cons _ hr => exact hr
    refine ⟨rest, none, hw.congr fun other ho => ?_, fun other ho => ?_,
      (nodup_cons.mp h.nodup).2, fun other ho => ?_, grabs_update .idle fun other ho => ?_,
      (fun _ hfr => nomatch hfr), fun hfro other hlt => ?_,
      fun other hlt => h.dirty_setBlock (fun _ => hbl ▸ rfl) fun _ => hlt⟩
    · show ((a.setBlock head block).blocks other).blockUnusedNext = _
      rw [setBlock_of_ne (hne ho)]
    · exact h.blocks other (mem_cons_of_mem _ ho)
    · show ((a.setBlock head block).blocks other).isFull = false ∧
        ((a.setBlock head block).blocks other).firstUnusedNode = false
      rw [setBlock_of_ne (hne (hb ho))]
      exact h.behind other (hb ho)
    · exact (h.grabs other).beside (h.not_holds hh ho) (Nat.le_refl _)
        (fun _ => hb) fun _ _ _ => nofun
    · refine h.room_setBlock hfro (fun _ => hlt) (fun _ hro => nomatch hro.symm.trans hiF)
        (fun hne hmem => (mem_cons.mp hmem).resolve_left hne) fun hne third ht => ?_
      exact absurd ht (h.not_offered hh (by rw [hg]; nofun) hne)

theorem pushUnusedBlockList (hc : a.blockCount ≤ maxTreeBlockCount)
    {index : Nat} (hg : a.grabs task = .pushing index) :
    Chained ({ a.pushUnusedBlockList index with permit := none }.setGrab task .idle) [index]
      none := by
  have hh : (a.grabs task).holds = true := by
    rw [hg]
    rfl
  have hnil : chain = [] := (h.grabs task).empty (by rw [hg]; rfl)
  subst hnil
  have hlt : index < a.blockCount := (h.grabs task).index index (by rw [hg]; rfl)
  have hf := h.first_eq
  have hv := ne_invalidBlock hlt hc
  have hp : a.pushUnusedBlockList index =
      { a.setBlock index { a.blocks index with blockUnusedNext := invalidBlock }.markDirty with
        blockUnusedFirst := index } := by
    unfold Allocator.pushUnusedBlockList
    rw [if_neg (by rw [hf]; exact Ne.symm hv), hf]
  rw [hp]
  generalize hb : ({ a.blocks index with blockUnusedNext := invalidBlock } :
    NodeBlock).markDirty = block
  have hn : block.blockUnusedNext = invalidBlock := by
    rw [← hb]
    rfl
  refine ⟨.cons hv ?_, fun other ho => ?_, nodup_singleton _,
    (fun _ ho => nomatch ho), grabs_update .idle fun other ho => ?_,
    (fun _ hfr => nomatch hfr), fun hfro other hlt => ?_,
    fun other hlt => h.dirty_setBlock (fun _ => hb ▸ rfl) fun _ => hlt⟩
  · show Walk _ invalidBlock (update a.blocks index block index).blockUnusedNext [] _
    rw [update_self, hn]
    exact .nil _
  · rw [mem_singleton.mp ho]
    exact hlt
  · exact (h.grabs other).beside (h.not_holds hh ho) (Nat.le_refl _)
      (fun _ hmem => nomatch hmem) fun _ _ _ => nofun
  · refine h.room_setBlock hfro (fun _ => hlt) (fun _ _ => .inl (mem_singleton_self _))
      (fun _ hmem => nomatch hmem) fun hne third ht => ?_
    -- Offered by the one that holds the permit, so it is the block pushed.
    refine absurd ht (h.not_offered hh (fun hof => ?_) hne)
    rw [hg] at hof
    exact (Option.some.inj hof).symm

theorem allocateFreshBlock (hcap : a.blockCount < maxTreeBlockCount)
    (hg : a.grabs task = .extending) :
    Chained ({ a.setBlock a.blockCount NodeBlock.newZeroed.markDirty with
      blockCount := a.blockCount + 1 }.setGrab task (.extended a.blockCount)) []
      (some a.blockCount) := by
  have hh : (a.grabs task).holds = true := by
    rw [hg]
    rfl
  have hnil : chain = [] := (h.grabs task).empty (by rw [hg]; rfl)
  subst hnil
  generalize hb : NodeBlock.newZeroed.markDirty = block
  have hin := ne_invalidBlock (Nat.lt_succ_self a.blockCount) hcap
  refine ⟨?_, (fun _ ho => nomatch ho), nodup_nil, (fun _ ho => nomatch ho),
    grabs_update ?_ fun other ho => ?_, fun index hi => ?_, fun hf other hlt => ?_,
    fun other hlt => h.dirty_setBlock (fun _ => hb ▸ rfl)
      (Nat.lt_of_le_of_ne (Nat.le_of_lt_succ hlt))⟩
  · show Walk _ invalidBlock a.blockUnusedFirst [] _
    rw [h.first_eq]
    exact .nil _
  · refine ⟨(fun _ hhe => nomatch hhe), fun index hi => ?_, (fun _ ha => nomatch ha),
      fun _ => (h.grabs task).permit hh, fun _ => rfl, fun index hi => ?_⟩
    · cases hi
      exact Nat.lt_succ_self _
    · cases hi
      rfl
  · refine (h.grabs other).beside (h.not_holds hh ho) (Nat.le_succ _) (fun _ hmem => hmem)
      fun head hv _ heq => ?_
    cases heq
    exact hv.elim (Nat.lt_irrefl _) hin
  · cases hi
    exact ⟨setBlock_cases (·.isFull = false) (fun _ => hb ▸ rfl) (absurd rfl), task,
      update_self ..⟩
  · refine h.room_setBlock hf (Nat.lt_of_le_of_ne (Nat.le_of_lt_succ hlt)) (fun _ _ => ?_)
      (fun _ hmem => nomatch hmem) fun hne third ht => ?_
    · refine .inr (.inr ⟨task, ?_⟩)
      show (update a.grabs task (.extended a.blockCount) task).offered? = _
      rw [update_self]
      rfl
    · exact absurd ht (h.not_offered hh (by rw [hg]; nofun) hne)

end

end Chained

end Lore.State
