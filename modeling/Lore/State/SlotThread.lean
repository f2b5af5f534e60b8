import Mathlib.Data.List.Induction
import Lore.State.SlotChain

/-!
# SlotThread — a save threads the marked blocks onto the chain

Run alone, the save's pass puts every marked block with room right behind the head, the head
apart, and takes every mark. A marked block is never behind the head, so the chain stays free of
duplicates, and after the pass it holds every block with room.
-/

namespace Lore.State

open Lore.Lib List Function

/-- The pass over the blocks of `list` of the save's list, from `before` and the blocks `rest`
behind the head: it threaded `threaded`, the last first. -/
structure Threads (before : Nat → NodeBlock) (first : Nat) (rest list : List Nat)
    (s : (Nat → NodeBlock) × Nat) (threaded : List Nat) : Prop where
  walk : Walk (fun index => (s.1 index).blockUnusedNext) invalidBlock s.2 (threaded ++ rest)
    invalidBlock
  nodup : threaded.Nodup
  mem : ∀ index, index ∈ threaded ↔ index ∈ list ∧ (before index).firstUnusedNode = true ∧
    (before index).isFull = false ∧ index ≠ first
  next : ∀ index ∉ threaded, (s.1 index).blockUnusedNext = (before index).blockUnusedNext
  nodes : ∀ index, (s.1 index).nodeCount = (before index).nodeCount ∧
    (s.1 index).freeList = (before index).freeList ∧ (s.1 index).isFull = (before index).isFull
  mark : ∀ index, (s.1 index).firstUnusedNode = true ↔
    (before index).firstUnusedNode = true ∧ index ∉ list
  dirty : ∀ index, (before index).dirty = true → (s.1 index).dirty = true

namespace Threads

variable {before : Nat → NodeBlock} {first : Nat} {rest list : List Nat}
  {s : (Nat → NodeBlock) × Nat} {threaded : List Nat}

theorem nil {behind}
    (hw : Walk (fun index => (before index).blockUnusedNext) invalidBlock behind rest
      invalidBlock) : Threads before first rest [] (before, behind) [] where
  walk := hw
  nodup := nodup_nil
  mem index := by simp
  next _ _ := rfl
  nodes _ := ⟨rfl, rfl, rfl⟩
  mark index := by simp
  dirty _ hd := hd

section

variable (h : Threads before first rest list s threaded) {index}
include h

theorem skip (hm : (before index).firstUnusedNode = false) :
    Threads before first rest (list ++ [index]) s threaded where
  __ := h
  mem other := by
    rw [h.mem, mem_append, mem_singleton]
    refine and_congr_left fun ho => (or_iff_left ?_).symm
    rintro rfl
    rw [hm] at ho
    cases ho.1
  mark other := by
    rw [h.mark, mem_append, mem_singleton, not_or]
    refine and_congr_right fun ho => (and_iff_left ?_).symm
    rintro rfl
    rw [hm] at ho
    cases ho

/-- A block with the mark loses it, and is threaded where it has room and is not the head. -/
theorem take (hnew : index ∉ list) (hm : (before index).firstUnusedNode = true) {block}
    (hb : block = { s.1 index with
      firstUnusedNode := false
      blockUnusedNext := block.blockUnusedNext
      dirty := block.dirty }) (hd : (s.1 index).dirty = true → block.dirty = true) {next threaded'}
    (hw : Walk (fun other => (update s.1 index block other).blockUnusedNext)
      invalidBlock next (threaded' ++ rest) invalidBlock) (hn : threaded'.Nodup)
    (hmem : ∀ other, other ∈ threaded' ↔ other ∈ threaded ∨
      other = index ∧ (before index).isFull = false ∧ index ≠ first)
    (hnex : index ∉ threaded' → block.blockUnusedNext = (s.1 index).blockUnusedNext) :
    Threads before first rest (list ++ [index]) (update s.1 index block, next)
      threaded' := by
  have hnot : index ∉ threaded := fun ht => hnew ((h.mem index).mp ht).1
  refine ⟨hw, hn, fun other => ?_, (forall_update_iff s.1 fun other block => other ∉ threaded' →
      block.blockUnusedNext = (before other).blockUnusedNext).mpr ⟨fun ho => ?_, fun other _ => ?_⟩,
    (forall_update_iff s.1 fun other block => block.nodeCount = (before other).nodeCount ∧
      block.freeList = (before other).freeList ∧ block.isFull = (before other).isFull).mpr
        ⟨hb ▸ h.nodes index, fun other _ => h.nodes other⟩,
    (forall_update_iff s.1 fun other block => block.firstUnusedNode = true ↔
      (before other).firstUnusedNode = true ∧ other ∉ list ++ [index]).mpr ⟨?_, fun other hne => ?_⟩,
    (forall_update_iff s.1 fun other block => (before other).dirty = true → block.dirty = true).mpr
      ⟨fun hbe => hd (h.dirty index hbe), fun other _ => h.dirty other⟩⟩
  · rw [hmem, h.mem, mem_append, mem_singleton]
    constructor
    · rintro (⟨hlist, hr⟩ | ⟨rfl, hr⟩)
      · exact ⟨.inl hlist, hr⟩
      · exact ⟨.inr rfl, hm, hr⟩
    · rintro ⟨hlist | rfl, hr⟩
      · exact .inl ⟨hlist, hr⟩
      · exact .inr ⟨rfl, hr.2⟩
  · rw [hnex ho, h.next index hnot]
  · exact fun ho => h.next other fun ht => ho ((hmem other).mpr (.inl ht))
  · rw [hb]
    simp
  · rw [h.mark]
    simp [hne]

theorem threadOne (hnew : index ∉ list)
    (hv : index ≠ invalidBlock) (hr : (before index).firstUnusedNode = true → index ∉ rest) :
    ∃ threaded', Threads before first rest (list ++ [index]) (Allocator.threadOne first s index)
      threaded' := by
  have hb : (s.1 index).firstUnusedNode = (before index).firstUnusedNode := by
    rw [Bool.eq_iff_iff, h.mark]
    exact and_iff_left hnew
  obtain ⟨blocks, next⟩ := s
  unfold Allocator.threadOne
  dsimp only at hb ⊢
  rw [hb]
  cases hm : (before index).firstUnusedNode with
  | false => exact ⟨threaded, h.skip hm⟩
  | true =>
    have hnot : index ∉ threaded := fun ht => hnew ((h.mem index).mp ht).1
    have hf : (blocks index).isFull = (before index).isFull := (h.nodes index).2.2
    rw [if_pos rfl]
    split
    case isTrue hc =>
      rw [hf] at hc
      refine ⟨index :: threaded, h.take hnew hm rfl (fun _ => rfl) (.cons hv ?_) ?_ ?_ ?_⟩
      · rw [update_self]
        refine h.walk.congr fun other ho => ?_
        rw [update_of_ne]
        rintro rfl
        exact (mem_append.mp ho).elim hnot (hr hm)
      · exact nodup_cons.mpr ⟨hnot, h.nodup⟩
      · intro other
        rw [mem_cons, or_comm, and_iff_left hc]
      · exact (absurd mem_cons_self)
    case isFalse hc =>
      rw [hf] at hc
      refine ⟨threaded, ?_⟩
      refine h.take hnew hm rfl ?_ (h.walk.congr fun other _ => ?_) h.nodup ?_ fun _ => rfl
      · exact fun hd => hd
      · by_cases hne : other = index
        · subst hne
          rw [update_self]
        · rw [update_of_ne hne]
      · exact fun other => (or_iff_left fun ho => hc ho.2).symm

end

theorem foldl {behind}
    (hw : Walk (fun index => (before index).blockUnusedNext) invalidBlock behind rest invalidBlock)
    (hn : list.Nodup) (hv : ∀ index ∈ list, index ≠ invalidBlock)
    (hr : ∀ index, (before index).firstUnusedNode = true → index ∉ rest) :
    ∃ threaded, Threads before first rest list
      (list.foldl (Allocator.threadOne first) (before, behind)) threaded := by
  induction list using reverseRecOn with
  | nil => exact ⟨[], nil hw⟩
  | append_singleton list index ih =>
    rw [nodup_append] at hn
    obtain ⟨threaded, h⟩ := ih hn.1 fun other ho =>
      hv other (mem_append_left _ ho)
    rw [foldl_append]
    exact h.threadOne (fun hmem => hn.2.2 index hmem index mem_cons_self rfl)
      (hv index (mem_append_right _ mem_cons_self)) (hr index)

theorem eq_nil_of_next {behind} (h : Threads before first rest list s threaded)
    (hw : Walk (fun index => (before index).blockUnusedNext) invalidBlock behind rest invalidBlock)
    (hr : ∀ index, (before index).firstUnusedNode = true → index ∉ rest) (hn : s.2 = behind) :
    threaded = [] := by
  cases threaded with
  | nil => rfl
  | cons index threaded =>
    have hi : index = behind := by
      rw [← hn]
      exact h.walk.head_eq
    have hm := ((h.mem index).mp mem_cons_self).2.1
    cases rest with
    | nil =>
      have hin := hw.eq_of_nil
      exact absurd (hi.trans hin) (h.walk.ne_stop mem_cons_self)
    | cons other rest =>
      refine absurd ?_ (hr index hm)
      rw [hw.head_eq, hi]
      exact mem_cons_self

end Threads

theorem Allocator.threadUnusedBlocks_frame {τ : Type} {a b : Allocator τ} {blockDirty : List Nat}
    (h : a.threadUnusedBlocks blockDirty = b) :
    b.blockCount = a.blockCount ∧ b.grabs = a.grabs ∧ b.freshBlocksFrom = a.freshBlocksFrom ∧
      b.owned = a.owned ∧ b.permit = a.permit := by
  subst h
  unfold threadUnusedBlocks
  split
  · exact ⟨rfl, rfl, rfl, rfl, rfl⟩
  · dsimp only
    repeat' split
    all_goals exact ⟨rfl, rfl, rfl, rfl, rfl⟩

/-- What a save's pass comes to: every mark is taken, and every block keeps its slots. -/
structure Threaded {τ : Type} (a a' : Allocator τ) : Prop where
  chained : ∃ chain, Chained a' chain none
  unmarked : ∀ index < a.blockCount, (a'.blocks index).firstUnusedNode = false
  nodes : ∀ index, (a'.blocks index).nodeCount = (a.blocks index).nodeCount ∧
    (a'.blocks index).freeList = (a.blocks index).freeList

namespace Chained

variable {τ : Type} {a : Allocator τ} {chain : List Nat} {fresh : Option Nat}

theorem walk_behind (h : Chained a chain fresh) (hc : a.blockCount ≤ maxTreeBlockCount) :
    Walk (fun index => (a.blocks index).blockUnusedNext) invalidBlock
      (if a.blockUnusedFirst < a.blockCount then (a.blocks a.blockUnusedFirst).blockUnusedNext
        else invalidBlock) chain.tail invalidBlock := by
  have hw := h.walk
  cases chain with
  | nil =>
    rw [if_neg]
    · exact .nil _
    · rw [h.first_eq]
      unfold invalidBlock
      unfold maxTreeBlockCount at hc
      omega
  | cons first rest =>
    have hf := hw.head_eq
    rw [if_pos (hf ▸ h.blocks first mem_cons_self)]
    cases hw with
    | cons _ hr => exact hr

theorem weaken (h : Chained a chain fresh) (hidle : ∀ task, a.grabs task = .idle) :
    Chained a chain none :=
  { h with
    grabs := fun task => hidle task ▸ .idle
    fresh := fun _ hf => nomatch hf }

section

variable (h : Chained a chain fresh) (hmax : a.blockCount ≤ maxTreeBlockCount)
  (hidle : ∀ task, a.grabs task = .idle) {list} {s : (Nat → NodeBlock) × Nat} {threaded}
  (hthreads : Threads a.blocks a.blockUnusedFirst chain.tail list s threaded)
  (hlist : ∀ index ∈ list, index < a.blockCount)
  (hcovers : ∀ index < a.blockCount, (a.blocks index).firstUnusedNode = true → index ∈ list)
include h hmax hidle hthreads hlist hcovers

theorem of_threads {a'} (hfr : a'.blockCount = a.blockCount ∧ a'.grabs = a.grabs ∧
      a'.freshBlocksFrom = a.freshBlocksFrom) (hbl : ∀ index, a'.blocks index = { s.1 index with
      blockUnusedNext := (a'.blocks index).blockUnusedNext
      dirty := (a'.blocks index).dirty })
    (hd : ∀ index, (s.1 index).dirty = true → (a'.blocks index).dirty = true) {chain'}
    (hw : Walk (fun index => (a'.blocks index).blockUnusedNext) invalidBlock
      a'.blockUnusedFirst chain' invalidBlock) (hn : chain'.Nodup)
    (hmem : ∀ index, index ∈ chain' ↔ index ∈ chain ∨ index ∈ threaded)
    (htai : ∀ index ∈ chain'.tail, index ∈ chain.tail ∨ index ∈ threaded) : Threaded a a' := by
  obtain ⟨hc, hg, hfro⟩ := hfr
  have hfu : ∀ index, (a'.blocks index).isFull = (a.blocks index).isFull := fun index => by
    rw [hbl]
    exact (hthreads.nodes index).2.2
  have hma : ∀ index, (a'.blocks index).firstUnusedNode = true ↔
      (a.blocks index).firstUnusedNode = true ∧ index ∉ list := fun index => by
    rw [hbl]
    exact hthreads.mark index
  refine ⟨⟨chain', ?_⟩, fun index hi => ?_, fun index => ?_⟩
  case refine_2 =>
    rw [Bool.eq_false_iff, Ne, hma]
    exact fun hm => hm.2 (hcovers index hi hm.1)
  case refine_3 =>
    rw [hbl]
    exact ⟨(hthreads.nodes index).1, (hthreads.nodes index).2.1⟩
  refine ⟨hw, fun index hi => ?_, hn, fun index hi => ?_, fun task => ?_,
    (fun _ hfr => nomatch hfr), fun hno index hi hr => ?_, fun index hi hb => ?_⟩
  · rw [hc]
    rcases (hmem index).mp hi with hb | ht
    · exact h.blocks index hb
    · exact hlist index ((hthreads.mem index).mp ht).1
  · rw [hfu, Bool.eq_false_iff (b := (a'.blocks index).firstUnusedNode), Ne, hma]
    rcases htai index hi with hb | ht
    · obtain ⟨hr, hu⟩ := h.behind index hb
      exact ⟨hr, fun hm => nomatch hu.symm.trans hm.1⟩
    · obtain ⟨hin, -, hr, -⟩ := (hthreads.mem index).mp ht
      exact ⟨hr, fun hm => hm.2 hin⟩
  · rw [hg, hidle]
    exact .idle
  · rw [hfu] at hr
    rw [hc] at hi
    rcases h.room (hfro ▸ hno) index hi hr with hb | hm | ⟨task, hta⟩
    · exact .inl ((hmem index).mpr (.inl hb))
    · refine .inl ((hmem index).mpr ?_)
      by_cases hf : index = a.blockUnusedFirst
      · -- The head is on the chain already.
        obtain ⟨rest, hch⟩ := h.eq_cons (hf ▸ ne_invalidBlock hi hmax)
        refine .inl ?_
        rw [hch, hf]
        exact mem_cons_self
      · exact .inr ((hthreads.mem index).mpr ⟨hcovers index hi hm, hm, hr, hf⟩)
    · rw [hidle] at hta
      cases hta
  · rw [hc] at hi
    exact hd index (hthreads.dirty index (h.dirty index hi ((hma index).mp hb).1))

theorem link_head (hr : ∀ index, (a.blocks index).firstUnusedNode = true → index ∉ chain.tail)
    (hf : a.blockUnusedFirst < a.blockCount) :
    Threaded a (({ a with blocks := s.1 } : Allocator τ).setBlock a.blockUnusedFirst
      ({ s.1 a.blockUnusedFirst with blockUnusedNext := s.2 } : NodeBlock).markDirty) := by
  generalize ha : (({ a with blocks := s.1 } : Allocator τ).setBlock a.blockUnusedFirst
    ({ s.1 a.blockUnusedFirst with blockUnusedNext := s.2 } : NodeBlock).markDirty) = a'
  have hat : a'.blocks a.blockUnusedFirst =
      ({ s.1 a.blockUnusedFirst with blockUnusedNext := s.2 } : NodeBlock).markDirty :=
    ha ▸ update_self ..
  have hb : ∀ {other}, other ≠ a.blockUnusedFirst → a'.blocks other = s.1 other :=
    fun hne => ha ▸ update_of_ne hne ..
  have hnT : a.blockUnusedFirst ∉ threaded := fun hmem => ((hthreads.mem _).mp hmem).2.2.2 rfl
  have hnR : a.blockUnusedFirst ∉ chain.tail := h.first_not_behind
  obtain ⟨rest, hc⟩ := h.eq_cons (ne_invalidBlock hf hmax)
  have hw : a'.blockUnusedFirst = a.blockUnusedFirst := ha ▸ rfl
  refine @of_threads _ _ _ _ h hmax hidle _ _ _ hthreads hlist hcovers _ (ha ▸ ⟨rfl, rfl, rfl⟩)
    (fun index => ?_) (fun index hd => ?_) (a.blockUnusedFirst :: (threaded ++ chain.tail))
    ?_ ?_ (fun index => ?_) fun index hi => ?_
  · -- The head differs from what the pass left in its link and its dirty flag alone.
    by_cases hne : index = a.blockUnusedFirst
    · rw [hne, hat]
      rfl
    · rw [hb hne]
  · by_cases hne : index = a.blockUnusedFirst
    · rw [hne, hat]
      rfl
    · rw [hb hne]
      exact hd
  · rw [hw]
    refine .cons (ne_invalidBlock hf hmax) ?_
    rw [hat]
    refine hthreads.walk.congr fun index hi => ?_
    rw [hb]
    rintro rfl
    exact (mem_append.mp hi).elim hnT hnR
  · rw [nodup_cons, mem_append, not_or, nodup_append]
    refine ⟨⟨hnT, hnR⟩, hthreads.nodup, h.nodup.sublist (tail_sublist _), ?_⟩
    rintro index ht other hta rfl
    exact hr index ((hthreads.mem index).mp ht).2.1 hta
  · rw [hc, mem_cons, mem_append, mem_cons]
    tauto
  · rw [tail_cons, mem_append] at hi
    exact hi.symm

end

theorem mem_drop_of_marked {blocks : Nat → NodeBlock} {list : List Nat} {start index : Nat}
    (hst : list.findIdx? (fun index => (blocks index).firstUnusedNode) = some start)
    (hmem : index ∈ list) (hm : (blocks index).firstUnusedNode = true) :
    index ∈ list.drop start := by
  rw [← take_append_drop start list, mem_append] at hmem
  refine hmem.resolve_left fun ht => ?_
  obtain ⟨position, hlt, hat⟩ := mem_take_iff_getElem.mp ht
  obtain ⟨_, _, hb⟩ := findIdx?_eq_some_iff_getElem.mp hst
  exact hb position (by omega) (hat ▸ hm)

theorem threadUnusedBlocks (h : Chained a chain fresh) (hmax : a.blockCount ≤ maxTreeBlockCount)
    (hidle : ∀ task, a.grabs task = .idle) {blockDirty : List Nat} (hn : blockDirty.Nodup)
    (hl : ∀ index, index ∈ blockDirty ↔ index < a.blockCount ∧ (a.blocks index).dirty = true) :
    Threaded a (a.threadUnusedBlocks blockDirty) := by
  have hm : ∀ index < a.blockCount, (a.blocks index).firstUnusedNode = true → index ∈ blockDirty :=
    fun index hi hma => (hl index).mpr ⟨hi, h.dirty index hi hma⟩
  have hr : ∀ index, (a.blocks index).firstUnusedNode = true → index ∉ chain.tail :=
    fun index hma ht => nomatch (h.behind index ht).2.symm.trans hma
  unfold Allocator.threadUnusedBlocks
  split
  case h_1 hno =>
    rw [findIdx?_eq_none_iff] at hno
    refine ⟨⟨chain, h.weaken hidle⟩, fun index hi => ?_, fun _ => ⟨rfl, rfl⟩⟩
    cases hma : (a.blocks index).firstUnusedNode with
    | false => rfl
    | true => exact absurd hma (by simp [hno index (hm index hi hma)])
  case h_2 start hst =>
    have hb := h.walk_behind hmax
    dsimp only
    generalize hv : (if a.blockUnusedFirst < a.blockCount then
      (a.blocks a.blockUnusedFirst).blockUnusedNext else invalidBlock) = behind at hb ⊢
    have hlist : ∀ index ∈ blockDirty.drop start, index < a.blockCount :=
      fun index hi => ((hl index).mp (mem_of_mem_drop hi)).1
    have hcovers : ∀ index < a.blockCount, (a.blocks index).firstUnusedNode = true →
        index ∈ blockDirty.drop start :=
      fun index hi hma => mem_drop_of_marked hst (hm index hi hma) hma
    obtain ⟨threaded, hthreads⟩ : ∃ threaded, Threads a.blocks a.blockUnusedFirst chain.tail
        (blockDirty.drop start) ((blockDirty.drop start).foldl
          (Allocator.threadOne a.blockUnusedFirst) (a.blocks, behind)) threaded :=
      Threads.foldl hb (hn.sublist (drop_sublist start blockDirty))
        (fun index hi => ne_invalidBlock (hlist index hi) hmax) hr
    generalize (blockDirty.drop start).foldl (Allocator.threadOne a.blockUnusedFirst)
      (a.blocks, behind) = s at hthreads ⊢
    by_cases hne : s.2 = behind
    · simp only [if_pos hne]
      have hnil := hthreads.eq_nil_of_next hb hr hne
      subst hnil
      exact h.of_threads hmax hidle hthreads hlist hcovers ⟨rfl, rfl, rfl⟩ (fun _ => rfl)
        (fun _ => id) (h.walk.congr fun index _ => hthreads.next index not_mem_nil) h.nodup
        (fun index => (or_iff_left not_mem_nil).symm) fun _ => .inl
    · by_cases hf : a.blockUnusedFirst < a.blockCount
      · simp only [if_neg hne, if_pos hf]
        exact h.link_head hmax hidle hthreads hlist hcovers hr hf
      · simp only [if_neg hne, if_neg hf]
        -- No block of the tree is the head, so the chain was empty.
        have hnil : chain = [] := by
          cases chain with
          | nil => rfl
          | cons first rest =>
            exact absurd (h.walk.head_eq ▸ h.blocks first mem_cons_self) hf
        subst hnil
        refine h.of_threads hmax hidle hthreads hlist hcovers ⟨rfl, rfl, rfl⟩ (fun _ => rfl)
          (fun _ => id) ?_ hthreads.nodup (fun index => (or_iff_right not_mem_nil).symm)
          fun index hi => .inr (mem_of_mem_tail hi)
        have hw := hthreads.walk
        rw [tail_nil, append_nil] at hw
        exact hw

end Chained

end Lore.State
