import Mathlib.Data.Fintype.Basic
import Mathlib.Data.List.Nodup
import Lore.Lib.Machine
import Lore.State.DirtyMarks

/-!
# DirtyClosed — no interleaving of marks and clears loses a mark

A dirty child under a clean directory is somebody's debt: a mark stands at the directory with
its dirty half still climbing, or a clear that cleaned the directory is on its second walk
with the child still ahead of it. Every step keeps each such debt or pays it, so with no
operation in progress no directory owes its mark.
-/

namespace Lore.State

open Lib List Function Option
open Commit (NodeFlags.dirty NodeFlags.staged NodeFlags.stagedBits)

/-! ## The dirty bit of one node -/

theorem hasDirty_iff (flags : BitVec 16) :
    flags &&& NodeFlags.dirty = NodeFlags.dirty ↔ flags.getLsbD 3 = true := by
  rw [show NodeFlags.dirty = BitVec.twoPow 16 3 by decide, BitVec.and_twoPow]
  split
  · next h => simp [h]
  · next h => exact ⟨fun hz => absurd hz (by decide), fun hbit => absurd hbit h⟩

theorem TreeNode.isDirty_eq (node : TreeNode) : node.isDirty = node.flags.getLsbD 3 := by
  rw [TreeNode.isDirty, Bool.eq_iff_iff, beq_iff_eq, hasDirty_iff]

theorem TreeNode.clearDirtyFlags_isDirty (node : TreeNode) :
    node.clearDirtyFlags.isDirty = false := by
  rw [isDirty_eq, clearDirtyFlags]
  split <;> simp [NodeFlags.dirty]

theorem TreeNode.clearStagedFlags_isDirty (node : TreeNode) :
    node.clearStagedFlags.isDirty = node.isDirty := by
  rw [isDirty_eq, isDirty_eq, clearStagedFlags]
  split <;> simp [NodeFlags.staged, NodeFlags.mergeBits, NodeFlags.actionBits]

namespace Halves

/-- The flags of the dirty half hold the base bit. -/
def Based (halves : Halves) : Prop := ∀ half ∈ halves.dirty, half.flags.getLsbD 3 = true

theorem of_based {mark} (h : ∀ half ∈ mark.dirty, half.1 &&& NodeFlags.dirty = NodeFlags.dirty) :
    (of mark).Based := by
  intro half hh
  obtain ⟨marked, hm, rfl⟩ := map_eq_some_iff.mp hh
  simp [NodeFlags.dirtyBits, (hasDirty_iff _).mp (h marked hm)]

theorem applyStaged_spec (halves : Halves) (node : TreeNode) :
    (halves.applyStaged node).1.dirty = halves.dirty ∧
      (halves.applyStaged node).2.1.isDirty = node.isDirty ∧
      (halves.applyStaged node).2.1.parent = node.parent ∧
      (halves.applyStaged node).2.1.isDiscarded = node.isDiscarded := by
  simp only [applyStaged, TreeNode.isDirty_eq]
  split
  · simp
  · split <;> simp [NodeFlags.stagedBits]

/-- A level of a mark never takes the dirty bit away; where it sets it, the half climbs on; and
only a discarded node stays clean under it. -/
theorem apply_spec {halves : Halves} (h : halves.Based) (node : TreeNode) :
    (halves.apply node).1.Based ∧ (halves.apply node).2.1.parent = node.parent ∧
      (halves.apply node).2.1.isDiscarded = node.isDiscarded ∧
      (node.isDirty = true → (halves.apply node).2.1.isDirty = true) ∧
      ((halves.apply node).2.1.isDirty = true → node.isDirty = true ∨
        (halves.apply node).2.2 = true ∧ (halves.apply node).1.dirty.isSome = true) ∧
      (halves.dirty.isSome = true → node.isDiscarded = false →
        (halves.apply node).2.1.isDirty = true) := by
  obtain ⟨hd, hbit, hp, hg⟩ := halves.applyStaged_spec node
  simp only [apply]
  rw [← hbit, ← hp, ← hg, ← hd]
  have hb : (halves.applyStaged node).1.Based := by rwa [Based, hd]
  generalize (halves.applyStaged node).2.1 = written
  rw [applyDirty]
  split
  · next hn => simp [hn, hb]
  · next flags force hso =>
      have hf : flags.getLsbD 3 = true := hb _ hso
      split
      · next hg => simp [Based, hg]
      · split
        · next hh =>
            -- the node holds the flags already, and with them the base bit
            have hh : written.flags &&& flags = flags := by
              simp only [Bool.and_eq_true, beq_iff_eq] at hh
              exact hh.1.2
            have : written.isDirty = true := by
              rw [TreeNode.isDirty_eq]
              rw [← hh, BitVec.getLsbD_and, Bool.and_eq_true] at hf
              exact hf.1
            simp [Based, this]
        · have hset : flags[3] = true := hf
          simp [Based, TreeNode.isDirty_eq, NodeFlags.dirty, hset]

end Halves

/-! ## Chains under change -/

theorem chainFrom_split {before after node} (h : node ∉ before) :
    chainFrom (before ++ node :: after) node = node :: after := by
  rw [chainFrom, dropWhile_append_of_pos, dropWhile_cons_of_neg (by simp)]
  intro other ho
  exact bne_iff_ne.mpr fun heq => h (heq ▸ ho)

theorem chainFrom_next {chain node child} (hn : chain.Nodup) (hno : node ∈ chain)
    (hc : child ∈ chainFrom chain node) (hne : child ≠ node) :
    ∃ next, (chainFrom chain node).tail.head? = some next ∧ child ∈ chainFrom chain next := by
  obtain ⟨before, after, rfl, hb⟩ := eq_append_cons_of_mem hno
  rw [chainFrom_split hb] at hc ⊢
  have ha : child ∈ after := (mem_cons.mp hc).resolve_left hne
  cases after with
  | nil => cases ha
  | cons next rest =>
    refine ⟨next, rfl, ?_⟩
    have hsp : before ++ node :: next :: rest = (before ++ [node]) ++ next :: rest := by simp
    rw [hsp] at hn ⊢
    rw [chainFrom_split fun hmem =>
      (nodup_append.mp hn).2.2 next hmem next mem_cons_self rfl]
    exact ha

theorem mem_chainFrom_erase {chain gone next child} (hc : child ∈ chainFrom chain next)
    (hne : child ≠ gone) (hn : next ≠ gone) : child ∈ chainFrom (chain.erase gone) next := by
  induction chain with
  | nil => exact hc
  | cons head rest ih =>
    rw [chainFrom, dropWhile_cons] at hc
    rw [erase_cons]
    by_cases hh : head = next
    · simp only [hh, bne_self_eq_false, Bool.false_eq_true, if_false] at hc
      simp only [hh, beq_iff_eq, hn, if_false, chainFrom, dropWhile_cons,
        bne_self_eq_false, Bool.false_eq_true]
      rw [mem_cons] at hc ⊢
      exact hc.imp_right (mem_erase_of_ne hne).mpr
    · rw [if_pos (bne_iff_ne.mpr hh)] at hc
      split
      · exact hc
      · rw [chainFrom, dropWhile_cons, if_pos (bne_iff_ne.mpr hh)]
        exact ih hc

/-! ## The debts -/

/-- A climb that has yet to see to it that `dir` is dirty over its child. A walk whose next
child has left the chain is one that finds it changed. -/
inductive Owes (chain : List Nat) (dir child : Nat) : Climb → Prop
  | mark {halves : Halves} : halves.dirty.isSome = true → Owes chain dir child (.mark dir halves)
  | recheck {parent next : Nat} : (next ∈ chain → child ∈ chainFrom chain next) →
      Owes chain dir child (.recheck dir parent (some next))

theorem Owes.rechain {chain chain' dir child climb} (ho : Owes chain dir child climb)
    (h : ∀ next ∈ chain', (next ∈ chain → child ∈ chainFrom chain next) →
      child ∈ chainFrom chain' next) : Owes chain' dir child climb := by
  cases ho with
  | mark hso => exact .mark hso
  | recheck ha => exact .recheck fun hn => h _ hn ha

namespace NodeTree

variable {τ : Type} {tree t : NodeTree τ}

theorem Live.mono
    (h : ∀ dir node, t.Live dir → node ∈ t.children dir → tree.Live dir → tree.Live node) {node}
    (hl : t.Live node) : tree.Live node := by
  induction hl with
  | root => exact .root
  | child hdir hmem ih => exact h _ _ hdir hmem ih

/-- Each dirty child under a clean live directory is owed by some task. -/
structure Kept (tree : NodeTree τ) : Prop extends tree.Chained where
  based : ∀ {task dir halves}, tree.climbs task = .mark dir halves → halves.Based
  owed : ∀ {dir child}, tree.Live dir → child ∈ tree.children dir → dir ≠ rootNode →
    (tree.nodes child).isDirty = true → (tree.nodes dir).isDirty = true ∨
      ∃ task, Owes (tree.children dir) dir child (tree.climbs task)

theorem Chained.valid (h : tree.Chained) {dir child} (hmem : child ∈ tree.children dir)
    (hr : dir ≠ rootNode) : isValidNodeId dir = true := by
  have hlt := (h.member hmem).2.2.2.2
  have hle := h.bounded
  have hi : dir ≠ invalidNode := by omega
  simp [isValidNodeId, hr, hi]

theorem Chained.present (h : tree.Chained) {dir} (hl : tree.Live dir) (hr : dir ≠ rootNode) :
    (tree.nodes dir).isDiscarded = false := by
  cases hl with
  | root => exact absurd rfl hr
  | child _ hmem => exact (h.member hmem).2.1

/-- With nothing in progress nothing is owed, so the dirty bit is handed up from parent to
parent. -/
theorem Kept.closed (h : tree.Kept) (hre : tree.AtRest) : tree.Closed := by
  have he : ∀ {dir child}, tree.Live child → child ∈ tree.children dir → dir ≠ rootNode →
      (tree.nodes child).isDirty = true →
      tree.Live dir ∧ (tree.nodes dir).isDirty = true := by
    intro dir child hl hin hdir hd
    have hup : tree.Live dir := by
      cases hl with
      | root => exact absurd rfl (h.member hin).2.2.1
      | child hl' hin' => rwa [← (h.member hin).1, (h.member hin').1]
    refine ⟨hup, (h.owed hup hin hdir hd).resolve_right fun ⟨task, ho⟩ => ?_⟩
    rw [hre task] at ho
    cases ho
  intro node hl hd above ha hr
  induction ha with
  | parent hin => exact (he hl hin hr hd).2
  | parents hin ha ih =>
    have hdir : _ ≠ rootNode := fun heq => by
      cases ha with
      | parent hin' | parents hin' => exact (h.member hin').2.2.1 heq
    obtain ⟨hup, hd⟩ := he hl hin hdir hd
    exact ih hup hd hr

theorem Kept.detach (h : tree.Kept) {node} (hr : node ≠ rootNode) : (tree.detach node).Kept := by
  have hno : (tree.detach node).nodes node = { tree.nodes node with isDiscarded := true } :=
    update_self ..
  have ho : ∀ {other}, other ≠ node → (tree.detach node).nodes other = tree.nodes other :=
    fun hne => update_of_ne hne ..
  have hbit : ∀ other, ((tree.detach node).nodes other).isDirty = (tree.nodes other).isDirty :=
    update_related (fun a b : TreeNode => b.isDirty = a.isDirty) (fun _ => rfl) rfl
  have hc : ∀ dir, (tree.detach node).children dir = (tree.children dir).erase node := by
    intro dir
    by_cases hdir : dir = (tree.nodes node).parent
    · rw [hdir]
      exact update_self ..
    · rw [erase_of_not_mem fun hmem => hdir (h.member hmem).1.symm]
      exact update_of_ne hdir ..
  have hmem : ∀ {dir child}, child ∈ (tree.detach node).children dir ↔
      child ≠ node ∧ child ∈ tree.children dir := by
    intro dir child
    rw [hc, (h.nodup dir).mem_erase_iff]
  refine ⟨⟨fun hin => ?_, fun {other} hne hp => ?_, fun dir => ?_, ?_, h.bounded⟩, h.based,
    fun {dir child} hl hin hdir hd => ?_⟩
  · rw [ho (hmem.mp hin).1]
    exact h.member (hmem.mp hin).2
  · have heq : other ≠ node := fun heq => by
      rw [heq, hno] at hp
      cases hp
    rw [ho heq] at hp ⊢
    exact hmem.mpr ⟨heq, h.hangs hne hp⟩
  · rw [hc]
    exact (h.nodup dir).erase node
  · rw [ho hr.symm]
    exact h.root
  · have hl : tree.Live dir := by
      refine hl.mono fun dir' child' _ hin' hl' => ?_
      exact .child hl' (hmem.mp hin').2
    rw [hbit] at hd ⊢
    refine (h.owed hl (hmem.mp hin).2 hdir hd).imp_right fun ⟨task, how⟩ =>
      ⟨task, how.rechain fun next hn ha => ?_⟩
    obtain ⟨hne, hn⟩ := hmem.mp hn
    rw [hc]
    exact mem_chainFrom_erase (ha hn) (hmem.mp hin).1 hne

variable [DecidableEq τ]

/-- One locked write of a node that stays where it hangs, and the move of the climb that made
it: a bit it sets climbs on, a bit it takes away is owed, and the debt the task had is paid or
kept. -/
theorem Kept.write (h : tree.Kept) (node : Nat) (record : TreeNode) (task : τ) {climb}
    (hp : record.parent = (tree.nodes node).parent)
    (hg : record.isDiscarded = (tree.nodes node).isDiscarded)
    (hb : ∀ {dir halves}, climb = .mark dir halves → halves.Based)
    (hr : record.isDirty = true → (tree.nodes node).isDirty = true ∨
      ∃ halves, climb = .mark record.parent halves ∧ halves.dirty.isSome = true)
    (hl : (tree.nodes node).isDirty = true → record.isDirty = true ∨
      ∀ child ∈ tree.children node, (tree.nodes child).isDirty = true →
        ∃ other, Owes (tree.children node) node child (update tree.climbs task climb other))
    (hde : ∀ {dir child}, tree.Live dir → child ∈ tree.children dir → dir ≠ rootNode →
      (tree.nodes child).isDirty = true →
      Owes (tree.children dir) dir child (tree.climbs task) →
        dir = node ∧ record.isDirty = true ∨ Owes (tree.children dir) dir child climb) :
    ((tree.setNode node record).setClimb task climb).Kept := by
  have hsa : ∀ other, (update tree.nodes node record other).parent =
        (tree.nodes other).parent ∧
      (update tree.nodes node record other).isDiscarded =
        (tree.nodes other).isDiscarded :=
    update_related (fun a b : TreeNode => b.parent = a.parent ∧ b.isDiscarded = a.isDiscarded)
      (fun _ => ⟨rfl, rfl⟩) ⟨hp, hg⟩
  have hnew : update tree.climbs task climb task = climb := update_self ..
  refine ⟨⟨?_, ?_, h.nodup, ?_, h.bounded⟩, ?_, ?_⟩
  · intro dir child hmem
    show (update tree.nodes node record child).parent = dir ∧
      (update tree.nodes node record child).isDiscarded = false ∧ _
    rw [(hsa child).1, (hsa child).2]
    exact h.member hmem
  · intro child hro hh
    show child ∈ tree.children (update tree.nodes node record child).parent
    rw [(hsa child).1]
    exact h.hangs hro ((hsa child).2.symm.trans hh)
  · exact (congrArg isValidNodeId (hsa rootNode).1).trans h.root
  · intro other dir halves hc
    by_cases heq : other = task
    · exact hb (hnew.symm.trans (heq ▸ hc))
    · exact h.based ((update_of_ne heq ..).symm.trans hc)
  · intro dir child hnow hmem hro hd
    have hli : tree.Live dir := by
      refine hnow.mono fun dir node _ hin hdir => ?_
      exact .child hdir hin
    show (update tree.nodes node record dir).isDirty = true ∨
      ∃ other, Owes (tree.children dir) dir child (update tree.climbs task climb other)
    have hpa : Owes (tree.children dir) dir child climb → ∃ other,
        Owes (tree.children dir) dir child (update tree.climbs task climb other) :=
      fun ho => ⟨task, hnew.symm ▸ ho⟩
    by_cases hwas : (tree.nodes child).isDirty = true
    · rcases h.owed hli hmem hro hwas with hdir | ⟨other, ho⟩
      · by_cases heq : dir = node
        · subst heq
          rw [update_self]
          exact (hl hdir).imp_right fun hall => hall child hmem hwas
        · exact .inl (by rwa [update_of_ne heq])
      · by_cases heq : other = task
        · subst heq
          rcases hde hli hmem hro hwas ho with ⟨rfl, hre⟩ | ho
          · exact .inl (by rwa [update_self])
          · exact .inr (hpa ho)
        · exact .inr ⟨other, by rwa [update_of_ne heq]⟩
    · -- the write dirtied the child itself, and its half climbs to the directory next
      have heq : child = node := by
        by_contra hne
        exact hwas ((update_of_ne hne record tree.nodes) ▸ hd)
      subst heq
      have hd : record.isDirty = true := by
        rwa [← update_self child record tree.nodes]
      obtain ⟨halves, rfl, hso⟩ := (hr hd).resolve_left hwas
      rw [hp, (h.member hmem).1] at hpa ⊢
      exact .inr (hpa (.mark hso))

theorem Kept.move (h : tree.Kept) {task : τ} {climb}
    (hb : ∀ {dir halves}, climb = .mark dir halves → halves.Based)
    (hde : ∀ {dir child}, child ∈ tree.children dir → dir ≠ rootNode →
      (tree.nodes child).isDirty = true →
      Owes (tree.children dir) dir child (tree.climbs task) →
        Owes (tree.children dir) dir child climb) : (tree.setClimb task climb).Kept := by
  have hw := h.write rootNode (tree.nodes rootNode) task rfl rfl hb .inl .inl
    fun _ hmem hr hd ho => .inr (hde hmem hr hd ho)
  rwa [setNode, update_eq_self] at hw

theorem start_eq_some {task : τ} {climb} (h : tree.start task climb = some t) :
    tree.climbs task = .idle ∧ tree.setClimb task climb = t := by
  rw [start] at h
  split at h
  · next hi => exact ⟨hi, some.inj h⟩
  · cases h

section

variable (h : tree.Kept) {task : τ}
include h

theorem Kept.start (hi : tree.climbs task = .idle) {climb}
    (hb : ∀ {dir halves}, climb = .mark dir halves → halves.Based) :
    (tree.setClimb task climb).Kept := by
  refine h.move hb fun _ _ _ ho => ?_
  rw [hi] at ho
  cases ho

/-- What the clear writes as it cleans a node: the children there are ahead of its walk. -/
theorem Kept.clean {dir} (hcl : tree.climbs task = .clean dir) :
    ((tree.setNode dir (tree.nodes dir).clearDirtyFlags).setClimb task
      (.recheck dir (tree.nodes dir).parent (tree.child dir))).Kept := by
  refine h.write dir _ task rfl rfl nofun (fun hd => ?_) (fun _ => .inr fun child hmem _ => ?_)
    fun _ _ _ _ ho => ?_
  · rw [TreeNode.clearDirtyFlags_isDirty] at hd
    cases hd
  · rw [NodeTree.child]
    cases hc : tree.children dir with
    | nil =>
      rw [hc] at hmem
      cases hmem
    | cons head rest =>
      refine ⟨task, ?_⟩
      rw [update_self]
      refine .recheck fun _ => ?_
      rwa [chainFrom, dropWhile_cons_of_neg (by simp), ← hc]
  · rw [hcl] at ho
    cases ho

/-- The second walk past one child: what it owes is behind the child, or the directory is
marked again. -/
theorem Kept.recheck {dir parent next} (hc : tree.climbs task = .recheck dir parent (some next)) :
    (tree.setClimb task (if tree.passes dir next then .recheck dir parent (tree.sibling dir next)
      else .mark dir (.of ⟨none, some (NodeFlags.dirty, .keep, false)⟩))).Kept := by
  by_cases hp : tree.passes dir next = true
  · rw [if_pos hp]
    refine h.move nofun fun {dir' child} hmem hr hd ho => ?_
    rw [hc] at ho
    obtain _ | ha := ho
    simp only [passes, Bool.and_eq_true, Bool.not_eq_true', beq_iff_eq] at hp
    obtain ⟨⟨hpr, hpa⟩, hcl⟩ := hp
    have hn : next ∈ tree.children dir := by
      rw [← hpa]
      refine h.hangs (fun heq => ?_) hpr
      have hv := h.valid hmem hr
      rw [← hpa, heq, h.root] at hv
      cases hv
    have hne : child ≠ next := fun heq => by
      rw [heq, hcl] at hd
      cases hd
    obtain ⟨after, haf, ha⟩ := chainFrom_next (h.nodup dir) hn (ha hn) hne
    rw [sibling, haf]
    exact .recheck fun _ => ha
  · rw [if_neg hp]
    refine h.move (fun hm => ?_) fun _ _ _ ho => ?_
    · cases hm
      exact Halves.of_based (by simp)
    · rw [hc] at ho
      cases ho
      exact .mark rfl

theorem Kept.markLevel {dir : Nat} {halves : Halves} (hc : tree.climbs task = .mark dir halves) :
    ((tree.setNode dir (halves.apply (tree.nodes dir)).2.1).setClimb task
      (if (halves.apply (tree.nodes dir)).2.2
        then .mark (halves.apply (tree.nodes dir)).2.1.parent (halves.apply (tree.nodes dir)).1
        else .idle)).Kept := by
  obtain ⟨hb, hp, hg, hk, hse, hpa⟩ := Halves.apply_spec (h.based hc) (tree.nodes dir)
  refine h.write dir _ task hp hg (fun hm => ?_) (fun hd => ?_)
    (fun hd => .inl (hk hd)) fun hl _ hr _ ho => .inl ?_
  · split at hm
    · cases hm
      exact hb
    · cases hm
  · refine (hse hd).imp_right fun hw => ⟨_, ?_, hw.2⟩
    rw [if_pos hw.1]
  · rw [hc] at ho
    cases ho with
    | mark hso => exact ⟨rfl, hpa hso (h.present hl hr)⟩

theorem Kept.advance (hst : tree.advance task = some t) : t.Kept := by
  -- a walk or a read that owes nothing owes nothing after it either
  have hf : ∀ {climb}, (∀ {dir halves}, climb ≠ .mark dir halves) →
      (∀ {dir child}, child ∈ tree.children dir → dir ≠ rootNode →
        ¬Owes (tree.children dir) dir child (tree.climbs task)) →
      (tree.setClimb task climb).Kept := fun hm hn =>
    h.move (fun heq => absurd heq hm) fun hmem hr _ ho => absurd ho (hn hmem hr)
  rw [NodeTree.advance] at hst
  split at hst
  · cases hst
  · next dir halves hc =>
      split at hst
      · cases hst
        exact h.markLevel hc
      · next hv =>
          cases hst
          refine hf nofun fun hmem hr ho => hv ?_
          rw [hc] at ho
          cases ho
          exact h.valid hmem hr
  · next hc =>
      cases hst
      exact hf (fun heq => by split at heq <;> cases heq) fun _ _ => by rw [hc]; nofun
  · next hc =>
      cases hst
      exact hf nofun fun _ _ => by rw [hc]; nofun
  · next hc =>
      cases hst
      exact hf (fun heq => by split at heq <;> cases heq) fun _ _ => by rw [hc]; nofun
  · next hc =>
      split at hst
      · cases hst
        exact h.clean hc
      · cases hst
        exact hf nofun fun _ _ => by rw [hc]; nofun
  · next hc =>
      cases hst
      exact hf nofun fun _ _ => by rw [hc]; nofun
  · next hc =>
      cases hst
      exact h.recheck hc

theorem Kept.clear {node clear}
    (hsp : clear = .dirty → ∀ child ∈ tree.children node, (tree.nodes child).isDirty = true →
      ∃ other, (tree.climbs other).marks node = true)
    (hst : tree.clear task node clear = some t) : t.Kept := by
  cases clear with
  | staged =>
    cases hst
    have hbit := (tree.nodes node).clearStagedFlags_isDirty
    have hk := h.write node (tree.nodes node).clearStagedFlags task rfl rfl h.based
      (fun hd => .inl (hbit ▸ hd)) (fun hd => .inl (hbit.trans hd))
      fun _ _ _ _ ho => .inr ho
    rwa [setClimb, setNode, update_eq_self] at hk
  | dirty =>
    obtain ⟨hi, rfl⟩ := start_eq_some hst
    refine h.write node _ task rfl rfl nofun (fun hd => ?_)
      (fun _ => .inr fun child hmem hd => ?_) fun _ _ _ _ ho => ?_
    · rw [TreeNode.clearDirtyFlags_isDirty] at hd
      cases hd
    · obtain ⟨other, hmarks⟩ := hsp rfl child hmem hd
      have hne : other ≠ task := by
        rintro rfl
        rw [show tree.climbs other = .idle from hi] at hmarks
        cases hmarks
      refine ⟨other, ?_⟩
      rw [update_of_ne hne]
      cases hclimb : tree.climbs other with
      | mark dir halves =>
        rw [hclimb, Climb.marks, Bool.and_eq_true, beq_iff_eq] at hmarks
        obtain ⟨rfl, hsome⟩ := hmarks
        exact .mark hsome
      | _ =>
        rw [hclimb] at hmarks
        cases hmarks
    · rw [show tree.climbs task = .idle from hi] at ho
      cases ho
  | vacated =>
    obtain ⟨hi, rfl⟩ := start_eq_some hst
    exact h.start hi nofun

omit [DecidableEq τ] in
theorem Kept.publish {parent : Nat} {record} (hpa : parent < tree.count)
    (hco : tree.count < invalidNode) {halves} (hc : tree.climbs task = .mark parent halves)
    (hm : record.isDirty = true → halves.dirty.isSome = true) :
    (tree.publish parent record).Kept := by
  have hno : (tree.publish parent record).nodes tree.count =
      { record with parent, isDiscarded := false } := update_self ..
  have ho : ∀ {other}, other ≠ tree.count →
      (tree.publish parent record).nodes other = tree.nodes other :=
    fun hne => update_of_ne hne ..
  have hz : rootNode ≠ tree.count := Nat.ne_of_lt (Nat.zero_lt_of_lt hpa)
  have hold : ∀ {dir child}, child ∈ tree.children dir →
      child ≠ tree.count ∧ dir ≠ tree.count := fun hin =>
    ⟨Nat.ne_of_lt (h.member hin).2.2.2.1, Nat.ne_of_lt (h.member hin).2.2.2.2⟩
  have hch : ∀ dir, (tree.publish parent record).children dir =
      if dir = parent then tree.count :: tree.children dir else tree.children dir := by
    intro dir
    split
    · next hdir =>
        rw [hdir]
        exact update_self ..
    · next hdir => exact update_of_ne hdir ..
  have hmem : ∀ {dir child}, child ∈ (tree.publish parent record).children dir ↔
      child = tree.count ∧ dir = parent ∨ child ∈ tree.children dir := by
    intro dir child
    rw [hch]
    split <;> simp [*]
  have hl : ∀ {dir}, (tree.publish parent record).Live dir →
      dir = tree.count ∨ tree.Live dir := by
    intro dir hl
    induction hl with
    | root => exact .inr .root
    | child _ hin ih =>
      rcases hmem.mp hin with hnew | hin
      · exact .inl hnew.1
      · exact .inr (.child (ih.resolve_left (hold hin).2) hin)
  refine ⟨⟨fun {dir child} hin => ?_, fun {other} hne hp => ?_, fun dir => ?_, ?_, hco⟩, h.based,
    fun {dir child} hnow hin hdir hd => ?_⟩
  · rcases hmem.mp hin with ⟨rfl, rfl⟩ | hin
    · rw [hno]
      exact ⟨rfl, rfl, hz.symm, Nat.lt_succ_self _, Nat.lt_succ_of_lt hpa⟩
    · rw [ho (hold hin).1]
      obtain ⟨hdir, hp, hne, hlt, hdirl⟩ := h.member hin
      exact ⟨hdir, hp, hne, Nat.lt_succ_of_lt hlt, Nat.lt_succ_of_lt hdirl⟩
  · by_cases heq : other = tree.count
    · rw [heq, hno]
      exact hmem.mpr (.inl ⟨rfl, rfl⟩)
    · rw [ho heq] at hp ⊢
      exact hmem.mpr (.inr (h.hangs hne hp))
  · rw [hch]
    split
    · exact nodup_cons.mpr ⟨fun hin => (hold hin).1 rfl, h.nodup dir⟩
    · exact h.nodup dir
  · rw [ho hz]
    exact h.root
  · rcases hmem.mp hin with ⟨rfl, rfl⟩ | hin
    · rw [hno] at hd
      refine .inr ⟨task, ?_⟩
      show Owes _ _ _ (tree.climbs task)
      rw [hc]
      exact .mark (hm hd)
    · rw [ho (hold hin).1] at hd
      rw [ho (hold hin).2, hch]
      have hdi := (hl hnow).resolve_left (hold hin).2
      refine (h.owed hdi hin hdir hd).imp_right fun ⟨other, how⟩ =>
        ⟨other, how.rechain fun next hn ha => ?_⟩
      split at hn
      · -- the chain grew at its head: a walk that stands in it keeps what is ahead
        next hdir =>
          rw [if_pos hdir, chainFrom, dropWhile_cons]
          split
          · next hsk =>
              exact ha ((mem_cons.mp hn).resolve_left (bne_iff_ne.mp hsk).symm)
          · exact mem_cons_of_mem _ hin
      · next hdir =>
          rw [if_neg hdir]
          exact ha hn

end

theorem Kept.step (h : tree.Kept) {action} (hsp : tree.Spares action)
    (hst : tree.step action = some t) : t.Kept := by
  cases action with
  | mark task node mark =>
    obtain ⟨hi, rfl⟩ := start_eq_some hst
    refine h.start hi fun heq => ?_
    cases heq
    exact Halves.of_based hsp
  | clear task node clear =>
    rw [NodeTree.step] at hst
    split at hst
    · next hv =>
        refine h.clear (fun heq => ?_) hst
        subst heq
        exact hsp hv
    · cases hst
      exact h
  | advance task => exact h.advance hst
  | detach node =>
    obtain ⟨_, hst⟩ := ite_none_right_eq_some.mp hst
    next hg =>
      cases hst
      refine h.detach fun heq => ?_
      rw [heq] at hg
      exact absurd hg.1 (by decide)
  | add task parent record mark =>
    obtain ⟨_, hst⟩ := ite_none_right_eq_some.mp hst
    next hg =>
      obtain ⟨hi, rfl⟩ := start_eq_some hst
      have hk : (tree.setClimb task (.mark parent (.of mark.forAncestors))).Kept := by
        refine h.start hi fun heq => ?_
        cases heq
        refine Halves.of_based fun half hh => ?_
        obtain ⟨_, _, rfl⟩ := map_eq_some_iff.mp hh
        decide
      refine hk.publish hg.1 hg.2.1 (update_self ..) fun hd => ?_
      simpa [Halves.of, Mark.forAncestors] using hg.2.2.2 hd

/-- From a tree at rest whose marks are closed, through any interleaving of marks, clears,
detaches and adds whose targets are spared, the marks are closed whenever nothing is in
progress. -/
theorem marks_stay_closed {tree t : NodeTree τ} {actions : List (TreeAction τ)}
    (hchained : tree.Chained) (hrest : tree.AtRest) (hclosed : tree.Closed)
    (hspares : StepsMeet NodeTree.step Spares tree actions)
    (hrun : run NodeTree.step tree actions = some t) (hdone : t.AtRest) : t.Closed := by
  have hst : tree.Kept := by
    refine ⟨hchained, fun {task _ _} hc => ?_, fun hl hin hdir hd => .inl ?_⟩
    · rw [hrest task] at hc
      cases hc
    · exact hclosed _ (.child hl hin) hd _ (.parent hin) hdir
  exact (run_invariant_of_stepsMeet NodeTree.step
    (fun _ _ _ hk hg hste => hk.step hg hste) hst hspares hrun).closed hdone

instance [Fintype τ] : DecidablePred tree.Spares
  | .mark .. | .clear _ _ .dirty => by unfold Spares; infer_instance
  | .clear _ _ .staged | .clear _ _ .vacated | .advance _ | .detach _ | .add .. =>
    instDecidableTrue

/-- A directory with a directory below it, both dirty. -/
def nested : NodeTree Bool where
  nodes node := ⟨NodeFlags.dirty, 0, if node = 2 then 1 else if node = 1 then 0 else invalidNode,
    true, decide (2 < node)⟩
  children node := if node = 0 then [1] else if node = 1 then [2] else []
  count := 3
  climbs _ := .idle

theorem nested_chained : nested.Chained where
  member {dir node} hmem := by
    simp only [nested] at hmem ⊢
    split at hmem
    · simp_all [rootNode]
    · split at hmem
      · simp_all [rootNode]
      · cases hmem
  hangs {node} hr hp := by
    have hle : node ≤ 2 := by simpa [nested] using hp
    have hpos : node ≠ 0 := hr
    obtain rfl | rfl : node = 1 ∨ node = 2 := by omega
    · decide
    · decide
  nodup dir := by
    simp only [nested]
    split
    · simp
    · split <;> simp
  root := rfl
  bounded := by decide

theorem nested_closed : nested.Closed := by
  intro _ _ _ above _ _
  exact (by decide : (NodeFlags.dirty &&& NodeFlags.dirty == NodeFlags.dirty) = true)

/-- A clear of the upper directory while the mark of the lower one has come to it, and a mark of
the lower one between the two walks of its clear. -/
def marksBeside : List (TreeAction Bool) :=
  let mark := fun force => .mark true 2 ⟨none, some (NodeFlags.dirty, .keep, force)⟩
  [mark true, .advance true, .clear false 1 .dirty, .advance false, .advance true, .advance true,
    .clear false 2 .dirty, .advance false, .advance false, mark false, .advance true,
    .advance false, .advance false, .advance true, .advance false, .advance true, .advance false]

theorem marks_stay_closed_beside :
    ∃ t, run NodeTree.step nested marksBeside = some t ∧ (t.nodes 2).isDirty = true ∧
      t.Closed := by
  have hsp : StepsMeet NodeTree.step Spares nested marksBeside := by decide
  refine ⟨_, rfl, rfl, marks_stay_closed nested_chained (fun _ => rfl) nested_closed hsp rfl ?_⟩
  intro task
  cases task <;> rfl

/-- A dirty clear takes its target's bit whatever hangs below it, and so does a mark whose dirty
half lacks the base bit. -/
theorem target_cleaned_over_dirty_child :
    nested.Chained ∧ nested.AtRest ∧ nested.Closed ∧
      (∃ t, run NodeTree.step nested [.clear false 1 .dirty, .advance false] = some t ∧
        t.AtRest ∧ ¬t.Closed) ∧
      ∃ t, run NodeTree.step nested
          [.mark false 1 ⟨none, some (0, .keep, true)⟩, .advance false, .advance false] = some t ∧
        t.AtRest ∧ ¬t.Closed := by
  have ho : ∀ t : NodeTree Bool, t.children = nested.children →
      (t.nodes 2).isDirty = true → (t.nodes 1).isDirty = false → ¬t.Closed := by
    intro t hc hb ha hcl
    have hone : 1 ∈ t.children 0 := hc ▸ mem_singleton_self 1
    have htwo : 2 ∈ t.children 1 := hc ▸ mem_singleton_self 2
    have := hcl 2 (.child (.child .root hone) htwo) hb 1 (.parent htwo) (by decide)
    rw [ha] at this
    cases this
  exact ⟨nested_chained, fun _ => rfl, nested_closed,
    ⟨_, rfl, Bool.rec rfl rfl, ho _ rfl rfl rfl⟩, ⟨_, rfl, Bool.rec rfl rfl, ho _ rfl rfl rfl⟩⟩

end NodeTree

end Lore.State
