import Mathlib.Data.List.Pairwise
import Mathlib.Tactic.Abel
import Lore.Commit.Digest

/-!
# RehashSpec — the rehash hashes as from scratch

Where nothing of the tree is refused and every directory that is not staged is hashed, the
rehash answers, in whatever order its tasks finish, and leaves the tree hashed from scratch
with the staged bits of what it hashed cleared.
-/

namespace Lore.Commit

open Lore.Storage Lore.Lib List

/-! ## The staged bits -/

mutual

/-- A tree without its staged bits. -/
def Tree.unstaged : Tree → Tree
  | .file node => .file node.clearStagedAndActionBits
  | .link node source => .link node.clearStagedAndActionBits source
  | .directory node children =>
      .directory node.clearStagedAndActionBits (unstagedAll children)

def unstagedAll : List Tree → List Tree
  | [] => []
  | child :: rest => child.unstaged :: unstagedAll rest

end

theorem unstagedAll_eq_map (children : List Tree) :
    unstagedAll children = children.map Tree.unstaged := by
  induction children with
  | nil => rfl
  | cons child rest ih => rw [unstagedAll, map_cons, ih]

@[simp] theorem ChildHashData.of_unstaged (tree : Tree) :
    ChildHashData.of tree.unstaged = .of tree := by
  cases tree <;> rfl

@[simp] theorem Node.clearStagedAndActionBits_twice (node : Node) :
    node.clearStagedAndActionBits.clearStagedAndActionBits = node.clearStagedAndActionBits := by
  simp [Node.clearStagedAndActionBits, BitVec.and_assoc]

theorem ChildHashData.of_eq_of_unstaged {a b} (h : a.unstaged = b.unstaged) :
    ChildHashData.of a = .of b := by
  rw [← ChildHashData.of_unstaged a, h, ChildHashData.of_unstaged]

/-! ## What is refused -/

/-- The bytes of the names of a directory's children. -/
def namesLength (children : List Tree) : Nat := (children.map (·.node.name.length)).sum

/-- Nothing about the child itself is refused: as the commit leaves the nodes it committed. -/
def Committed (child : Tree) : Prop := refusal 0 child = none

theorem Committed.refusal_eq_none {child} (h : Committed child) {names}
    (hn : names < UInt32.size) : refusal names child = none := by
  have h : refusal 0 child = none := h
  unfold refusal at h ⊢
  rw [if_neg (not_not.mpr hn)]
  exact h

/-! ## The tasks -/

/-- Two tasks may be joined in either order. -/
def Commute (a b : ChildRehash) : Prop :=
  ∀ joined : Joined, (joined.task a).task b = (joined.task b).task a

instance : Std.Symm Commute := ⟨fun _ _ h joined => (h joined).symm⟩

theorem Commute.of_ne {i j} (hij : i ≠ j) (a b : NodeHashData) :
    Commute (.ok (i, a)) (.ok (j, b)) := by
  intro joined
  simp only [Joined.task, Joined.mk.injEq, and_true]
  constructor
  · apply ext_getElem?
    intro k
    by_cases hi : i = k <;> by_cases hj : j = k <;> simp_all
  · abel

/-- Tasks that succeeded, each of a child of its own from `index` on. -/
inductive Succeeded : Nat → List ChildRehash → Prop where
  | nil (index : Nat) : Succeeded index []
  | skip {index : Nat} {tasks : List ChildRehash} (rest : Succeeded (index + 1) tasks) :
      Succeeded index tasks
  | task {index : Nat} {tasks : List ChildRehash} (data : NodeHashData)
      (rest : Succeeded (index + 1) tasks) : Succeeded index (.ok (index, data) :: tasks)

variable {tasks : List ChildRehash}

theorem Succeeded.at_least {index} (h : Succeeded index tasks) :
    ∀ task ∈ tasks, ∃ i data, task = .ok (i, data) ∧ index ≤ i := by
  induction h with
  | nil index => exact fun _ hmem => nomatch hmem
  | skip rest ih =>
    intro task hmem
    obtain ⟨i, data, heq, hle⟩ := ih task hmem
    exact ⟨i, data, heq, by omega⟩
  | task data rest ih =>
    intro task hmem
    rcases mem_cons.mp hmem with rfl | hmem
    · exact ⟨_, data, rfl, Nat.le_refl _⟩
    · obtain ⟨i, data, heq, hle⟩ := ih task hmem
      exact ⟨i, data, heq, by omega⟩

theorem Succeeded.pairwise {index} (h : Succeeded index tasks) : tasks.Pairwise Commute := by
  induction h with
  | nil index => exact .nil
  | skip rest ih => exact ih
  | task data rest ih =>
    refine .cons ?_ ih
    intro other hmem
    obtain ⟨j, other, rfl, hle⟩ := rest.at_least other hmem
    exact .of_ne (by omega) data other

theorem Succeeded.foldl_eq {index : Nat} {finished : List ChildRehash} (h : Succeeded index tasks)
    (hp : finished.Perm tasks) (joined : Joined) :
    finished.foldl Joined.task joined = tasks.foldl Joined.task joined := by
  have hc : ∀ a ∈ tasks, ∀ b ∈ tasks, Commute a b :=
    fun _ ha _ hb => h.pairwise.forall_of_forall (fun _ _ _ => rfl) ha hb
  exact (hp.symm.foldl_eq' hc joined).symm

/-! ## The walk -/

section

variable (keyedHash : Bytes → Hash) (schedule : Schedule)

/-- The rehash of a node answers and leaves it as hashed from scratch, but for the staged
bits. -/
def HashedAsFromScratch (tree : Tree) : Prop :=
  (rehashDirectory keyedHash schedule tree).2 = .ok () ∧
    (rehashDirectory keyedHash schedule tree).1.unstaged = (recompute keyedHash tree).unstaged

variable {keyedHash schedule}

theorem modify_append_cons {α : Type} (pre : List α) (a : α) (post : List α) (f : α → α) :
    (pre ++ a :: post).modify pre.length f = pre ++ f a :: post := by
  induction pre with
  | nil => rfl
  | cons b pre ih => simpa using ih

variable {children : List Tree}

/-- The walk of a directory whose children are hashed as from scratch: no child is refused,
every task succeeds, and the joined tasks give what the children contribute from scratch.
`pre` are the children before the walk's, `size` the sizes summed before. -/
theorem walkChildren_spec {walk} (index names : Nat) (hc : ∀ child ∈ children, Committed child)
    (hn : names + namesLength children < UInt32.size)
    (hb : ∀ child ∈ children, HashedAsFromScratch keyedHash schedule child)
    (hw : walkChildren keyedHash schedule index names children = walk) :
    walk.failure = none ∧
    unstagedAll walk.children =
      unstagedAll (recomputeAll keyedHash children) ∧
    Succeeded index walk.tasks ∧
    ∀ (pre : List ChildHashData) (size : UInt64), pre.length = index →
      walk.tasks.foldl Joined.task
          ⟨pre ++ walk.data,
            size + walk.size, none⟩ =
        ⟨pre ++ (recomputeAll keyedHash children).map .of,
          size + totalSize (recomputeAll keyedHash children), none⟩ := by
  subst hw
  induction children generalizing index names with
  | nil => exact ⟨rfl, rfl, .nil index, fun pre size _ => rfl⟩
  | cons child rest ih =>
    have hl : namesLength (child :: rest)
        = child.node.name.length + namesLength rest := by
      simp [namesLength]
    have hr : refusal (names + child.node.name.length) child = none :=
      (hc child mem_cons_self).refusal_eq_none (by omega)
    obtain ⟨hf, hch, ht, hfo⟩ := ih (index + 1) (names + child.node.name.length)
      (fun other hmem => hc other (mem_cons_of_mem _ hmem)) (by omega)
      (fun other hmem => hb other (mem_cons_of_mem _ hmem))
    obtain ⟨han, ha⟩ := hb child mem_cons_self
    have hto : ∀ tree trees, totalSize (tree :: trees) = tree.node.size + totalSize trees :=
      fun _ _ => rfl
    cases child with
    | directory node below =>
      -- The task of a subdirectory: its result patches the record read before.
      have hof := ChildHashData.of_eq_of_unstaged ha
      have hd : NodeHashData.fromNode (rehashDirectory keyedHash schedule (.directory node below)).1
          = .fromNode (recompute keyedHash (.directory node below)) :=
        congrArg ChildHashData.data hof
      simp only [walkChildren, hr, han, Except.map, recomputeAll, unstagedAll]
      refine ⟨hf, by rw [ha, hch], .task _ ht, ?_⟩
      intro pre size hpre
      have hp : ({ ChildHashData.of (.directory node below) with
          data := .fromNode (recompute keyedHash (.directory node below)) } : ChildHashData)
          = .of (recompute keyedHash (.directory node below)) := rfl
      rw [foldl_cons, Joined.task, hd]
      rw [← hpre, modify_append_cons, hto]
      have hre := hfo (pre ++ [ChildHashData.of (recompute keyedHash (.directory node below))])
        (size + (recompute keyedHash (.directory node below)).node.size) (by simp [hpre])
      rw [append_assoc, append_assoc] at hre
      rw [← hpre] at hre
      refine Eq.trans ?_ (hre.trans ?_)
      · congr 2
        show _ + _ + (recompute keyedHash (.directory node below)).node.size = _
        abel
      · congr 1
        abel
    | file | link =>
      simp only [walkChildren, hr, recomputeAll, unstagedAll, recompute]
      refine ⟨hf, by rw [hch], .skip ht, fun pre size hpre => ?_⟩
      rw [map_cons, hto, ← UInt64.add_assoc, ← UInt64.add_assoc, append_cons pre,
        append_cons pre _ (map ..)]
      refine hfo _ _ ?_
      simp [hpre]

theorem walkChildren_join (id : NodeID) (hc : ∀ child ∈ children, Committed child)
    (hn : namesLength children < UInt32.size)
    (hb : ∀ child ∈ children, HashedAsFromScratch keyedHash schedule child) :
    unstagedAll (walkChildren keyedHash schedule 0 0 children).children =
        unstagedAll (recomputeAll keyedHash children) ∧
      (walkChildren keyedHash schedule 0 0 children).join
          (schedule.order id (walkChildren keyedHash schedule 0 0 children).tasks) =
        ⟨(recomputeAll keyedHash children).map .of,
          totalSize (recomputeAll keyedHash children), none⟩ := by
  obtain ⟨hf, hch, ht, hfo⟩ := walkChildren_spec 0 0 hc (by omega) hb rfl
  refine ⟨hch, ?_⟩
  rw [Walk.join, ht.foldl_eq (schedule.perm ..), hf]
  simpa using hfo [] 0 rfl

/-! ## The tree -/

/-- No two children of a directory share a name hash, and its names fit the walk. -/
inductive WellFormed : List Tree → Prop where
  | intro {children : List Tree} (distinct : (children.map (·.node.nameHash)).Nodup)
      (fit : namesLength children < UInt32.size)
      (below : ∀ child ∈ children, WellFormed child.children) : WellFormed children

theorem WellFormed.distinct (h : WellFormed children) : (children.map (·.node.nameHash)).Nodup := by
  cases h with
  | intro distinct _ _ => exact distinct

theorem WellFormed.fit (h : WellFormed children) : namesLength children < UInt32.size := by
  cases h with
  | intro _ fit _ => exact fit

theorem WellFormed.child (h : WellFormed children) {child} (hc : child ∈ children) :
    WellFormed child.children := by
  cases h with
  | intro _ _ below => exact below child hc

theorem WellFormed.of_mem_nodes {tree below : Tree} (h : WellFormed tree.children)
    (hb : below ∈ tree.nodes) : WellFormed below.children :=
  Tree.forall_nodes (P := fun tree => WellFormed tree.children) (fun _ _ hp hc => hp.child hc) h hb

variable (keyedHash) in
/-- Every directory that is not staged is hashed, with all below it. -/
def Settled (trees : List Tree) : Prop :=
  ∀ node below, .directory node below ∈ trees → node.isStaged = false →
    Hashed keyedHash (.directory node below)

/-- The rehash of a node hashes it as from scratch: by induction over the tree, an unstaged
directory by its hash, a staged one by the walk of its children. -/
theorem rehashDirectory_spec {tree} (hw : WellFormed tree.children)
    (hco : ∀ below ∈ tree.nodes, Committed below) (hse : Settled keyedHash tree.nodes) :
    HashedAsFromScratch keyedHash schedule tree := by
  induction tree using Tree.induction with
  | file node | link node source => exact ⟨rfl, rfl⟩
  | directory node children ih =>
    unfold HashedAsFromScratch
    cases hst : node.isStaged with
    | false =>
      have hh := hse node children (Tree.self_mem_nodes _) hst
      rw [hh.recompute_eq, rehashDirectory]
      simp [hst]
    | true =>
      have hmem : ∀ child ∈ children, ∀ below ∈ child.nodes,
          below ∈ (Tree.directory node children).nodes :=
        fun _ hc _ hb => Tree.mem_nodes_of_child hc hb
      obtain ⟨hch, hj⟩ := walkChildren_join node.id
        (fun child hc => hco child (hmem child hc child child.self_mem_nodes))
        hw.fit
        (fun child hc => ih child hc (hw.child hc)
          (fun below hb => hco below (hmem child hc below hb))
          (fun node below hb => hse node below (hmem child hc _ hb)))
      simp [rehashDirectory, hst, hj, recompute, Tree.unstaged, Node.rehashed, hch, digest]

/-- A revision's tree without its staged bits. -/
def Root.unstaged (root : Root) : Root :=
  ⟨root.node.clearStagedAndActionBits, unstagedAll root.children⟩

theorem rehashRoot_spec {root} (hw : WellFormed root.children)
    (hco : ∀ below ∈ nodesBelow root.children, Committed below)
    (hse : Settled keyedHash (nodesBelow root.children)) :
    (rehashRoot keyedHash schedule root).2 = .ok () ∧
      (rehashRoot keyedHash schedule root).1.unstaged =
        (recomputeRoot keyedHash root).unstaged := by
  have hmem : ∀ child ∈ root.children, ∀ below ∈ child.nodes, below ∈ nodesBelow root.children :=
    fun child hc below hb => mem_nodesBelow.mpr ⟨child, hc, hb⟩
  have hb : ∀ child ∈ root.children, HashedAsFromScratch keyedHash schedule child :=
    fun child hc => rehashDirectory_spec (hw.child hc)
      (fun below hb => hco below (hmem child hc below hb))
      (fun node below hb => hse node below (hmem child hc _ hb))
  obtain ⟨hch, hj⟩ := walkChildren_join root.node.id
    (fun child hc => hco child (mem_nodesBelow_of_mem hc)) hw.fit hb
  simp [rehashRoot, hj, recomputeRoot, Root.unstaged, Node.rehashed, hch, digest]

end

end Lore.Commit
