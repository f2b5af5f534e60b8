import Mathlib.Algebra.Order.BigOperators.Group.List
import Mathlib.Algebra.Order.Group.Nat
import Lore.Commit.Edited

/-!
# Faithful — a root address tells the tree

What each path of a tree holds determines the address of its root, in whatever order the
chains run, whatever ids the nodes have and in whatever order the tasks finish. The other
way round the address tells what each path holds, as far as it is hashed: a file and a link
that mounts the root of its revision contribute the same record, and the address does not
tell one from the other.
-/

namespace Lore.Commit

open Lore.Storage Lore.Lib List ChildHashData

/-! ## What a path holds -/

/-- The name hashes of the nodes down to one. -/
abbrev Path := List UInt64

/-- What a path holds. -/
structure Entry where
  name : Bytes
  kind : Kind
  mode : UInt16
  size : UInt64
  address : Address
  mountSource : Option NodeID
deriving DecidableEq, Repr

def Tree.entry (tree : Tree) : Entry :=
  ⟨tree.node.name, tree.kind, tree.node.mode, tree.node.size, tree.node.address, tree.mountSource⟩

/-- What a path holds of its own: the hash and the size of a directory are made from what is
below it. -/
def Tree.ownEntry : Tree → Entry
  | .directory node _ => ⟨node.name, .directory, node.mode, 0, ⟨0, node.address.context⟩, none⟩
  | tree => tree.entry

/-- The child of a name hash. -/
def findChild (children : List Tree) (hash : UInt64) : Option Tree :=
  children.find? (·.node.nameHash = hash)

/-- The node at a path below `children`. -/
def nodeAt (children : List Tree) : Path → Option Tree
  | [] => none
  | hash :: rest =>
      match findChild children hash with
      | none => none
      | some child =>
          match rest with
          | [] => some child
          | _ :: _ => nodeAt child.children rest

theorem nodeAt_cons (children : List Tree) (hash : UInt64) (rest : Path) :
    nodeAt children (hash :: rest) = (findChild children hash).bind fun child =>
      if rest = [] then some child else nodeAt child.children rest := by
  rw [nodeAt]
  cases findChild children hash with
  | none => rfl
  | some child => cases rest <;> rfl

theorem WellFormed.findChild_eq_some {children} (h : WellFormed children) {hash child} :
    findChild children hash = some child ↔ child ∈ children ∧ child.node.nameHash = hash :=
  find?_key_eq_some h.distinct hash child

theorem findChild_eq_none {children hash} :
    findChild children hash = none ↔ ∀ child ∈ children, child.node.nameHash ≠ hash :=
  find?_key_eq_none hash

variable (keyedHash : Bytes → Hash)

/-! ## From the paths to the address -/

/-- Every path holds the same of its own. -/
def SamePaths (xs ys : List Tree) : Prop :=
  ∀ path, (nodeAt xs path).map Tree.ownEntry = (nodeAt ys path).map Tree.ownEntry

variable {keyedHash}

theorem SamePaths.symm {xs ys} (h : SamePaths xs ys) : SamePaths ys xs := fun path => (h path).symm

theorem SamePaths.child {xs ys} (h : SamePaths xs ys) (hxs : WellFormed xs) (hys : WellFormed ys)
    {x} (hx : x ∈ xs) :
    ∃ y ∈ ys, y.node.nameHash = x.node.nameHash ∧ x.ownEntry = y.ownEntry ∧
      SamePaths x.children y.children := by
  have hfX : findChild xs x.node.nameHash = some x := hxs.findChild_eq_some.mpr ⟨hx, rfl⟩
  have htop := h [x.node.nameHash]
  rw [nodeAt_cons, nodeAt_cons, hfX] at htop
  cases hfY : findChild ys x.node.nameHash with
  | none =>
    rw [hfY] at htop
    cases htop
  | some y =>
    obtain ⟨hy, hn⟩ := hys.findChild_eq_some.mp hfY
    rw [hfY] at htop
    refine ⟨y, hy, hn, Option.some.inj htop, fun path => ?_⟩
    cases path with
    | nil => rfl
    | cons hash rest =>
      have hp := h (x.node.nameHash :: hash :: rest)
      rw [nodeAt_cons, nodeAt_cons, hfX, hfY] at hp
      simpa using hp

@[simp] theorem nameHash_recompute (tree : Tree) :
    (recompute keyedHash tree).node.nameHash = tree.node.nameHash := by
  cases tree <;> rfl

theorem WellFormed.distinct_recomputeAll {children} (h : WellFormed children) :
    ((recomputeAll keyedHash children).map (·.node.nameHash)).Nodup := by
  rw [recomputeAll_eq_map, map_map]
  refine (congrArg List.Nodup (map_congr_left fun child _ => ?_)).mp h.distinct
  exact (nameHash_recompute child).symm

theorem nodup_map_of {children : List Tree} (h : (children.map (·.node.nameHash)).Nodup) :
    (children.map ChildHashData.of).Nodup := by
  refine List.Nodup.of_map (·.data.nameHash) ?_
  rw [map_map]
  exact h

theorem of_recompute_eq {x y} (hn : x.node.nameHash = y.node.nameHash)
    (hown : x.ownEntry = y.ownEntry) (hw : WellFormed y.children)
    (hp : ((recomputeAll keyedHash x.children).map ChildHashData.of).Perm
      ((recomputeAll keyedHash y.children).map .of)) :
    ChildHashData.of (recompute keyedHash x) = .of (recompute keyedHash y) := by
  have hk : x.ownEntry.kind = y.ownEntry.kind := congrArg Entry.kind hown
  cases x with
  | directory node children =>
    cases y <;> cases hk
    obtain ⟨hd, hsi⟩ := @digest_eq_of_perm keyedHash _ _ hp hw.distinct_recomputeAll
    simp only [Tree.ownEntry, Entry.mk.injEq, Address.mk.injEq] at hown
    simp only [Tree.node, Tree.children] at hn hd hsi
    simp [recompute, of, NodeHashData.fromNode, Tree.node, Tree.mountSource,
      Node.setHashAndSize, hd, hsi, hown, hn]
  | file node | link node source =>
    cases y <;> cases hk
    simp only [Tree.ownEntry, Tree.entry, Tree.node, Tree.mountSource, Entry.mk.injEq] at hown
    simp only [Tree.node] at hn
    simp only [recompute, of, NodeHashData.fromNode, Tree.node, Tree.mountSource, hown, hn]

/-- One level: each child has a child of its name hash on the other side, which contributes
the same. -/
theorem SamePaths.map_of_perm_step {xs ys : List Tree} (h : SamePaths xs ys) (hxs : WellFormed xs)
    (hys : WellFormed ys) (hb : ∀ x ∈ xs, ∀ y ∈ ys, SamePaths x.children y.children →
      ((recomputeAll keyedHash x.children).map ChildHashData.of).Perm
        ((recomputeAll keyedHash y.children).map .of)) :
    ((recomputeAll keyedHash xs).map ChildHashData.of).Perm
      ((recomputeAll keyedHash ys).map .of) := by
  refine (perm_ext_iff_of_nodup (nodup_map_of hxs.distinct_recomputeAll)
    (nodup_map_of hys.distinct_recomputeAll)).mpr fun contribution => ?_
  simp only [recomputeAll_eq_map, map_map, mem_map]
  constructor
  · rintro ⟨x, hx, rfl⟩
    obtain ⟨y, hy, hn, hown, hsa⟩ := h.child hxs hys hx
    exact ⟨y, hy, (of_recompute_eq hn.symm hown (hys.child hy) (hb x hx y hy hsa)).symm⟩
  · rintro ⟨y, hy, rfl⟩
    obtain ⟨x, hx, hn, hown, hsa⟩ := h.symm.child hys hxs hy
    exact ⟨x, hx, of_recompute_eq hn hown.symm (hys.child hy) (hb x hx y hy hsa.symm)⟩

/-- Directories below which every path holds the same have children that contribute alike
from scratch. The induction is over the tree of one side. -/
theorem SamePaths.map_of_perm {tree : Tree} {ys} (h : SamePaths tree.children ys)
    (hxs : WellFormed tree.children) (hys : WellFormed ys) :
    ((recomputeAll keyedHash tree.children).map ChildHashData.of).Perm
      ((recomputeAll keyedHash ys).map .of) := by
  induction tree using Tree.induction generalizing ys with
  | file node | link node source => exact h.map_of_perm_step hxs hys fun _ hx => nomatch hx
  | directory node children ih =>
    exact h.map_of_perm_step hxs hys fun x hx y hy hsa =>
      ih x hx hsa (hxs.child hx) (hys.child hy)

theorem SamePaths.digest_eq {xs ys} (h : SamePaths xs ys) (hxs : WellFormed xs)
    (hys : WellFormed ys) :
    digest keyedHash (recomputeAll keyedHash xs) = digest keyedHash (recomputeAll keyedHash ys) ∧
      totalSize (recomputeAll keyedHash xs) = totalSize (recomputeAll keyedHash ys) := by
  have hp : ((recomputeAll keyedHash xs).map of).Perm ((recomputeAll keyedHash ys).map .of) :=
    h.map_of_perm_step hxs hys fun x hx y hy hsa =>
      hsa.map_of_perm (hxs.child hx) (hys.child hy)
  exact digest_eq_of_perm hp hys.distinct_recomputeAll

theorem SamePaths.descend {xs ys path x} (h : SamePaths xs ys) (hxs : WellFormed xs)
    (hys : WellFormed ys) (hx : nodeAt xs path = some x) :
    ∃ y, nodeAt ys path = some y ∧ x.ownEntry = y.ownEntry ∧ SamePaths x.children y.children ∧
      WellFormed x.children ∧ WellFormed y.children := by
  induction path generalizing xs ys with
  | nil => cases hx
  | cons hash rest ih =>
    rw [nodeAt_cons] at hx
    obtain ⟨child, hf, hchild⟩ := Option.bind_eq_some_iff.mp hx
    obtain ⟨hmem, rfl⟩ := hxs.findChild_eq_some.mp hf
    obtain ⟨other, ho, hn, hown, hsa⟩ := h.child hxs hys hmem
    rw [nodeAt_cons, hys.findChild_eq_some.mpr ⟨ho, hn⟩, Option.bind_some]
    split at hchild
    case isTrue hr =>
      cases hchild
      exact ⟨other, if_pos hr, hown, hsa, hxs.child hmem, hys.child ho⟩
    case isFalse hr =>
      rw [if_neg hr]
      exact ih hsa (hxs.child hmem) (hys.child ho) hchild

/-- Nodes that hold the same of their own, and below which the same is hashed, hold the same once
they are hashed. -/
theorem entry_recompute_eq {x y} (hown : x.ownEntry = y.ownEntry)
    (hd : digest keyedHash (recomputeAll keyedHash x.children)
        = digest keyedHash (recomputeAll keyedHash y.children) ∧
      totalSize (recomputeAll keyedHash x.children)
        = totalSize (recomputeAll keyedHash y.children)) :
    (recompute keyedHash x).entry = (recompute keyedHash y).entry := by
  have hk : x.ownEntry.kind = y.ownEntry.kind := congrArg Entry.kind hown
  cases x with
  | directory node children =>
    cases y <;> cases hk
    simp only [Tree.ownEntry, Entry.mk.injEq, Address.mk.injEq] at hown
    simp only [Tree.children] at hd
    simp [recompute, Tree.entry, Tree.node, Tree.kind, Tree.mountSource, Node.setHashAndSize,
      hown, hd]
  | file node | link node source =>
    cases y <;> cases hk
    exact hown

theorem SamePaths.of_findChild {xs ys}
    (h : ∀ hash, Option.Rel (fun x y : Tree =>
      x.ownEntry = y.ownEntry ∧ SamePaths x.children y.children)
      (findChild xs hash) (findChild ys hash)) : SamePaths xs ys := by
  intro path
  cases path with
  | nil => rfl
  | cons hash rest =>
    rw [nodeAt_cons, nodeAt_cons]
    have hrel := h hash
    generalize findChild xs hash = x at hrel ⊢
    generalize findChild ys hash = y at hrel ⊢
    cases hrel with
    | none => rfl
    | some hxy =>
      simp only [Option.bind_some]
      split
      · exact congrArg some hxy.1
      · exact hxy.2 rest

/-! ## From the address to the paths -/

/-- The lists of children of a tree: that of its root and that of every node below. -/
def chains (children : List Tree) : List (List Tree) :=
  children :: (nodesBelow children).map Tree.children

variable (keyedHash) in
/-- The keyed hash is injective on what the two trees are hashed from, and no file or link
of either holds one of these hashes. -/
structure Ideal (xs ys : List Tree) : Prop where
  injective : ∀ a ∈ chains xs, ∀ b ∈ chains ys, digest keyedHash a = digest keyedHash b →
    hashInput (a.map .of) = hashInput (b.map .of)
  left : ∀ leaf ∈ nodesBelow xs, leaf.kind ≠ .directory →
    ∀ b ∈ chains ys, leaf.node.address.hash ≠ digest keyedHash b
  right : ∀ leaf ∈ nodesBelow ys, leaf.kind ≠ .directory →
    ∀ a ∈ chains xs, leaf.node.address.hash ≠ digest keyedHash a

variable {xs : List Tree} {x : Tree} {ys children trees : List Tree}

theorem nodesBelow_children_subset (hx : x ∈ xs) :
    ∀ below ∈ nodesBelow x.children, below ∈ nodesBelow xs := by
  intro below hb
  obtain ⟨child, hc, hn⟩ := mem_nodesBelow.mp hb
  exact mem_nodesBelow.mpr ⟨x, hx, Tree.mem_nodes_of_child hc hn⟩

theorem chains_children_subset (hx : x ∈ xs) : ∀ chain ∈ chains x.children, chain ∈ chains xs := by
  intro chain hc
  rcases mem_cons.mp hc with rfl | hc
  · exact mem_cons_of_mem _ (mem_map_of_mem (mem_nodesBelow_of_mem hx))
  · obtain ⟨below, hb, rfl⟩ := mem_map.mp hc
    exact mem_cons_of_mem _ (mem_map_of_mem (nodesBelow_children_subset hx _ hb))

theorem Ideal.child (h : Ideal keyedHash xs ys) {y} (hx : x ∈ xs) (hy : y ∈ ys) :
    Ideal keyedHash x.children y.children where
  injective a ha b hb := h.injective a (chains_children_subset hx a ha) b
    (chains_children_subset hy b hb)
  left leaf hl hk b hb := h.left leaf (nodesBelow_children_subset hx leaf hl) hk b
    (chains_children_subset hy b hb)
  right leaf hl hk a ha := h.right leaf (nodesBelow_children_subset hy leaf hl) hk a
    (chains_children_subset hx a ha)

/-- Entries that agree as far as they are hashed: on all but, possibly, that one is a file
and the other a link that mounts the root of the revision it pins. -/
structure Alike (a b : Entry) : Prop where
  name : a.name = b.name
  mode : a.mode = b.mode
  size : a.size = b.size
  address : a.address = b.address
  kind : (a.kind = b.kind ∧ a.mountSource = b.mountSource) ∨
    (a.kind = .file ∧ b.kind = .link ∧ b.mountSource = some rootNode) ∨
    (a.kind = .link ∧ b.kind = .file ∧ a.mountSource = some rootNode)

theorem Alike.of_contribution {y} (h : ChildHashData.of x = .of y)
    (hk : x.kind = .directory ↔ y.kind = .directory) : Alike x.entry y.entry := by
  simp only [of, NodeHashData.fromNode, mk.injEq, NodeHashData.mk.injEq, UInt16.toUInt32_inj] at h
  obtain ⟨⟨_, hmo, ha, hm, hsi⟩, hn⟩ := h
  refine ⟨hn, hmo, hsi, ha, ?_⟩
  cases x with
  | directory node children =>
    cases y with
    | directory other others => exact .inl ⟨rfl, rfl⟩
    | file other | link other source => cases hk.mp rfl
  | file node =>
    cases y with
    | directory other others => cases hk.mpr rfl
    | file other => exact .inl ⟨rfl, rfl⟩
    | link other source => exact .inr (.inl ⟨rfl, rfl, congrArg some hm.symm⟩)
  | link node source =>
    cases y with
    | directory other others => cases hk.mpr rfl
    | file other => exact .inr (.inr ⟨rfl, rfl, congrArg some hm⟩)
    | link other otherSource => exact .inl ⟨rfl, congrArg some hm⟩

theorem length_name_of_fit (h : namesLength children < UInt32.size) :
    ∀ child ∈ children.map ChildHashData.of, child.name.length < UInt32.size := by
  intro child hc
  obtain ⟨tree, ht, rfl⟩ := mem_map.mp hc
  exact Nat.lt_of_le_of_lt
    (le_sum_of_mem (mem_map_of_mem (f := fun tree : Tree => tree.node.name.length) ht))
    h

/-- A node and one that contributes the same are both directories or neither is: the hash of
a directory is keyed. -/
theorem Ideal.directory_iff (h : Ideal keyedHash xs ys) {y} (hx : x ∈ xs) (hy : y ∈ ys)
    (hxH : Hashed keyedHash x) (hyH : Hashed keyedHash y)
    (ha : x.node.address = y.node.address) : x.kind = .directory ↔ y.kind = .directory := by
  constructor
  · intro hk
    by_contra ho
    cases hxH with
    | file node | link node source => cases hk
    | directory holds below =>
      refine h.right y (mem_nodesBelow_of_mem hy) ho _
        (chains_children_subset hx _ mem_cons_self) ?_
      rw [← ha]
      exact holds.1
  · intro hk
    by_contra ho
    cases hyH with
    | file node | link node source => cases hk
    | directory holds below =>
      refine h.left x (mem_nodesBelow_of_mem hx) ho _ (chains_children_subset hy _ mem_cons_self) ?_
      rw [ha]
      exact holds.1

theorem Hashed.digest_children_eq {x y} (hx : Hashed keyedHash x) (hy : Hashed keyedHash y)
    (ha : x.node.address = y.node.address) (hk : x.kind = .directory ↔ y.kind = .directory) :
    digest keyedHash x.children = digest keyedHash y.children := by
  cases hx with
  | directory holds _ =>
    cases hy with
    | directory others _ => exact holds.1.symm.trans ((congrArg _ ha).trans others.1)
    | file other | link other source => cases hk.mp rfl
  | file node | link node source =>
    cases hy with
    | directory _ _ => cases hk.mpr rfl
    | file other | link other source => rfl

/-- Hashed trees of one digest agree at every path. The induction is over the path: the
digest tells what each child contributes, and that of a directory is the digest of what is
below. -/
theorem alike_of_digest_eq {xs ys} (path : Path) (hi : Ideal keyedHash xs ys)
    (hxs : WellFormed xs) (hys : WellFormed ys) (hxH : ∀ x ∈ xs, Hashed keyedHash x)
    (hyH : ∀ y ∈ ys, Hashed keyedHash y) (h : digest keyedHash xs = digest keyedHash ys) :
    Option.Rel Alike ((nodeAt xs path).map Tree.entry) ((nodeAt ys path).map Tree.entry) := by
  induction path generalizing xs ys with
  | nil => exact .none
  | cons hash rest ih =>
    have hp : (xs.map of).Perm (ys.map .of) :=
      perm_of_hashInput_eq (length_name_of_fit hxs.fit) (length_name_of_fit hys.fit)
        (hi.injective xs mem_cons_self ys mem_cons_self h)
    have hkey : ∀ {a b : Tree}, of a = .of b →
        a.node.nameHash = b.node.nameHash := fun hof => congrArg (·.data.nameHash) hof
    rw [nodeAt_cons, nodeAt_cons]
    cases hf : findChild xs hash with
    | none =>
      have hn : findChild ys hash = none := by
        rw [findChild_eq_none] at hf ⊢
        intro y hy hh
        obtain ⟨x, hx, hof⟩ := mem_map.mp (hp.mem_iff.mpr (mem_map_of_mem hy))
        exact hf x hx ((hkey hof).trans hh)
      rw [hn]
      exact .none
    | some x =>
      obtain ⟨hx, hh⟩ := hxs.findChild_eq_some.mp hf
      obtain ⟨y, hy, hof⟩ := mem_map.mp (hp.mem_iff.mp (mem_map_of_mem hx))
      rw [hys.findChild_eq_some.mpr ⟨hy, (hkey hof).trans hh⟩]
      have ha : x.node.address = y.node.address := congrArg (·.data.address) hof.symm
      have hk := hi.directory_iff hx hy (hxH x hx) (hyH y hy) ha
      by_cases hr : rest = []
      · simp only [if_pos hr]
        exact .some (.of_contribution hof.symm hk)
      · simp only [if_neg hr]
        exact ih (hi.child hx hy) (hxs.child hx) (hys.child hy)
          (fun _ => (hxH x hx).child) (fun _ => (hyH y hy).child)
          ((hxH x hx).digest_children_eq (hyH y hy) ha hk)

/-! ## The rehashed tree -/

@[simp] theorem children_unstaged (tree : Tree) :
    tree.unstaged.children = unstagedAll tree.children := by
  cases tree <;> rfl

@[simp] theorem children_recompute (tree : Tree) :
    (recompute keyedHash tree).children = recomputeAll keyedHash tree.children := by
  cases tree <;> rfl

theorem map_of_unstagedAll (children : List Tree) :
    (unstagedAll children).map ChildHashData.of = children.map .of := by
  rw [unstagedAll_eq_map, map_map]
  exact map_congr_left fun child _ => of_unstaged child

theorem digest_unstagedAll (children : List Tree) :
    digest keyedHash (unstagedAll children) = digest keyedHash children := by
  rw [digest, digest, map_of_unstagedAll]

theorem totalSize_unstagedAll (children : List Tree) :
    totalSize (unstagedAll children) = totalSize children := by
  rw [totalSize_eq_sum, totalSize_eq_sum, map_of_unstagedAll]

theorem hashed_directory {node} : Hashed keyedHash (.directory node children) ↔
    HoldsDigest keyedHash node children ∧ ∀ child ∈ children, Hashed keyedHash child := by
  refine ⟨fun h => ?_, fun h => .directory h.1 h.2⟩
  cases h with
  | directory holds below => exact ⟨holds, below⟩

theorem hashed_unstaged (tree : Tree) : Hashed keyedHash tree.unstaged ↔ Hashed keyedHash tree := by
  induction tree using Tree.induction with
  | file node => exact ⟨fun _ => .file node, fun _ => .file _⟩
  | link node source => exact ⟨fun _ => .link node source, fun _ => .link _ source⟩
  | directory node children ih =>
    rw [Tree.unstaged, hashed_directory, hashed_directory, HoldsDigest, digest_unstagedAll,
      totalSize_unstagedAll, unstagedAll_eq_map, forall_mem_map]
    exact and_congr_right fun _ => forall₂_congr ih

theorem nodeAt_map {f : Tree → Tree} (hh : ∀ tree, (f tree).node.nameHash = tree.node.nameHash)
    (hc : ∀ tree, (f tree).children = tree.children.map f) (trees : List Tree) (path : Path) :
    nodeAt (trees.map f) path = (nodeAt trees path).map f := by
  induction path generalizing trees with
  | nil => rfl
  | cons hash rest ih =>
    have hf : findChild (trees.map f) hash = (findChild trees hash).map f := by
      simp only [findChild, find?_map, Function.comp_def, hh]
    rw [nodeAt_cons, nodeAt_cons, hf]
    cases findChild trees hash with
    | none => rfl
    | some child =>
      simp only [Option.map_some, Option.bind_some, hc, ih]
      split <;> rfl

theorem entry_unstagedAll (trees : List Tree) (path : Path) :
    (nodeAt (unstagedAll trees) path).map Tree.entry = (nodeAt trees path).map Tree.entry := by
  have hf : Tree.entry ∘ Tree.unstaged = Tree.entry := by
    funext tree
    cases tree <;> rfl
  have hc : ∀ tree : Tree, tree.unstaged.children = tree.children.map Tree.unstaged := by
    intro tree
    rw [children_unstaged, unstagedAll_eq_map]
  rw [unstagedAll_eq_map, nodeAt_map (fun tree => by cases tree <;> rfl) hc, Option.map_map, hf]

theorem SamePaths.entry_eq {xs ys} (h : SamePaths xs ys) (hxs : WellFormed xs)
    (hys : WellFormed ys) (path : Path) :
    (nodeAt (recomputeAll keyedHash xs) path).map Tree.entry
      = (nodeAt (recomputeAll keyedHash ys) path).map Tree.entry := by
  have hc : ∀ tree : Tree, (recompute keyedHash tree).children
      = tree.children.map (recompute keyedHash) := by
    intro tree
    rw [children_recompute, recomputeAll_eq_map]
  rw [recomputeAll_eq_map, recomputeAll_eq_map, nodeAt_map nameHash_recompute hc,
    nodeAt_map nameHash_recompute hc, Option.map_map, Option.map_map]
  cases hx : nodeAt xs path with
  | none =>
    have hy := h path
    rw [hx, Option.map_none, eq_comm, Option.map_eq_none_iff] at hy
    rw [hy]
  | some x =>
    obtain ⟨y, hy, hown, hsa, hwx, hwy⟩ := h.descend hxs hys hx
    rw [hy]
    exact congrArg some (entry_recompute_eq hown (hsa.digest_eq hwx hwy))

theorem WellFormed.of_map {f : Tree → Tree} (hn : ∀ tree, (f tree).node.name = tree.node.name)
    (hh : ∀ tree, (f tree).node.nameHash = tree.node.nameHash)
    (hc : ∀ tree, (f tree).children = tree.children.map f) :
    WellFormed (children.map f) ↔ WellFormed children := by
  have hl : ∀ trees : List Tree, namesLength (trees.map f) = namesLength trees := by
    intro trees
    simp [namesLength, Function.comp_def, hn]
  have hd : ∀ trees : List Tree,
      (trees.map f).map (·.node.nameHash) = trees.map (·.node.nameHash) := by
    intro trees
    simp [hh]
  constructor
  · intro h
    generalize ht : children.map f = trees at h
    induction h generalizing children with
    | intro distinct fit _ ih =>
      subst ht
      refine .intro (hd children ▸ distinct) (hl children ▸ fit) ?_
      intro child hch
      exact ih (f child) (mem_map_of_mem hch) (hc child).symm
  · intro h
    induction h with
    | @intro children distinct fit _ ih =>
      refine .intro ((hd children).symm ▸ distinct) ((hl children).symm ▸ fit) ?_
      intro child hch
      obtain ⟨held, hhe, rfl⟩ := mem_map.mp hch
      rw [hc]
      exact ih held hhe

theorem wellFormed_unstagedAll : WellFormed (unstagedAll children) ↔ WellFormed children := by
  rw [unstagedAll_eq_map]
  refine WellFormed.of_map (fun tree => by cases tree <;> rfl) (fun tree => by cases tree <;> rfl)
    fun tree => ?_
  rw [children_unstaged, unstagedAll_eq_map]

theorem wellFormed_recomputeAll :
    WellFormed (recomputeAll keyedHash children) ↔ WellFormed children := by
  rw [recomputeAll_eq_map]
  refine WellFormed.of_map (fun tree => by cases tree <;> rfl) (fun tree => by cases tree <;> rfl)
    fun tree => ?_
  rw [children_recompute, recomputeAll_eq_map]

theorem hashed_of_unstagedAll_eq {after}
    (h : unstagedAll after = unstagedAll (recomputeAll keyedHash children))
    (hw : WellFormed children) : WellFormed after ∧ ∀ child ∈ after, Hashed keyedHash child := by
  refine ⟨?_, fun child hc => ?_⟩
  · rw [← wellFormed_unstagedAll, h, wellFormed_unstagedAll, wellFormed_recomputeAll]
    exact hw
  · have hmem : child.unstaged ∈ unstagedAll (recomputeAll keyedHash children) := by
      rw [← h, unstagedAll_eq_map]
      exact mem_map_of_mem hc
    rw [unstagedAll_eq_map, recomputeAll_eq_map, map_map] at hmem
    obtain ⟨held, _, heq⟩ := mem_map.mp hmem
    rw [← hashed_unstaged, ← heq]
    exact (hashed_unstaged _).mpr (recompute_hashed held)

theorem hashRoot_updateTreeRootHash (root : Root) (header : TreeHeader) :
    (updateTreeRootHash root header).2.hashRoot = root.node.address.hash := by
  unfold updateTreeRootHash
  by_cases h : root.node.address.hash = header.hashRoot
  · simp [h]
  · simp [h]

/-- An edited tree once it is rehashed: the directories below the root are hashed, and the
root holds the digest of its children, which is that of the tree hashed from scratch. -/
theorem Edited.rehashRoot_hashed {before after rehashed} (h : Edited keyedHash before after)
    (schedule : Schedule) (hr : (rehashRoot keyedHash schedule after).1 = rehashed) :
    WellFormed rehashed.children ∧ (∀ child ∈ rehashed.children, Hashed keyedHash child) ∧
    HoldsDigest keyedHash rehashed.node rehashed.children ∧
    HoldsDigest keyedHash rehashed.node (recomputeAll keyedHash after.children) := by
  obtain ⟨_, hro⟩ := @rehashRoot_spec keyedHash schedule _ h.wellFormed h.committed h.settled
  rw [hr] at hro
  have hc : unstagedAll rehashed.children
      = unstagedAll (recomputeAll keyedHash after.children) := congrArg Root.children hro
  have hsc : HoldsDigest keyedHash rehashed.node (recomputeAll keyedHash after.children) :=
    ⟨congrArg (fun root : Root => root.node.address.hash) hro,
      congrArg (fun root : Root => root.node.size) hro⟩
  obtain ⟨hw, hh⟩ := hashed_of_unstagedAll_eq hc h.wellFormed
  refine ⟨hw, hh, ⟨?_, ?_⟩, hsc⟩
  · rw [hsc.1, ← digest_unstagedAll, ← hc, digest_unstagedAll]
  · rw [hsc.2, ← totalSize_unstagedAll, ← hc, totalSize_unstagedAll]

theorem Edited.entry_rehashRoot {before after} (h : Edited keyedHash before after)
    (schedule : Schedule) (path : Path) :
    (nodeAt (rehashRoot keyedHash schedule after).1.children path).map Tree.entry
      = (nodeAt (recomputeAll keyedHash after.children) path).map Tree.entry := by
  obtain ⟨_, hro⟩ := @rehashRoot_spec keyedHash schedule _ h.wellFormed h.committed h.settled
  have hc : unstagedAll (rehashRoot keyedHash schedule after).1.children
      = unstagedAll (recomputeAll keyedHash after.children) := congrArg Root.children hro
  rw [← entry_unstagedAll, hc, entry_unstagedAll]

/-- **A directory's address is a digest of the tree.** An edited tree is rehashed, in
whatever order the tasks finish, and is then as hashed from scratch, but for the staged bits.
Two edited trees whose paths hold the same get the same root hash and size, and the same at every
path, whatever their chains, node ids and tasks. Two whose root hashes are the same agree at every path, but that
one may hold a file where the other holds a link that mounts the root of its revision. -/
theorem rehash_faithful {before after : Root} (h : Edited keyedHash before after)
    (schedule : Schedule) (header : TreeHeader) :
    (rehashRoot keyedHash schedule after).2 = .ok () ∧
    (rehashRoot keyedHash schedule after).1.unstaged =
      (recomputeRoot keyedHash after).unstaged ∧
    ∀ (otherBefore otherAfter : Root) (otherSchedule : Schedule) (otherHeader : TreeHeader),
      Edited keyedHash otherBefore otherAfter →
      (SamePaths after.children otherAfter.children →
        (updateTreeRootHash (rehashRoot keyedHash schedule after).1 header).2.hashRoot =
          (updateTreeRootHash (rehashRoot keyedHash otherSchedule otherAfter).1
            otherHeader).2.hashRoot ∧
        (rehashRoot keyedHash schedule after).1.node.size =
          (rehashRoot keyedHash otherSchedule otherAfter).1.node.size ∧
        ∀ path, (nodeAt (rehashRoot keyedHash schedule after).1.children path).map Tree.entry =
          (nodeAt (rehashRoot keyedHash otherSchedule otherAfter).1.children path).map
            Tree.entry) ∧
      (Ideal keyedHash (rehashRoot keyedHash schedule after).1.children
          (rehashRoot keyedHash otherSchedule otherAfter).1.children →
        (updateTreeRootHash (rehashRoot keyedHash schedule after).1 header).2.hashRoot =
          (updateTreeRootHash (rehashRoot keyedHash otherSchedule otherAfter).1
            otherHeader).2.hashRoot →
        ∀ path, Option.Rel Alike
          ((nodeAt (rehashRoot keyedHash schedule after).1.children path).map Tree.entry)
          ((nodeAt (rehashRoot keyedHash otherSchedule otherAfter).1.children path).map
            Tree.entry)) := by
  obtain ⟨ha, hr⟩ := @rehashRoot_spec keyedHash schedule _ h.wellFormed h.committed h.settled
  refine ⟨ha, hr, fun otherBefore otherAfter otherSchedule otherHeader ho => ?_⟩
  obtain ⟨hw, hh, hho, hsc⟩ := h.rehashRoot_hashed schedule rfl
  obtain ⟨hoW, hoH, hotH, hoS⟩ := ho.rehashRoot_hashed otherSchedule rfl
  rw [hashRoot_updateTreeRootHash, hashRoot_updateTreeRootHash]
  refine ⟨fun hsa => ?_, fun hi heq path => ?_⟩
  · obtain ⟨hd, hsi⟩ := @SamePaths.digest_eq keyedHash _ _ hsa h.wellFormed ho.wellFormed
    refine ⟨by rw [hsc.1, hoS.1, hd], by rw [hsc.2, hoS.2, hsi], fun path => ?_⟩
    rw [h.entry_rehashRoot schedule path, ho.entry_rehashRoot otherSchedule path]
    exact hsa.entry_eq h.wellFormed ho.wellFormed path
  · refine alike_of_digest_eq path hi hw hoW hh hoH ?_
    rw [← hho.1, ← hotH.1, heq]

/-! ### Small trees -/

/-- A hash of the length of the bytes and their sum. -/
def lengthAndSum (bytes : Bytes) : Hash :=
  BitVec.ofNat 256 (bytes.length * 2 ^ 64 + (bytes.map UInt8.toNat).sum % 2 ^ 64)

theorem length_hashInput (children : List Tree) :
    (hashInput (children.map .of)).length = children.length * 76 + namesLength children := by
  have hone : ∀ tree : Tree, (ChildHashData.of tree).bytes.length = 76 + tree.node.name.length := by
    intro tree
    have hd : NodeHashData.layout.size = 72 := rfl
    have hl : Layout.u32.size = 4 := rfl
    simp only [bytes, of, length_append, Layout.length_encode, hd, hl]
    omega
  have hp := ((sortByNameHash_perm (children.map .of)).map (·.bytes.length)).sum_eq
  rw [hashInput, length_flatMap, hp, map_map]
  induction children with
  | nil => rfl
  | cons tree children ih =>
    simp only [namesLength, map_cons, sum_cons, Function.comp_apply, hone, length_cons] at ih ⊢
    rw [ih (((sortByNameHash_perm (children.map .of)).map (·.bytes.length)).sum_eq)]
    omega

/-- Trees whose directories are told apart by the lengths they are hashed from. -/
theorem ideal_of_lengths (inputs : Nat → Bytes)
    (hinput : ∀ chain ∈ chains xs ++ chains ys,
      hashInput (chain.map .of) = inputs (chain.length * 76 + namesLength chain)
      ∧ chain.length * 76 + namesLength chain < 2 ^ 64)
    (hleaf : ∀ leaf ∈ nodesBelow xs ++ nodesBelow ys, leaf.kind ≠ .directory →
      0 < leaf.node.address.hash.toNat ∧ leaf.node.address.hash.toNat < 2 ^ 64) :
    Ideal lengthAndSum xs ys := by
  have hdigest : ∀ chain ∈ chains xs ++ chains ys, ∃ sum < 2 ^ 64,
      (digest lengthAndSum chain).toNat
        = (chain.length * 76 + namesLength chain) * 2 ^ 64 + sum
      ∧ (chain.length * 76 + namesLength chain = 0 → sum = 0) := by
    intro chain hc
    have hlt := (hinput chain hc).2
    refine ⟨((hashInput (chain.map .of)).map UInt8.toNat).sum % 2 ^ 64,
      Nat.mod_lt _ (by decide), ?_, fun hz => ?_⟩
    · rw [digest, lengthAndSum, length_hashInput, BitVec.toNat_ofNat]
      exact Nat.mod_eq_of_lt (by omega)
    · rw [length_eq_zero_iff.mp ((length_hashInput chain).trans hz)]
      rfl
  refine ⟨fun a ha b hb heq => ?_, fun leaf hl hk b hb heq => ?_, fun leaf hl hk a ha heq => ?_⟩
  · obtain ⟨sum, hs, hd, -⟩ := hdigest a (mem_append_left _ ha)
    obtain ⟨sum', hs', hd', -⟩ := hdigest b (mem_append_right _ hb)
    rw [heq, hd'] at hd
    rw [(hinput a (mem_append_left _ ha)).1, (hinput b (mem_append_right _ hb)).1]
    congr 1
    omega
  · obtain ⟨sum, hs, hd, hz⟩ := hdigest b (mem_append_right _ hb)
    have hleaf := hleaf leaf (mem_append_left _ hl) hk
    rw [heq, hd] at hleaf
    omega
  · obtain ⟨sum, hs, hd, hz⟩ := hdigest a (mem_append_left _ ha)
    have hleaf := hleaf leaf (mem_append_right _ hl) hk
    rw [heq, hd] at hleaf
    omega

/-- The tasks finish in the order they were spawned in. -/
def Schedule.inOrder : Schedule := ⟨fun _ tasks => tasks, fun _ _ => .refl _⟩

/-- The tasks finish in the other order. -/
def Schedule.backwards : Schedule := ⟨fun _ tasks => tasks.reverse, fun _ _ => reverse_perm _⟩

/-- A committed file or link, named by one byte. -/
def leafNode (id : NodeID) (name : UInt8) : Node :=
  { id, flags := 0, mode := 0, name := [name], nameHash := name.toUInt64, size := 3
    address := ⟨7, 5⟩ }

/-- A directory with the hash and the size of the children given. -/
def directoryNode (id : NodeID) (name : UInt8) (flags : BitVec 16) (children : List Tree) : Node :=
  { leafNode id name with
    flags, size := totalSize children, address := ⟨digest lengthAndSum children, 5⟩ }

def rootOf (children : List Tree) : Root :=
  ⟨{ id := rootNode, flags := 0, mode := 0, name := [], nameHash := 0, size := 0
     address := ⟨0, 0⟩ }, children⟩

/-- The file that is edited, once it is, and the file that is not. -/
def newFile (id : NodeID) : Tree := .file { leafNode id 1 with size := 4, address := ⟨8, 5⟩ }

@[inherit_doc newFile]
def keptFile (id : NodeID) : Tree := .file { leafNode id 1 with name := [1, 1] }

/-- Two directories with a file each. The file of the first is edited, and the directory, which
still holds the hash of the file before, is staged; the second is neither. -/
def beforeEdit : List Tree :=
  [.directory (directoryNode 1 1 0 [.file (leafNode 2 1)]) [.file (leafNode 2 1)],
    .directory (directoryNode 3 2 0 [keptFile 4]) [keptFile 4]]

@[inherit_doc beforeEdit]
def afterEdit : List Tree :=
  [.directory (directoryNode 1 1 NodeFlags.staged [.file (leafNode 2 1)]) [newFile 2],
    .directory (directoryNode 3 2 0 [keptFile 4]) [keptFile 4]]

/-- The same tree in a first commit, in the other order and under other ids. -/
def firstCommit : List Tree :=
  [.directory (directoryNode 9 2 NodeFlags.staged []) [keptFile 8],
    .directory (directoryNode 7 1 NodeFlags.staged []) [newFile 6]]

/-- What the rehash leaves of the two. -/
def rehashedEdit : List Tree :=
  [.directory (directoryNode 1 1 0 [newFile 2]) [newFile 2],
    .directory (directoryNode 3 2 0 [keptFile 4]) [keptFile 4]]

@[inherit_doc rehashedEdit]
def rehashedFirst : List Tree :=
  [.directory (directoryNode 9 2 0 [keptFile 8]) [keptFile 8],
    .directory (directoryNode 7 1 0 [newFile 6]) [newFile 6]]

theorem afterEdit_edited : Edited lengthAndSum (rootOf beforeEdit) (rootOf afterEdit) where
  hashed child hc := by
    simp only [rootOf, beforeEdit, mem_cons, not_mem_nil, or_false] at hc
    rcases hc with rfl | rfl
    all_goals
      refine .directory ⟨rfl, rfl⟩ fun child hc => ?_
      rw [mem_singleton.mp hc]
      exact .file _
  ids := by decide
  wellFormed := by
    refine .intro (by decide) (by decide) fun child hc => ?_
    simp only [rootOf, afterEdit, mem_cons, not_mem_nil, or_false] at hc
    rcases hc with rfl | rfl
    all_goals
      refine .intro (by decide) (by decide) fun child hc => ?_
      rw [mem_singleton.mp hc]
      exact .intro nodup_nil (by decide) fun _ hmem => nomatch hmem
  committed tree ht := by
    simp only [rootOf, afterEdit, newFile, keptFile, nodesBelow, Tree.nodes, cons_append,
      nil_append, append_nil, mem_cons, not_mem_nil, or_false] at ht
    rcases ht with rfl | rfl | rfl | rfl <;> rfl
  staged node below hmem := by
    simp only [rootOf, afterEdit, newFile, keptFile, nodesBelow, Tree.nodes, cons_append, nil_append,
      append_nil, mem_cons, not_mem_nil, or_false, reduceCtorEq, false_or,
      Tree.directory.injEq] at hmem
    rcases hmem with ⟨rfl, rfl⟩ | ⟨rfl, rfl⟩
    · exact fun _ _ => .inr rfl
    · intro tree ht
      simp only [Tree.nodes, nodesBelow, append_nil, mem_cons, not_mem_nil, or_false] at ht
      refine .inl ⟨tree, ?_, rfl, rfl, rfl, .refl _⟩
      rcases ht with rfl | rfl <;> simp [rootOf, beforeEdit, keptFile, nodesBelow, Tree.nodes]

theorem firstCommit_edited : Edited lengthAndSum (rootOf []) (rootOf firstCommit) where
  hashed _ hmem := nomatch hmem
  ids := nodup_nil
  wellFormed := by
    refine .intro (by decide) (by decide) fun child hc => ?_
    simp only [rootOf, firstCommit, mem_cons, not_mem_nil, or_false] at hc
    rcases hc with rfl | rfl
    all_goals
      refine .intro (by decide) (by decide) fun child hc => ?_
      rw [mem_singleton.mp hc]
      exact .intro nodup_nil (by decide) fun _ hmem => nomatch hmem
  committed tree ht := by
    simp only [rootOf, firstCommit, newFile, keptFile, nodesBelow, Tree.nodes, cons_append,
      nil_append, append_nil, mem_cons, not_mem_nil, or_false] at ht
    rcases ht with rfl | rfl | rfl | rfl <;> rfl
  staged node below hmem := by
    simp only [rootOf, firstCommit, newFile, keptFile, nodesBelow, Tree.nodes, cons_append, nil_append,
      append_nil, mem_cons, not_mem_nil, or_false, reduceCtorEq, false_or,
      Tree.directory.injEq] at hmem
    rcases hmem with ⟨rfl, rfl⟩ | ⟨rfl, rfl⟩ <;> exact fun _ _ => .inr rfl

theorem samePaths_file {a b : Node} (h : (Tree.file a).ownEntry = (Tree.file b).ownEntry)
    (hn : a.nameHash = b.nameHash) : SamePaths [.file a] [.file b] := by
  refine .of_findChild fun hash => ?_
  by_cases heq : a.nameHash = hash
  · simp only [findChild, find?_cons, Tree.node, heq, ← hn, decide_true]
    exact .some ⟨h, fun _ => rfl⟩
  · simp only [findChild, find?_cons, Tree.node, heq, ← hn, decide_false, find?_nil]
    exact .none

theorem afterEdit_samePaths : SamePaths afterEdit firstCommit := by
  refine .of_findChild fun hash => ?_
  by_cases hone : hash = 1
  · subst hone
    exact .some ⟨rfl, samePaths_file rfl rfl⟩
  · by_cases htwo : hash = 2
    · subst htwo
      exact .some ⟨rfl, samePaths_file rfl rfl⟩
    · have hnone : findChild afterEdit hash = none ∧ findChild firstCommit hash = none := by
        constructor <;> rw [findChild_eq_none] <;>
          simp [afterEdit, firstCommit, Tree.node, directoryNode, leafNode] <;>
          exact ⟨fun h => by simp_all, fun h => by simp_all⟩
      rw [hnone.1, hnone.2]
      exact .none

/-- The edited tree is rehashed below its staged directory, and hashes as the first commit of the
same tree does, at every path; and then the two agree at every path. -/
theorem rehash_faithful_edit :
    (rehashRoot lengthAndSum .inOrder (rootOf afterEdit)).2 = .ok () ∧
    (∀ path, (nodeAt (rehashRoot lengthAndSum .inOrder (rootOf afterEdit)).1.children path).map
        Tree.entry
      = (nodeAt (rehashRoot lengthAndSum .backwards (rootOf firstCommit)).1.children path).map
        Tree.entry) ∧
    ∀ path, Option.Rel Alike
      ((nodeAt (rehashRoot lengthAndSum .inOrder (rootOf afterEdit)).1.children path).map Tree.entry)
      ((nodeAt (rehashRoot lengthAndSum .backwards (rootOf firstCommit)).1.children path).map
        Tree.entry) := by
  obtain ⟨ha, _, ho⟩ := rehash_faithful afterEdit_edited .inOrder ⟨0, 0⟩
  obtain ⟨hsa, hal⟩ := ho (rootOf []) (rootOf firstCommit) .backwards ⟨0, 0⟩ firstCommit_edited
  obtain ⟨hr, -, hpaths⟩ := hsa afterEdit_samePaths
  refine ⟨ha, hpaths, hal ?_ hr⟩
  have hedit : (rehashRoot lengthAndSum .inOrder (rootOf afterEdit)).1.children = rehashedEdit := rfl
  have hfirst : (rehashRoot lengthAndSum .backwards (rootOf firstCommit)).1.children
      = rehashedFirst := rfl
  rw [hedit, hfirst]
  have hswap : hashInput (rehashedEdit.map .of) = hashInput (rehashedFirst.map .of) :=
    hashInput_eq_of_perm (.swap _ _ _) (by decide)
  refine ideal_of_lengths (fun n => if n = 154 then hashInput (rehashedFirst.map .of)
    else if n = 77 then hashInput [.of (newFile 6)]
    else if n = 78 then hashInput [.of (keptFile 8)] else hashInput []) ?_ ?_
  · intro chain hc
    have hc : chain ∈ [rehashedEdit, [newFile 2], [], [keptFile 4], [], rehashedFirst, [keptFile 8],
      [], [newFile 6], []] := hc
    simp only [mem_cons, not_mem_nil, or_false] at hc
    rcases hc with rfl | hc
    · exact ⟨hswap, by decide⟩
    · rcases hc with rfl | rfl | rfl | rfl | rfl | rfl | rfl | rfl | rfl <;> exact ⟨rfl, by decide⟩
  · intro leaf hl hk
    simp only [rehashedEdit, rehashedFirst, newFile, keptFile, nodesBelow, Tree.nodes, cons_append,
      nil_append, append_nil, mem_cons, not_mem_nil, or_false] at hl
    rcases hl with rfl | rfl | rfl | rfl | rfl | rfl | rfl | rfl
    all_goals first | exact absurd rfl hk | decide

/-- A file, and a link to the root of a revision, of one name, mode, size and address. -/
def oneFile : List Tree := [.file (leafNode 1 1)]
def oneLink : List Tree := [.link (leafNode 1 1) rootNode]

theorem oneLeaf_edited {tree : Tree} (hk : tree.nodes = [tree] ∧ tree.children = [])
    (hc : Committed tree) (hfit : namesLength [tree] < UInt32.size)
    (hd : tree.kind ≠ .directory) : Edited lengthAndSum (rootOf []) (rootOf [tree]) where
  hashed _ hmem := nomatch hmem
  ids := nodup_nil
  wellFormed := by
    refine .intro (nodup_singleton _) hfit fun child hch => ?_
    rw [mem_singleton.mp hch, hk.2]
    exact .intro nodup_nil (by decide) fun _ hmem => nomatch hmem
  committed low hl := by
    simp only [rootOf, nodesBelow, hk.1, append_nil, mem_singleton] at hl
    exact hl ▸ hc
  staged node below hmem := by
    simp only [rootOf, nodesBelow, hk.1, append_nil, mem_singleton] at hmem
    exact absurd (hmem ▸ rfl) hd

/-- The two trees get one root hash, though one path holds a file in the one and a link in
the other. -/
theorem file_and_link_hash_alike :
    Edited lengthAndSum (rootOf []) (rootOf oneFile) ∧
    Edited lengthAndSum (rootOf []) (rootOf oneLink) ∧
    Ideal lengthAndSum (rehashRoot lengthAndSum .inOrder (rootOf oneFile)).1.children
      (rehashRoot lengthAndSum .inOrder (rootOf oneLink)).1.children ∧
    (updateTreeRootHash (rehashRoot lengthAndSum .inOrder (rootOf oneFile)).1 ⟨0, 0⟩).2.hashRoot =
      (updateTreeRootHash (rehashRoot lengthAndSum .inOrder (rootOf oneLink)).1
        ⟨0, 0⟩).2.hashRoot ∧
    (nodeAt (rehashRoot lengthAndSum .inOrder (rootOf oneFile)).1.children [1]).map Tree.kind =
      some .file ∧
    (nodeAt (rehashRoot lengthAndSum .inOrder (rootOf oneLink)).1.children [1]).map Tree.kind =
      some .link := by
  refine ⟨oneLeaf_edited ⟨rfl, rfl⟩ rfl (by decide) (by decide),
    oneLeaf_edited ⟨rfl, rfl⟩ rfl (by decide) (by decide), ?_, rfl, rfl, rfl⟩
  refine ideal_of_lengths (fun n => if n = 77 then hashInput (oneLink.map .of) else hashInput [])
    ?_ ?_
  · intro chain hc
    have hc : chain ∈ [oneFile, [], oneLink, []] := hc
    simp only [mem_cons, not_mem_nil, or_false] at hc
    rcases hc with rfl | rfl | rfl | rfl <;> exact ⟨rfl, by decide⟩
  · intro leaf hl _
    have hl : leaf ∈ [.file (leafNode 1 1), .link (leafNode 1 1) rootNode] := hl
    simp only [mem_cons, not_mem_nil, or_false] at hl
    rcases hl with rfl | rfl <;> decide

end Lore.Commit
