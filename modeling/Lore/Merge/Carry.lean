import Mathlib.Logic.Function.Basic
import Lore.Lib.Machine
import Lore.Storage.Fragment

/-!
# Carry — dirty tracking across a merge

A merge, cherry-pick or revert starts from a clean staged state. The paths that were tracked as
dirty only are written to one blob under `carry_key`, together with the pair of parents the
merge is expected to commit with (`check_and_capture_dirty_for_merge`). A commit takes the blob
and marks its paths again where the parents match (`take_matching`), an abort marks them whatever
the parents, and both clear it. The key is made of the repository's salt, which is the same
constant everywhere, so all instances on one mutable store have one blob between them.

The paths are marked again by the walk of `dirty_relative_paths`, which goes down into what is a
directory by then. Merges of a link only, layers, filters, and commits that are forced or of layers
only are left out.

`MergeCarry.storedBy` and `World.merging` are not in the source: they record whose paths the
blob holds, and what an instance tracked when its merge started.
-/

namespace Lore.Merge

open Lore.Lib Lore.Storage

inductive MergeType where
  | none
  | branchMerge
  | cherryPick
  | revert
deriving DecidableEq

structure MergeCarry (ι π : Type) where
  parentSelf : Hash
  parentOther : Hash
  paths : List π
  storedBy : ι

/-- A staged state: its merge, its parents, whether a node of it is staged, and the paths that
are tracked as dirty only. -/
structure Staged (π : Type) where
  mergeType : MergeType
  parentSelf : Hash
  parentOther : Hash
  hasStaged : Bool
  dirty : List π

structure Instance (π : Type) where
  current : Hash
  staged : Option (Staged π)

def Instance.tracked {π : Type} (inst : Instance π) : List π := inst.staged.elim [] (·.dirty)

/-- The instances, and what the mutable store has under the carry key. -/
structure World (ι π : Type) where
  carry : Option (MergeCarry ι π)
  instances : ι → Instance π
  merging : ι → List π

/-- What the working tree holds at a path. -/
inductive OnDisk (π : Type) where
  | absent
  | file
  | directory (entries : List π)

/-- The working tree, and the children of what the revision holds, as a walk meets them. -/
structure Site (π : Type) where
  disk : π → OnDisk π
  revision : π → Option (List π)
  depth : Nat

/-- How far a start comes after its capture: it stores the staged state of the merge, or it
fails, is a dry run, or is interrupted. -/
inductive Outcome where
  | stores (hasStaged : Bool)
  | fails

inductive Action (ι π : Type) where
  /-- marking, unmarking, staging, resolving or restarting paths of an instance -/
  | track (i : ι) (hasStaged : Bool) (dirty : List π)
  /-- `merge_start` of a branch with these latest revisions in the store and on the remote;
  `all` where the links are merged too, `sameBranch` where it is the current branch -/
  | mergeStart (i : ι) (all sameBranch : Bool) (latest latestRemote : Option Hash)
      (outcome : Outcome)
  | cherryPick (i : ι) (outcome : Outcome)
  | revert (i : ι) (outcome : Outcome)
  /-- the paths are marked again at `site` -/
  | commit (i : ι) (revision : Hash) (site : Site π)
  | abort (i : ι) (mergeType : MergeType) (site : Site π)

variable {ι π : Type}

/-- `check_and_capture_dirty_for_merge`: refused where a node is staged. -/
def captureDirtyForMerge (i : ι) (carry : Option (MergeCarry ι π)) (stagedOpt : Option (Staged π))
    (sourceRevision currentRevision : Hash) : Option (Option (MergeCarry ι π)) :=
  match stagedOpt with
  | none => some carry
  | some staged =>
    if staged.hasStaged then none
    else if staged.dirty.isEmpty then some carry
    else some (some ⟨currentRevision, sourceRevision, staged.dirty, i⟩)

/-- `take_matching`: the parents may be in either order. -/
def takeMatching (carry : Option (MergeCarry ι π)) (newParentSelf newParentOther : Hash) : List π :=
  match carry with
  | none => []
  | some carry =>
    if newParentSelf = carry.parentSelf ∧ newParentOther = carry.parentOther ∨
        newParentSelf = carry.parentOther ∧ newParentOther = carry.parentSelf then carry.paths
    else []

/-- The revision `merge_repository` merges. `found a b` says that the history of `a` is found to
have `b` in it. -/
def mergeRevision (found : Hash → Hash → Bool) (sameBranch : Bool)
    (latestMerge latestRemote : Option Hash) : Option Hash :=
  let revision := latestMerge.getD 0
  match latestRemote with
  | none => if latestMerge.isNone then none else some revision
  | some remote =>
    if revision = remote then some revision
    else if found remote revision then some remote
    else if found revision remote then some revision
    else if sameBranch then some remote
    else none

/-- `dirty_delete`: the paths marked at and below a node of the revision. -/
def Site.dirtyDelete (site : Site π) : (fuel : Nat) → π → List π
  | 0, _ => []
  | fuel + 1, path =>
    match site.revision path with
    | none => []
    | some children => path :: children.flatMap (site.dirtyDelete fuel)

/-- `dirty_path` with `dirty_directory`: the paths marked at a path. A directory on disk is marked
itself where it is new, and what is below it, on disk or in the revision, with it. -/
def Site.dirtyPath [DecidableEq π] (site : Site π) : (fuel : Nat) → π → List π
  | 0, _ => []
  | fuel + 1, path =>
    match site.disk path with
    | .file => [path]
    | .absent => site.dirtyDelete (fuel + 1) path
    | .directory entries =>
      let added := if (site.revision path).isNone then [path] else []
      let deleted := ((site.revision path).getD []).filter (· ∉ entries)
      added ++ entries.flatMap (site.dirtyPath fuel) ++ deleted.flatMap (site.dirtyDelete fuel)

/-- `dirty_relative_paths`: the paths marked. -/
def Site.replay [DecidableEq π] (site : Site π) (paths : List π) : List π :=
  paths.flatMap (site.dirtyPath site.depth)

/-- The instance with these paths marked on top of its revision. -/
def markDirty (revision : Hash) (marked : List π) : Instance π :=
  ⟨revision, if marked.isEmpty then none else some ⟨.none, revision, 0, false, marked⟩⟩

/-- `is_merge_or_cherry_pick_or_revert` of what is staged. -/
def Instance.merges (inst : Instance π) : Bool := inst.staged.any (·.mergeType ≠ .none)

variable [DecidableEq ι]

/-- A start: the capture, `validate_merge_in_progress`, and the staged state `apply_diff`
stores with these parents. -/
def World.start (w : World ι π) (i : ι) (mergeType : MergeType) (sourceRevision : Hash)
    (parents : Option (Hash × Hash)) (outcome : Outcome) : World ι π :=
  let inst := w.instances i
  match captureDirtyForMerge i w.carry inst.staged sourceRevision inst.current with
  | none => w
  | some carry =>
    match inst.merges, outcome, parents with
    | false, .stores hasStaged, some (parentSelf, parentOther) =>
      { carry := carry
        instances := Function.update w.instances i { inst with
          staged := some ⟨mergeType, parentSelf, parentOther, hasStaged, []⟩ }
        merging := Function.update w.merging i inst.tracked }
    | _, _, _ => { w with carry := carry }

/-- The end of a commit or an abort: the staged state is gone, the blob is cleared, and these
paths are marked on top of the revision. -/
def World.finish (w : World ι π) (i : ι) (revision : Hash) (marked : List π) : World ι π where
  carry := none
  instances := Function.update w.instances i (markDirty revision marked)
  merging := Function.update w.merging i []

def step [DecidableEq π] (found : Hash → Hash → Bool) (w : World ι π) :
    Action ι π → Option (World ι π)
  | .track i hasStaged dirty =>
    let inst := w.instances i
    let staged := inst.staged.getD ⟨.none, inst.current, 0, false, []⟩
    some { w with instances := Function.update w.instances i { inst with
      staged := some { staged with hasStaged := hasStaged, dirty := dirty } } }
  | .mergeStart i all sameBranch latest latestRemote outcome =>
    let inst := w.instances i
    -- A merge over the links that is in progress is resumed, without a capture.
    if all && inst.merges then some w
    else
      let parents := (mergeRevision found sameBranch latest latestRemote).map fun revision =>
        if sameBranch then (revision, inst.current) else (inst.current, revision)
      some (w.start i .branchMerge (latest.getD 0) parents outcome)
  | .cherryPick i outcome =>
    some (w.start i .cherryPick 0 (some ((w.instances i).current, 0)) outcome)
  | .revert i outcome => some (w.start i .revert 0 (some ((w.instances i).current, 0)) outcome)
  | .commit i revision site => do
    let staged ← (w.instances i).staged
    if !staged.hasStaged && staged.mergeType = .none then none
    else
      let carried := takeMatching w.carry staged.parentSelf staged.parentOther
      return w.finish i revision (site.replay staged.dirty ++ site.replay carried)
  | .abort i mergeType site => do
    let staged ← (w.instances i).staged
    if mergeType = .none ∨ staged.mergeType ≠ mergeType then none
    else return w.finish i (w.instances i).current (site.replay (w.carry.elim [] (·.paths)))

end Lore.Merge
