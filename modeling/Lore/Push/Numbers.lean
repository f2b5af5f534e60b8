import Lore.Push.Offers

/-!
# Numbers — revision numbers along the parents

A push that is stored is numbered from its own parents. A fast-forward merge is numbered from
the head and from the incoming revision, and that one keeps the number its client gave it; and a
parent may be a state that was uploaded and never pushed. So the numbers rise along both parents
in the runs whose pushes build on histories that do (`InOrder`). `Rising` asks that every parent
is read, so that no later upload can slip a state under a history.
-/

namespace Lore.Push

open Lore.Lib Lore.Storage List Option

inductive ServerAction (κ : Type) where
  /-- a client uploads a state -/
  | upload (data : StateData κ)
  | push (offer : Offer)

variable {κ : Type}

/-- What one action does; a push that fails leaves the branch. -/
def serverStep (env : PushEnv κ) (s : Server κ) : ServerAction κ → Option (Server κ)
  | .upload data => some { s with store := s.store ++ [data] }
  | .push offer => some ((env.push s offer).elim s Prod.fst)

/-- The parents a state has. -/
def StateData.parents (data : StateData κ) : List Hash :=
  [data.parentSelf, data.parentOther].filter (!isZero ·)

/-- `parent` is a parent of the state read at `revision`. -/
def HasParent (env : PushEnv κ) (store : StateStore κ) (revision parent : Hash) : Prop :=
  ∃ data, env.read store revision = some data ∧ parent ∈ data.parents

/-- From this revision on down every revision is read and is numbered above its parents. -/
inductive Rising (env : PushEnv κ) (store : StateStore κ) : Hash → Prop
  | intro {revision data} (hread : env.read store revision = some data)
      (hparents : ∀ parent ∈ data.parents, Rising env store parent)
      (hnumber : ∀ parent ∈ data.parents, ∀ above, env.read store parent = some above →
        above.revisionNumber < data.revisionNumber) : Rising env store revision

/-- The largest number there is. -/
def lastNumber : UInt64 := 0xFFFFFFFFFFFFFFFF

/-- The push builds on histories whose numbers rise: those of its parents, and where it is
merged, its own. No state has the largest number yet. -/
def InOrder (env : PushEnv κ) (s : Server κ) : ServerAction κ → Prop
  | .upload _ => True
  | .push offer => ∀ data, env.read s.store offer.latest = some data →
    (∀ parent ∈ data.parents, Rising env s.store parent) ∧
      (∀ t update, env.push s offer = some (t, update) → update.fastForwardMerged = true →
        Rising env s.store offer.latest) ∧
      ∀ stored ∈ s.store, stored.revisionNumber ≠ lastNumber

variable {env : PushEnv κ} {s t : Server κ} {store store' : StateStore κ} {revision : Hash}
  {data : StateData κ}

theorem Rising.read (h : Rising env store revision) :
    ∃ data, env.read store revision = some data := by
  cases h with
  | intro hr => exact ⟨_, hr⟩

theorem Rising.isPrefix (hstore : store <+: store') (h : Rising env store revision) :
    Rising env store' revision := by
  induction h with
  | intro hr hp hn ih =>
    refine .intro (read_of_isPrefix hstore hr) ih fun parent hmem above ha => ?_
    -- The parent was read before, so it is still read as the same state.
    obtain ⟨before, hb⟩ := (hp parent hmem).read
    obtain rfl : before = above := some.inj ((read_of_isPrefix hstore hb).symm.trans ha)
    exact hn parent hmem before hb

theorem Rising.of_hasParent {parent : Hash} (h : Rising env store revision)
    (hpa : HasParent env store revision parent) : Rising env store parent := by
  obtain ⟨data, hd, hmem⟩ := hpa
  cases h with
  | intro hr hp =>
    cases hr.symm.trans hd
    exact hp parent hmem

theorem mem_parents {parent : Hash} :
    parent ∈ data.parents ↔
      (parent = data.parentSelf ∨ parent = data.parentOther) ∧ ¬isZero parent := by
  simp [StateData.parents]

theorem lt_nextRevisionNumber {a b : UInt64} (ha : a ≠ lastNumber) (hb : b ≠ lastNumber) :
    a < nextRevisionNumber a b ∧ b < nextRevisionNumber a b := by
  have hlast : lastNumber.toNat = 2 ^ 64 - 1 := rfl
  rw [ne_eq, ← UInt64.toNat_inj] at ha hb
  have hle : (max a b).toNat = max a.toNat b.toNat := by
    change (if a ≤ b then b else a).toNat = _
    split_ifs with h <;> rw [UInt64.le_iff_toNat_le] at h <;> omega
  have halt := a.toNat_lt
  have hblt := b.toNat_lt
  have hone : (1 : UInt64).toNat = 1 := rfl
  simp only [nextRevisionNumber, UInt64.lt_iff_toNat_lt, UInt64.toNat_add]
  omega

/-- `number` is that of the revision, if it is one, and not the largest. -/
def NumberAt (env : PushEnv κ) (store : StateStore κ) (revision : Hash) (number : UInt64) : Prop :=
  number ≠ lastNumber ∧ (¬isZero revision → ∀ data, env.read store revision = some data →
    data.revisionNumber = number)

section Loaded

variable (hstore : store <+: store')
  (hlast : ∀ stored ∈ store, stored.revisionNumber ≠ lastNumber) {state : State κ}
include hstore hlast

theorem numberAt_of_read (h : env.read store revision = some data) :
    NumberAt env store' revision data.revisionNumber := by
  refine ⟨hlast data (mem_of_read h).1, fun _ above ha => ?_⟩
  rw [some.inj (ha.symm.trans (read_of_isPrefix hstore h))]

theorem numberAt_of_deserialize (h : env.deserialize store revision = some state) :
    NumberAt env store' revision state.revisionNumber := by
  rw [PushEnv.deserialize] at h
  split_ifs at h with hz
  · cases h
    exact ⟨show (0 : UInt64) ≠ lastNumber by decide, (absurd hz)⟩
  · obtain ⟨data, hr, rfl⟩ := map_eq_some_iff.mp h
    exact numberAt_of_read hstore hlast hr

theorem numberAt_of_loadOtherParentState {other}
    (h : env.loadOtherParentState store state = some other) :
    NumberAt env store' state.parentOther (other.elim 0 (·.revisionNumber)) := by
  rw [PushEnv.loadOtherParentState] at h
  split_ifs at h with hz
  · cases h
    exact ⟨show (0 : UInt64) ≠ lastNumber by decide, (absurd hz)⟩
  · obtain ⟨loaded, hl, rfl⟩ := map_eq_some_iff.mp h
    exact numberAt_of_deserialize hstore hlast hl

end Loaded

/-- A stored state is rising when its parents are and it is numbered from them; its number did
not wrap. -/
theorem rising_of_numberAt {a b : UInt64} (hf : CollisionFree env store) (hmem : data ∈ store)
    (hp : ∀ parent ∈ data.parents, Rising env store parent)
    (ha : NumberAt env store data.parentSelf a) (hb : NumberAt env store data.parentOther b)
    (hn : data.revisionNumber = nextRevisionNumber a b) :
    Rising env store (env.hash data) ∧ data.revisionNumber ≠ 0 := by
  obtain ⟨hlS, hlO⟩ := lt_nextRevisionNumber ha.1 hb.1
  rw [← hn] at hlS hlO
  refine ⟨.intro (read_of_mem hf hmem) hp fun parent hpa above hab => ?_, ?_⟩
  · obtain ⟨rfl | rfl, hz⟩ := mem_parents.mp hpa
    · exact ha.2 hz above hab ▸ hlS
    · exact hb.2 hz above hab ▸ hlO
  · intro hw
    exact absurd (hw ▸ hlS) (by simp)

/-- A push in order makes a head whose history rises, and whose number did not wrap. -/
theorem push_rising {offer update} (hpush : env.push s offer = some (t, update))
    (h : isZero s.head ∨ Rising env s.store s.head) (hg : InOrder env s (.push offer))
    (hfr : CollisionFree env t.store) :
    (isZero t.head ∨ Rising env t.store t.head) ∧
      (t.head ≠ s.head → update.revisionNumber ≠ 0) := by
  cases push_cases hpush with
  | kept => exact ⟨h, (absurd rfl)⟩
  | @stored incoming parent other data store hi _ hpa ho hstore hmem hse hsa _
      hn =>
    obtain ⟨hr, -, hlast⟩ := hg _ hi.1
    have hpar : data.parents = incoming.parents := by simp [StateData.parents, hse, hsa]
    obtain ⟨hh, hne⟩ := rising_of_numberAt hfr hmem (fun p hp => (hr p (hpar ▸ hp)).isPrefix hstore)
      (hse ▸ numberAt_of_deserialize hstore hlast hpa)
      (hsa ▸ numberAt_of_loadOtherParentState hstore hlast ho) hn
    exact ⟨.inr hh, fun _ => hne⟩
  | @merged incoming parent content data hi hf hh hne _ hpa hd =>
    obtain ⟨-, hm, hlast⟩ := hg _ hi.1
    have hstore := prefix_append s.store [data]
    have hn : data.revisionNumber =
        nextRevisionNumber parent.revisionNumber incoming.revisionNumber := by rw [hd]; rfl
    have hse : data.parentSelf = s.head := by rw [hd]; rfl
    have ho : data.parentOther = offer.latest := by rw [hd]; rfl
    obtain ⟨hr, hne⟩ := rising_of_numberAt hfr (by simp)
      (by
        intro p hp
        obtain ⟨rfl | rfl, -⟩ := mem_parents.mp hp
        · exact hse ▸ (h.resolve_left hh).isPrefix hstore
        · exact ho ▸ (hm _ _ hpush rfl).isPrefix hstore)
      (hse ▸ numberAt_of_deserialize hstore hlast hpa)
      (ho ▸ numberAt_of_read hstore hlast hi.1) hn
    exact ⟨.inr hr, fun _ => hne⟩

theorem serverStep_cases {action} (h : serverStep env s action = some t) :
    (t.head = s.head ∧ s.store <+: t.store) ∨
      ∃ offer update, action = .push offer ∧ env.push s offer = some (t, update) := by
  cases action with
  | upload data =>
    cases h
    exact .inl ⟨rfl, prefix_append _ _⟩
  | push offer =>
    obtain rfl : (env.push s offer).elim s Prod.fst = t := by simpa [serverStep] using h
    cases hp : env.push s offer with
    | none => exact .inl ⟨rfl, prefix_rfl⟩
    | some result => exact .inr ⟨offer, result.2, rfl, hp⟩

theorem serverStep_rising {action} (hst : serverStep env s action = some t)
    (h : CollisionFree env s.store → isZero s.head ∨ Rising env s.store s.head)
    (hg : InOrder env s action) (hf : CollisionFree env t.store) :
    isZero t.head ∨ Rising env t.store t.head := by
  rcases serverStep_cases hst with ⟨hh, hstore⟩ | ⟨offer, update, rfl, hp⟩
  · rw [hh]
    exact (h (hf.isPrefix hstore)).imp_right (Rising.isPrefix hstore)
  · exact (push_rising hp (h (hf.isPrefix (push_cases hp).store_isPrefix)) hg hf).1

/-- In every run whose pushes are in order, every revision reachable from the head is numbered
above each of its parents, and the next push in order makes no number that wraps. -/
theorem numbers_rise_along_parents (env : PushEnv κ) {actions : List (ServerAction κ)}
    (hstart : isZero s.head ∨ Rising env s.store s.head)
    (hgood : StepsMeet (serverStep env) (InOrder env) s actions)
    (hrun : run (serverStep env) s actions = some t) (hfree : CollisionFree env t.store) :
    (∀ revision data, ¬isZero t.head →
      Relation.ReflTransGen (HasParent env t.store) t.head revision →
      env.read t.store revision = some data → ∀ parent ∈ data.parents, ∃ above,
        env.read t.store parent = some above ∧ above.revisionNumber < data.revisionNumber) ∧
      ∀ offer u update, InOrder env t (.push offer) → env.push t offer = some (u, update) →
        CollisionFree env u.store → u.head ≠ t.head → update.revisionNumber ≠ 0 := by
  have hinv := @run_invariant_of_stepsMeet _ _ _
    (fun u => CollisionFree env u.store → isZero u.head ∨ Rising env u.store u.head) _
    (fun u action v hu hin hst => serverStep_rising hst hu hin) _ _ _ (fun _ => hstart)
    hgood hrun hfree
  refine ⟨fun revision data hh hre hrea parent hp => ?_, ?_⟩
  · have hr : Rising env t.store revision :=
      hre.head_induction_on (motive := fun r _ => Rising env t.store r → _) id
        (fun hp _ ih h => ih (h.of_hasParent hp)) (hinv.resolve_left hh)
    cases hr with
    | intro hd hpa hn =>
      cases hd.symm.trans hrea
      obtain ⟨above, ha⟩ := (hpa parent hp).read
      exact ⟨above, ha, hn parent hp above ha⟩
  · intro offer u update hin hpu hu
    exact (push_rising hpu hinv hin hu).2

def secondPush : List (ServerAction Bool) := [.upload ⟨201, 0, 2, false⟩, .push ⟨⟨202, false⟩, false⟩]

theorem numbers_rise_secondPush : ∃ t,
    run (serverStep smallEnv) ⟨201, [⟨0, 0, 1, false⟩]⟩ secondPush = some t ∧ t.head = 202 ∧
      ∃ above, smallEnv.read t.store 201 = some above ∧ above.revisionNumber < 2 := by
  have hf : Rising smallEnv [⟨0, 0, 1, false⟩] 201 := .intro rfl nofun nofun
  have hin : StepsMeet (serverStep smallEnv) (InOrder smallEnv) ⟨201, [⟨0, 0, 1, false⟩]⟩
      secondPush := by
    refine ⟨trivial, ?_⟩
    rintro _ ⟨⟩
    refine ⟨?_, fun _ _ => trivial⟩
    rintro _ ⟨⟩
    refine ⟨fun parent hp => ?_, ?_, by decide⟩
    · obtain rfl : parent = 201 := mem_singleton.mp hp
      exact hf.isPrefix (prefix_append _ _)
    · rintro _ _ ⟨⟩ hmerged
      cases hmerged
  refine ⟨_, rfl, rfl, ?_⟩
  exact (numbers_rise_along_parents smallEnv (.inr hf) hin rfl
    (by unfold CollisionFree; decide)).1 202 _ (by decide) .refl rfl 201 (by decide)

/-- The second revision goes onto the first; then a revision numbered 0 that was made on the
first is merged. -/
def lateNumber : List (ServerAction Bool) :=
  secondPush ++ [.upload ⟨201, 0, 0, true⟩, .push ⟨⟨100, true⟩, false⟩]

theorem merged_number_not_above_parent : ∃ t,
    run (serverStep smallEnv) ⟨201, [⟨0, 0, 1, false⟩]⟩ lateNumber = some t ∧
      CollisionFree smallEnv t.store ∧ HasParent smallEnv t.store t.head 100 ∧
      ∃ data above, smallEnv.read t.store 100 = some data ∧ 201 ∈ data.parents ∧
        smallEnv.read t.store 201 = some above ∧ ¬above.revisionNumber < data.revisionNumber := by
  refine ⟨_, rfl, by unfold CollisionFree; decide, ⟨_, rfl, by decide⟩, _, _, rfl, by decide, rfl, ?_⟩
  decide

end Lore.Push
