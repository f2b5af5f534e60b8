import Lore.Storage.LocalStoreSpec

/-!
# Obliterated — an obliterated association stays obliterated

A tombstone is an entry like any other: it has to outlive every step that rebuilds,
rewrites or rereads its bucket. `Entombed` says where it is: in its bucket if that is
loaded, and in its file at the level in memory unless the bucket still has to be flushed.
Two steps take it away. A capacity eviction in a store that does not protect local
fragments takes tombstones first, and another obliteration of the same association that
fails to write its bucket puts the old entry back.
-/

namespace Lore.Storage

open Lore.Lib List Function

/-! ## The tombstone in its group -/

/-- The file of the entry's bucket, at the level in memory, holds the entry. -/
def InFile (group : ImmutableStoreGroup) (e : ImmutableStoreEntry) : Prop :=
  group.committedLevel = group.bucketCount
  ∧ e ∈ (group.file (bucketIndexFor e.address.hash group.bucketCount)).slots

/-- The entry is in its bucket where that is loaded, and in its file where the bucket has
no change to flush or is still to be loaded. -/
structure Entombed (group : ImmutableStoreGroup) (e : ImmutableStoreEntry) : Prop where
  inBucket : (group.slot (bucketIndexFor e.address.hash group.bucketCount)).deserialized = true →
    e ∈ (group.slot (bucketIndexFor e.address.hash group.bucketCount)).bucket.slots
  inFile : (group.slot (bucketIndexFor e.address.hash group.bucketCount)).dirty = false
    ∨ (group.slot (bucketIndexFor e.address.hash group.bucketCount)).deserialized = false →
      InFile group e

section Steps

variable {settings : ImmutableStoreSettings} {group after : ImmutableStoreGroup}
  {action : GroupAction} {e : ImmutableStoreEntry}

section

variable (h : Entombed group e)
include h

theorem Entombed.of_other (hco : after.bucketCount = group.bucketCount)
    (hsl : after.slot (bucketIndexFor e.address.hash group.bucketCount)
      = group.slot (bucketIndexFor e.address.hash group.bucketCount))
    (hf : InFile group e → InFile after e) : Entombed after e := by
  constructor <;> rw [hco, hsl]
  · exact h.inBucket
  · exact fun hc => hf (h.inFile hc)

theorem Entombed.deserialize (hwell : GroupWell group) (ht : e.data.isObliterated = true) {index}
    (hu : (group.slot index).deserialized = false) (lost : Option (List UInt32)) (upgraded : Bool) :
    Entombed (group.deserialize index lost upgraded) e := by
  by_cases hi : bucketIndexFor e.address.hash group.bucketCount = index
  · subst hi
    have hf := h.inFile (.inr hu)
    obtain ⟨_, he⟩ := hwell.readFile_evolves
      (bucketIndexFor e.address.hash group.bucketCount) lost (fun _ => False) (fun _ => False)
    refine ⟨fun _ => ?_, fun _ => hf⟩
    simpa [ImmutableStoreGroup.deserialize] using he.tombstones e hf.2 ht id
  · exact h.of_other rfl (update_of_ne hi _ _) id

theorem Entombed.setBucket {index bucket} (hl : (group.slot index).deserialized = true)
    (hk : e ∈ (group.slot index).bucket.slots → e ∈ bucket.slots) (marks : Bool) :
    Entombed (group.setBucket index bucket marks) e := by
  by_cases hi : bucketIndexFor e.address.hash group.bucketCount = index
  · subst hi
    refine ⟨fun _ => ?_, fun hc => ?_⟩
    · simpa [ImmutableStoreGroup.setBucket] using hk (h.inBucket hl)
    · simp only [ImmutableStoreGroup.setBucket, update_self, Bool.or_eq_false_iff,
        Bool.true_eq_false, or_false] at hc
      exact h.inFile (.inl hc.1)
  · exact h.of_other rfl (update_of_ne hi _ _) id

theorem Entombed.fanOut (hwell : GroupWell group) {target}
    (ht : target ∈ levelLadder) (hl : ∀ i < group.bucketCount, (group.slot i).deserialized = true) :
    Entombed (group.fanOut target) e := by
  have hlt := bucketIndexFor_lt ht e.address.hash
  have hold := bucketIndexFor_lt hwell.level e.address.hash
  obtain ⟨ho, hmem⟩ := hwell.mem_fanOut hlt e
  have hnew := hmem.mpr ⟨⟨_, hold, h.inBucket (hl _ hold)⟩, rfl⟩
  refine ⟨fun _ => hnew, fun hc => ?_⟩
  -- the bucket holds the tombstone, so the fan-out marked it
  have hco : 0 < ((group.fanOut target).slot
      (bucketIndexFor e.address.hash target)).bucket.entry.length := by
    rw [← Indexed.length_slots ho.indexed]
    exact length_pos_of_mem hnew
  simp only [ImmutableStoreGroup.fanOut, if_pos hlt] at hc hco
  rcases hc with hc | hu
  · simp [hco] at hc
  · cases hu

theorem Entombed.flushBucket {index} (hlo : (group.slot index).deserialized = true)
    (hl : group.committedLevel = group.bucketCount) : Entombed (group.flushBucket index) e := by
  by_cases hi : bucketIndexFor e.address.hash group.bucketCount = index
  · subst hi
    have hmem := h.inBucket hlo
    refine ⟨fun _ => ?_, fun _ => ⟨hl, ?_⟩⟩
    · simpa [ImmutableStoreGroup.flushBucket] using hmem
    · simpa [ImmutableStoreGroup.flushBucket] using hmem
  · refine h.of_other rfl (update_of_ne hi _ _) fun hf => ⟨hl, ?_⟩
    simpa [ImmutableStoreGroup.flushBucket, update_of_ne hi] using hf.2

end

section

variable (hwell : GroupWell group) (h : Entombed group e)
include hwell h

theorem Entombed.commit
    (hl : group.committedLevel ≠ group.bucketCount) : Entombed group.commit e := by
  have hlt := bucketIndexFor_lt hwell.level e.address.hash
  -- the level is not on disk, so the bucket of the tombstone is loaded and marked
  have hd : (group.slot (bucketIndexFor e.address.hash group.bucketCount)).dirty = true := by
    rw [← Bool.not_eq_false]
    exact fun hc => hl (h.inFile (.inl hc)).1
  have hr : (group.slot (bucketIndexFor e.address.hash group.bucketCount)).deserialized
      = true := by
    rw [← Bool.not_eq_false]
    exact fun hu => hl (h.inFile (.inr hu)).1
  have hmem := h.inBucket hr
  refine ⟨fun _ => ?_, fun _ => ⟨rfl, ?_⟩⟩
  · simpa [ImmutableStoreGroup.commit, hlt] using hmem
  · simpa [ImmutableStoreGroup.commit, hlt, hd] using hmem

theorem Entombed.invalidate (hcl : ∀ i < fanOutLevelMax, (group.slot i).dirty = false) :
    Entombed (group.invalidate settings) e := by
  have hlt := bucketIndexFor_lt hwell.level e.address.hash
  have hmax := levelLadder_le hwell.level
  obtain ⟨hl, hf⟩ := h.inFile (.inl (hcl _ (by omega)))
  have hpos := levelLadder_pos hwell.level
  have hc : (group.invalidate settings).bucketCount = group.bucketCount := by
    simp only [ImmutableStoreGroup.invalidate, hl]
    rw [if_neg (Nat.ne_of_gt hpos)]
  refine ⟨fun hlo => ?_, fun _ => ⟨hl.trans hc.symm, ?_⟩⟩
  · cases hlo
  · rw [hc]
    exact hf

/-- Every step that does not store or copy to the association, and does not disturb its
tombstone in its bucket, leaves it where it has to be. -/
theorem Entombed.step (hto : e.data.isObliterated = true) (hr : ¬ action.renews e.key)
    (hd : action.disturbs e.key → ∃ index inner, action = .onBucket index inner
      ∧ index ≠ bucketIndexFor e.address.hash group.bucketCount)
    (hca : GroupCase settings group action after) : Entombed after e := by
  cases hca with
  | loaded _ hu => exact h.deserialize hwell hto hu _ _
  | @changed _ index _ _ hc =>
    apply h.setBucket hc.loaded
    intro he
    apply hc.evolves.tombstones e he hto
    rintro (hre | hdi)
    · exact hr hre
    · obtain ⟨i, inner, ha, ho⟩ := hd hdi
      rw [hc.indexed i inner ha] at ho
      exact ho (hwell.placed index e he).symm
  | fannedOut hl ht _ => exact h.fanOut hwell ht hl
  | flushed _ hl hle => exact h.flushBucket hl hle
  | committed hle => exact h.commit hwell hle
  | reloaded hcl => exact h.invalidate hwell hcl

end

end Steps

/-! ## Tombstones and marks -/

/-- The tombstones of a loaded bucket with nothing to flush are in its file. -/
def TombstonesFlushed (group : ImmutableStoreGroup) : Prop :=
  ∀ i, (group.slot i).deserialized = true → (group.slot i).dirty = false →
    ∀ e ∈ (group.slot i).bucket.slots, e.data.isObliterated = true →
      group.committedLevel = group.bucketCount ∧ e ∈ (group.file i).slots

section Flushed

variable {settings : ImmutableStoreSettings} {group after : ImmutableStoreGroup}
  {action : GroupAction}

section

variable (h : TombstonesFlushed group)
include h

theorem TombstonesFlushed.entombed (hwell : GroupWell group) {index}
    (hl : (group.slot index).deserialized = true) {e} (he : e ∈ (group.slot index).bucket.slots)
    (hobl : e.data.isObliterated = true) : Entombed group e := by
  have hi := hwell.placed index e he
  subst hi
  refine ⟨fun _ => he, fun hc => ?_⟩
  rcases hc with hc | hu
  · exact h _ hl hc e he hobl
  · rw [hl] at hu
    cases hu

theorem TombstonesFlushed.setBucket {index bucket marks}
    (hch : ChangedBucket group action index bucket marks) :
    TombstonesFlushed (group.setBucket index bucket marks) := by
  intro i hl hc e he hobl
  by_cases hi : i = index
  · subst hi
    simp only [ImmutableStoreGroup.setBucket, update_self, Bool.or_eq_false_iff] at hc he
    have hb : e ∈ (group.slot i).bucket.slots := by
      cases hm : marks with
      | false => exact hch.unmarked hm e he hobl
      | true =>
        -- marked steps that leave the bucket clean left it as it was
        rw [hm, Bool.true_and, decide_eq_false_iff_not, not_not] at hc
        rwa [hc.2] at he
    exact h i hch.loaded hc.1 e hb hobl
  · simp only [ImmutableStoreGroup.setBucket, update_of_ne hi] at hl hc he
    exact h i hl hc e he hobl

theorem TombstonesFlushed.deserialize (hwell : GroupWell group)
    {index} (hin : index < group.bucketCount) (hu : (group.slot index).deserialized = false)
    (lost : Option (List UInt32)) (upgraded : Bool) :
    TombstonesFlushed (group.deserialize index lost upgraded) := by
  intro i hl hc e he hobl
  by_cases hi : i = index
  · subst hi
    simp only [ImmutableStoreGroup.deserialize, update_self, Bool.or_eq_false_iff,
      decide_eq_false_iff_not, not_not] at hc he
    rw [hc.2] at he
    refine ⟨?_, he⟩
    rcases hwell.readable i hin hu with hle | hem
    · exact hle
    · rw [hem] at he
      exact absurd he not_mem_nil
  · simp only [ImmutableStoreGroup.deserialize, update_of_ne hi] at hl hc he
    exact h i hl hc e he hobl

omit h in
theorem TombstonesFlushed.fanOut (hwell : GroupWell group) {target}
    (hg : group.bucketCount < target) : TombstonesFlushed (group.fanOut target) := by
  intro i _ hc e he _
  by_cases hi : i < target
  · -- a bucket that holds an entry was marked
    have ho := (hwell.mem_fanOut hi e).1
    have hco : 0 < ((group.fanOut target).slot i).bucket.entry.length := by
      rw [← Indexed.length_slots ho.indexed]
      exact length_pos_of_mem he
    simp only [ImmutableStoreGroup.fanOut, if_pos hi] at hc hco
    simp [hco] at hc
  · simp only [ImmutableStoreGroup.fanOut, if_neg hi] at he
    exact absurd he (hwell.slot_empty (by omega) e)

theorem TombstonesFlushed.flushBucket {index} (hle : group.committedLevel = group.bucketCount) :
    TombstonesFlushed (group.flushBucket index) := by
  intro i hl hc e he hobl
  refine ⟨hle, ?_⟩
  by_cases hi : i = index
  · subst hi
    simpa [ImmutableStoreGroup.flushBucket] using he
  · simp only [ImmutableStoreGroup.flushBucket, update_of_ne hi] at hl hc he ⊢
    exact (h i hl hc e he hobl).2

theorem TombstonesFlushed.commit (hwell : GroupWell group)
    (hle : group.committedLevel ≠ group.bucketCount) : TombstonesFlushed group.commit := by
  intro i hl _ e he hobl
  have hb : (group.commit.slot i).bucket = (group.slot i).bucket
      ∧ (group.commit.slot i).deserialized = (group.slot i).deserialized := by
    simp only [ImmutableStoreGroup.commit]
    split <;> exact ⟨rfl, rfl⟩
  rw [hb.1] at he
  rw [hb.2] at hl
  have hlt : i < group.bucketCount := by
    have hi := bucketIndexFor_lt hwell.level e.address.hash
    rwa [hwell.placed i e he] at hi
  have hd : (group.slot i).dirty = true := by
    rw [← Bool.not_eq_false]
    exact fun hc => hle (h i hl hc e he hobl).1
  simpa [ImmutableStoreGroup.commit, hlt, hd] using he

theorem TombstonesFlushed.step (hwell : GroupWell group)
    (hca : GroupCase settings group action after) : TombstonesFlushed after := by
  cases hca with
  | loaded hi hu => exact h.deserialize hwell hi hu _ _
  | changed hc => exact h.setBucket hc
  | fannedOut _ _ hg => exact .fanOut hwell hg
  | flushed _ _ hl => exact h.flushBucket hl
  | committed hl => exact h.commit hwell hl
  | reloaded => exact fun _ _ _ _ he => absurd he not_mem_nil

end

end Flushed

/-! ## The store -/

/-- Every group of the store is in order. -/
structure StoreWell (store : LocalImmutableStore) : Prop where
  well : ∀ i, GroupWell (store i)
  flushed : ∀ i, TombstonesFlushed (store i)

section Store

variable {settings : ImmutableStoreSettings} {store after : LocalImmutableStore}

theorem StoreWell.new (settings : ImmutableStoreSettings) :
    StoreWell (LocalImmutableStore.new settings) where
  well _ := .new settings
  flushed _ _ hl := nomatch hl

theorem storeStep_case {index action}
    (hst : storeStep settings store (index, action) = some after) :
    ∃ group, groupStep settings (store index) action = some group
      ∧ after = update store index group
      ∧ ∀ hash, action.hash = some hash → groupIndex hash = index := by
  obtain ⟨hcan, hst⟩ := Option.ite_none_right_eq_some.mp hst
  obtain ⟨group, hg, rfl⟩ := Option.map_eq_some_iff.mp hst
  refine ⟨group, hg, rfl, fun hash hh => ?_⟩
  have hn := hcan.2
  rw [hh] at hn
  simpa using hn

theorem StoreWell.step (h : StoreWell store) {step}
    (hst : storeStep settings store step = some after) : StoreWell after := by
  obtain ⟨index, action⟩ := step
  obtain ⟨group, hg, rfl, _⟩ := storeStep_case hst
  have hc := groupStep_case (h.well index) hg
  constructor
  · intro i
    by_cases hi : i = index
    · subst hi
      simpa using (h.well i).step hc
    · simpa [hi] using h.well i
  · intro i
    by_cases hi : i = index
    · subst hi
      simpa using (h.flushed i).step (h.well i) hc
    · simpa [hi] using h.flushed i

end Store

/-! ## What is answered for a tombstone -/

/-- Nothing the store answers for the association is a match. -/
structure NoMatch (settings : ImmutableStoreSettings) (bucket : ImmutableStoreBucket)
    (partition : Partition) (address : Address) : Prop where
  query : query settings bucket partition address = .default
  getMetadata : getMetadata settings bucket partition address = .default
  get : ∀ packfiles, get settings packfiles bucket partition address
    = .error (.storage (.addressNotFound address))
  getInto : ∀ packfiles capacity, getInto settings packfiles bucket partition address capacity
    = .error (.storage (.addressNotFound address))

theorem noMatch_of_tombstone (settings : ImmutableStoreSettings) {bucket} (h : Ordered bucket) {e}
    (he : e ∈ bucket.slots) (hobl : e.data.isObliterated = true) {partition address}
    (hkey : e.key = sortKey partition address) : NoMatch settings bucket partition address := by
  have hf := find_of_mem h he hkey
  have hr : e.data.reported.isObliterated = true := by
    rw [isObliterated_reported, hobl]
  constructor
  · simp [Lore.Storage.query, hf, hr]
  · simp [Lore.Storage.getMetadata, hf, hr]
  · intro packfiles
    simp [Lore.Storage.get, hf, hr]
  · intro packfiles capacity
    simp [Lore.Storage.getInto, hf, hr]

/-! ## Runs -/

/-- The steps that leave the tombstone of an association alone: no capacity eviction of its
bucket without protection, and no obliteration of it undone. -/
def KeepsTombstone (partition : Partition) (address : Address) (store : LocalImmutableStore)
    (step : Nat × GroupAction) : Prop :=
  step.1 = groupIndex address.hash →
    match step.2 with
    | .onBucket index (.evictUpTo _ protect) =>
        protect = true ∨ index ≠ bucketIndexFor address.hash (store step.1).bucketCount
    | .untombstone partition' address' _ => ¬ (partition' = partition ∧ address' = address)
    | _ => True

/-- `obliterate_one` found or left a tombstone. -/
def Obliterates (settings : ImmutableStoreSettings) (before after : LocalImmutableStore)
    (partition : Partition) (address : Address) : Prop :=
  ∃ compactionStopped result bucket,
    let index := bucketIndexFor address.hash (before (groupIndex address.hash)).bucketCount
    tombstoneEntry ((before (groupIndex address.hash)).slot index).bucket partition address
      compactionStopped = .ok (result, bucket)
    ∧ result ≠ .zeroOnceCompactionStops
    ∧ storeStep settings before (groupIndex address.hash,
      .onBucket index (.tombstone partition address compactionStopped)) = some after

section Runs

variable {settings : ImmutableStoreSettings} {before after store : LocalImmutableStore}
  {partition : Partition} {address : Address}

/-- A step under the condition that does not name the association keeps its tombstone. -/
theorem entombed_step (hwell : StoreWell store) {e} (ht : e.data.isObliterated = true)
    (h : Entombed (store (groupIndex e.address.hash)) e) {step}
    (hk : KeepsTombstone e.partition e.address store step)
    (hr : ¬ step.2.renews (sortKey e.partition e.address))
    (hst : storeStep settings store step = some after) :
    Entombed (after (groupIndex e.address.hash)) e := by
  obtain ⟨index, action⟩ := step
  obtain ⟨group, hg, rfl, _⟩ := storeStep_case hst
  by_cases hi : groupIndex e.address.hash = index
  · subst hi
    rw [update_self]
    refine h.step (hwell.well _) ht hr (fun hd => ?_) (groupStep_case (hwell.well _) hg)
    have hk := hk rfl
    -- the step disturbs no tombstone, or not in this bucket
    cases action with
    | onBucket i inner =>
      cases inner with
      | evictUpTo cutoff protect =>
        have hpr : protect = false := hd
        subst hpr
        exact ⟨i, _, rfl, hk.resolve_left (fun h => nomatch h)⟩
      | storeEntry | copy | tombstone | evictAccessedBy | repoint | stamp =>
        exact absurd hd id
    | untombstone partition' address' original =>
      have hkey : e.key = sortKey partition' address' := hd
      obtain ⟨ha, hp⟩ := key_eq_iff.mp hkey
      exact absurd ⟨hp.symm, ha.symm⟩ hk
    | load | healPayload | healFragment | fanOut | flushBucket | commit | reload =>
      exact absurd hd id
  · rw [update_of_ne hi]
    exact h

theorem mem_tombstoneEntry {bucket entombed} (h : Ordered bucket)
    (hpu : PureTombstones bucket.slots) {compactionStopped result}
    (ht : tombstoneEntry bucket partition address compactionStopped = .ok (result, entombed))
    (hr : result ≠ .zeroOnceCompactionStops) :
    (⟨address, partition, .tombstone⟩ : ImmutableStoreEntry) ∈ entombed.slots := by
  obtain ⟨slot, e, hsl, hkey, hc, _⟩ := tombstoneEntry_case h ht
  have he : withData .tombstone e = ⟨address, partition, .tombstone⟩ := by
    obtain ⟨ha, hp⟩ := key_eq_iff.mp hkey
    rw [withData, ImmutableStoreEntry.mapData, ha, hp]
  cases hc with
  | already hobl =>
    have hmem := mem_of_getElem? hsl
    have hd := hpu e hmem hobl
    rw [← he, ← hd]
    exact hmem
  | waits => exact absurd rfl hr
  | entombed _ _ _ haf =>
    rw [haf, ← he]
    exact mem_modify_at hsl _

theorem Obliterates.entombed (hwell : StoreWell before)
    (h : Obliterates settings before after partition address) :
    Entombed (after (groupIndex address.hash)) ⟨address, partition, .tombstone⟩ := by
  obtain ⟨stopped, result, bucket, ht, hr, hst⟩ := h
  have ha := hwell.step hst
  obtain ⟨group, hg, rfl, _⟩ := storeStep_case hst
  rw [update_self]
  have hgW := ha.well (groupIndex address.hash)
  have hgF := ha.flushed (groupIndex address.hash)
  rw [update_self] at hgW hgF
  obtain ⟨hcan, hg⟩ := Option.ite_none_right_eq_some.mp hg
  simp only [bucketStep, ht] at hg
  cases hg
  have hb := hwell.well (groupIndex address.hash)
  have hmem := mem_tombstoneEntry (hb.ordered _) (hb.pure _) ht hr
  refine @TombstonesFlushed.entombed _ hgF hgW (bucketIndexFor address.hash
    (before (groupIndex address.hash)).bucketCount) ?_ _ ?_ ImmutableData.isObliterated_tombstone
  · simp [ImmutableStoreGroup.setBucket]
  · simpa [ImmutableStoreGroup.setBucket] using hmem

/-- Once an association is obliterated, no read answers a match for it until a store with a
payload or a copy names it, in every run whose steps leave its tombstone alone. -/
theorem obliterated_stays_obliterated {earlier later : List (Nat × GroupAction)}
    (hearlier : run (storeStep settings) (.new settings) earlier = some before)
    (hobliterates : Obliterates settings before after partition address)
    (hlater : run (storeStep settings) after later = some store)
    (hunnamed : ∀ step ∈ later, ¬ step.2.renews (sortKey partition address))
    (hkeeps : StepsMeet (storeStep settings) (KeepsTombstone partition address) after later)
    {bucket : ImmutableStoreBucket} (hreads : ReadsFrom store address.hash bucket) :
    NoMatch settings bucket partition address := by
  have hb : StoreWell before :=
    run_invariant _ (fun _ _ _ h hste => h.step hste) (.new settings) hearlier
  have ha : StoreWell after := by
    obtain ⟨_, _, _, _, _, hste⟩ := hobliterates
    exact hb.step hste
  have hst : StoreWell after
      ∧ Entombed (after (groupIndex address.hash)) ⟨address, partition, .tombstone⟩ :=
    ⟨ha, hobliterates.entombed hb⟩
  have hunnamed' : StepsMeet (storeStep settings)
      (fun _ step => ¬ step.2.renews (sortKey partition address)) after later :=
    stepsMeet_of_forall _ (fun step hste _ => hunnamed step hste) after
  have hp : ∀ s step t,
      (StoreWell s ∧ Entombed (s (groupIndex address.hash)) ⟨address, partition, .tombstone⟩) →
      (KeepsTombstone partition address s step ∧ ¬ step.2.renews (sortKey partition address)) →
      storeStep settings s step = some t →
      StoreWell t ∧ Entombed (t (groupIndex address.hash)) ⟨address, partition, .tombstone⟩ := by
    intro s step t hinv hgo hste
    exact ⟨hinv.1.step hste, entombed_step (e := ⟨address, partition, .tombstone⟩) hinv.1
      ImmutableData.isObliterated_tombstone hinv.2 hgo.1 hgo.2 hste⟩
  obtain ⟨hwell, he⟩ := run_invariant_of_stepsMeet (storeStep settings) hp hst
    (hkeeps.and _ hunnamed') hlater
  have hg := hwell.well (groupIndex address.hash)
  cases hreads with
  | loaded hl =>
    exact noMatch_of_tombstone settings (hg.ordered _) (he.inBucket hl)
      ImmutableData.isObliterated_tombstone rfl
  | file lost hu =>
    obtain ⟨_, hf⟩ := he.inFile (.inr hu)
    obtain ⟨ho, hev⟩ := hg.readFile_evolves _ lost (fun _ => False) (fun _ => False)
    exact noMatch_of_tombstone settings ho (hev.tombstones _ hf
      ImmutableData.isObliterated_tombstone id) ImmutableData.isObliterated_tombstone rfl

end Runs

/-- The settings of a client that does not protect local fragments. -/
def unprotecting : ImmutableStoreSettings :=
  ⟨false, false, false, true, 1, 1000, one_mem_levelLadder⟩

/-- A payload stored under two partitions. -/
def storedTwice : List (Nat × GroupAction) :=
  [(0, .load 0 none false),
    (0, .onBucket 0 (.storeEntry 1#128 ⟨1#256, 1#128⟩ ⟨0#32, 4, 4⟩ .unwritten false 1)),
    (0, .onBucket 0 (.storeEntry 1#128 ⟨1#256, 1#128⟩ ⟨0#32, 4, 4⟩ (.written ⟨1, 0⟩) false 1)),
    (0, .onBucket 0 (.storeEntry 2#128 ⟨1#256, 2#128⟩ ⟨0#32, 4, 4⟩ .unwritten false 1))]

/-- A capacity eviction, a flush and a reload. -/
def evictedAndReloaded : List (Nat × GroupAction) :=
  [(0, .onBucket 0 (.evictUpTo 0 true)), (0, .commit), (0, .reload)]

set_option maxRecDepth 8000 in
theorem obliterated_stays_obliterated_reloaded :
    ∃ before after store, run (storeStep clientSettings) (.new clientSettings) storedTwice = some before
      ∧ Obliterates clientSettings before after 2#128 ⟨1#256, 2#128⟩
      ∧ run (storeStep clientSettings) after evictedAndReloaded = some store
      ∧ ReadsFrom store 1#256 ((store 0).file 0)
      ∧ NoMatch clientSettings ((store 0).file 0) 2#128 ⟨1#256, 2#128⟩ := by
  refine ⟨_, _, _, rfl, ⟨false, .kept, _, rfl, by decide, rfl⟩, rfl, .file none rfl, ?_⟩
  have hrun : run (storeStep clientSettings) (.new clientSettings) storedTwice = some _ := rfl
  refine obliterated_stays_obliterated hrun ⟨false, .kept, _, rfl, by decide, rfl⟩
    (rfl : run (storeStep clientSettings) _ evictedAndReloaded = some _) ?_ ?_ (.file none rfl)
  · intro step hst
    simp only [evictedAndReloaded, mem_cons, not_mem_nil, or_false] at hst
    rcases hst with rfl | rfl | rfl <;> exact id
  · apply stepsMeet_of_forall
    intro step hst s _
    simp only [evictedAndReloaded, mem_cons, not_mem_nil, or_false] at hst
    rcases hst with rfl | rfl | rfl
    · exact .inl rfl
    · trivial
    · trivial

/-- Capacity eviction takes the tombstone, whose last access is 0, before anything else; a
read of the obliterated association then finds the other one. -/
theorem evicted_tombstone_matches_again :
    ∃ before after store bucket,
      run (storeStep unprotecting) (.new unprotecting) storedTwice = some before
      ∧ Obliterates unprotecting before after 2#128 ⟨1#256, 2#128⟩
      ∧ run (storeStep unprotecting) after [(0, .onBucket 0 (.evictUpTo 0 false))] = some store
      ∧ ReadsFrom store 1#256 bucket
      ∧ (query unprotecting bucket 2#128 ⟨1#256, 2#128⟩).matchMade = .matchHash
      ∧ (getMetadata unprotecting bucket 2#128 ⟨1#256, 2#128⟩).matchMade = .matchHash := by
  refine ⟨_, _, _, _, rfl, ⟨false, .kept, _, rfl, by decide, rfl⟩, rfl, .loaded rfl, ?_⟩
  decide

end Lore.Storage
