import Lore.Storage.BucketRun

/-!
# Evolves — which entries a step leaves and which it makes

Two facts hold of every change of a bucket, whatever becomes of the payloads. A tombstone
stays exactly as it is unless a store with a payload or a copy names its association, or
an eviction that protects nothing takes it. And an association has an entry after the
step only if it had one before, or the step stored or copied to it.
-/

namespace Lore.Storage

open Lore.Lib List Option

/-- `after` comes from `before` by a step that may replace tombstones at the keys of
`renews` and adds entries at the keys of `adds` only. -/
structure Evolves (before after : List ImmutableStoreEntry) (renews adds : Nat → Prop) : Prop where
  tombstones : ∀ e ∈ before, e.data.isObliterated = true → ¬ renews e.key → e ∈ after
  origins : ∀ e ∈ after, (∃ d ∈ before, d.key = e.key) ∨ adds e.key
  marked : ∀ e ∈ after, e.data.isObliterated = true → e.data = .tombstone ∨ e ∈ before

/-- Tombstones hold nothing but their mark. -/
def PureTombstones (slots : List ImmutableStoreEntry) : Prop :=
  ∀ e ∈ slots, e.data.isObliterated = true → e.data = .tombstone

section Rules

variable {before mid after : List ImmutableStoreEntry} {renews adds : Nat → Prop}

theorem Evolves.refl (slots : List ImmutableStoreEntry) (renews adds : Nat → Prop) :
    Evolves slots slots renews adds where
  tombstones _ he _ _ := he
  origins e he := .inl ⟨e, he, rfl⟩
  marked _ he _ := .inr he

theorem Evolves.trans (h : Evolves before mid renews adds) (h' : Evolves mid after renews adds) :
    Evolves before after renews adds where
  tombstones e he hobl hnot := h'.tombstones e (h.tombstones e he hobl hnot) hobl hnot
  origins e he := by
    rcases h'.origins e he with ⟨d, hd, hkey⟩ | ha
    · rcases h.origins d hd with ⟨c, hc, hkey'⟩ | ha
      · exact .inl ⟨c, hc, hkey'.trans hkey⟩
      · exact .inr (hkey ▸ ha)
    · exact .inr ha
  marked e he hobl := by
    rcases h'.marked e he hobl with hda | hmid
    · exact .inl hda
    · exact h.marked e hmid hobl

theorem PureTombstones.evolves (h : PureTombstones before)
    (hev : Evolves before after renews adds) : PureTombstones after := by
  intro e he hobl
  rcases hev.marked e he hobl with hd | hb
  · exact hd
  · exact h e hb hobl

theorem PureTombstones.live (h : PureTombstones before) {e} (he : e ∈ before)
    (hp : e.data.packFile ≠ 0) : e.data.isObliterated = false := by
  rw [← Bool.not_eq_true]
  intro hobl
  rw [h e he hobl] at hp
  exact hp rfl

variable {slots : List ImmutableStoreEntry}

theorem Evolves.modify {slot d} {f : ImmutableStoreEntry → ImmutableStoreEntry}
    (hsl : slots[slot]? = some d) (hkey : (f d).key = d.key)
    (ht : d.data.isObliterated = true → renews d.key ∨ f d = d)
    (hm : (f d).data.isObliterated = true → (f d).data = .tombstone ∨ f d = d) :
    Evolves slots (slots.modify slot f) renews adds where
  tombstones e he hobl hnot := by
    by_cases heq : e = d
    · subst heq
      rcases ht hobl with hr | hsa
      · exact absurd hr hnot
      · have hmem := mem_modify_at hsl f
        rwa [hsa] at hmem
    · exact mem_modify_of_ne hsl he heq f
  origins e he := by
    rcases mem_modify_cases hsl he with hk | rfl
    · exact .inl ⟨e, hk, rfl⟩
    · exact .inl ⟨d, mem_of_getElem? hsl, hkey.symm⟩
  marked e he hobl := by
    rcases mem_modify_cases hsl he with hk | rfl
    · exact .inr hk
    · rcases hm hobl with hd | hsa
      · exact .inl hd
      · rw [hsa]
        exact .inr (mem_of_getElem? hsl)

theorem Evolves.insert {start} (hst : start ≤ slots.length) {e} (ha : adds e.key)
    (hl : e.data.isObliterated = false) : Evolves slots (slots.insertIdx start e) renews adds where
  tombstones d hd _ _ := by
    rw [mem_insertIdx hst]
    exact .inr hd
  origins d hd := by
    rw [mem_insertIdx hst] at hd
    rcases hd with rfl | hd
    · exact .inr ha
    · exact .inl ⟨d, hd, rfl⟩
  marked d hd hobl := by
    rw [mem_insertIdx hst] at hd
    rcases hd with rfl | hd
    · rw [hl] at hobl
      cases hobl
    · exact .inr hd

theorem Evolves.filter {keep : ImmutableStoreEntry → Bool}
    (hk : ∀ e ∈ slots, e.data.isObliterated = true → ¬ renews e.key → keep e = true) :
    Evolves slots (slots.filter keep) renews adds where
  tombstones e he hobl hnot := mem_filter.mpr ⟨he, hk e he hobl hnot⟩
  origins e he := .inl ⟨e, mem_of_mem_filter he, rfl⟩
  marked _ he _ := .inr (mem_of_mem_filter he)

theorem Evolves.map {f : ImmutableStoreEntry → ImmutableStoreEntry} (hkey : ∀ e, (f e).key = e.key)
    (ht : ∀ e ∈ slots, e.data.isObliterated = true → f e = e)
    (hl : ∀ e, (f e).data.isObliterated = e.data.isObliterated) :
    Evolves slots (slots.map f) renews adds where
  tombstones e he hobl _ := mem_map.mpr ⟨e, he, ht e he hobl⟩
  origins e he := by
    obtain ⟨d, hd, rfl⟩ := mem_map.mp he
    exact .inl ⟨d, hd, (hkey d).symm⟩
  marked e he hobl := by
    obtain ⟨d, hd, rfl⟩ := mem_map.mp he
    rw [hl] at hobl
    rw [ht d hd hobl]
    exact .inr hd

theorem deduplicateEntry_of_obliterated {data e} (hobl : e.data.isObliterated = true) :
    deduplicateEntry data e = e := by
  unfold deduplicateEntry
  rw [if_neg]
  rintro ⟨hl, _⟩
  rw [hl] at hobl
  cases hobl

theorem Evolves.swept {data} (hl : data.isObliterated = false) {changed : Nat → Prop}
    (h : ChangedAt before after (deduplicateEntry data) changed) :
    Evolves before after renews adds where
  tombstones e he hobl _ := by
    obtain ⟨i, hi⟩ := mem_iff_getElem?.mp he
    apply mem_iff_getElem?.mpr
    refine ⟨i, ?_⟩
    by_cases hc : changed i
    · rw [h.at_changed i hc, hi, map_some, deduplicateEntry_of_obliterated hobl]
    · rw [h.at_kept i hc, hi]
  origins e he := by
    obtain ⟨i, d, hd, ⟨_, rfl⟩ | ⟨_, rfl⟩⟩ := h.cases he
    · exact .inl ⟨d, mem_of_getElem? hd, (deduplicateEntry_key data d).symm⟩
    · exact .inl ⟨_, mem_of_getElem? hd, rfl⟩
  marked e he hobl := by
    obtain ⟨i, d, hd, ⟨_, rfl⟩ | ⟨_, rfl⟩⟩ := h.cases he
    · rw [deduplicateEntry_obliterated hl hobl]
      exact .inr (mem_of_getElem? hd)
    · exact .inr (mem_of_getElem? hd)

end Rules

/-! ## The operations -/

/-- The keys at which the step may replace a tombstone: that of the association a store
with a payload or a copy names. -/
def BucketAction.renews : BucketAction → Nat → Prop
  | .storeEntry partition address _ payload _ _, key =>
      key = sortKey partition address ∧ payload ≠ .absent
  | .copy _ sourceAddress destinationPartition destinationContext _ _, key =>
      key = sortKey destinationPartition ⟨sourceAddress.hash, destinationContext⟩
  | _, _ => False

/-- The keys at which the step may add an entry. -/
def BucketAction.adds : BucketAction → Nat → Prop
  | .storeEntry partition address _ _ _ _, key => key = sortKey partition address
  | .copy _ sourceAddress destinationPartition destinationContext _ _, key =>
      key = sortKey destinationPartition ⟨sourceAddress.hash, destinationContext⟩
  | _, _ => False

/-- The step is an eviction that protects nothing, which takes tombstones first: their
last access is 0. -/
def BucketAction.sweepsTombstones : BucketAction → Prop
  | .evictUpTo _ protect => protect = false
  | _ => False

section Steps

variable {bucket after : ImmutableStoreBucket} {renews adds : Nat → Prop}

section

variable (h : Ordered bucket)
include h

theorem storeEntry_evolves (hpure : PureTombstones bucket.slots)
    {partition address fragment payload force outcome}
    (hf : flagsObliterated fragment.flags = false)
    (hr : payload ≠ .absent → renews (sortKey partition address))
    (had : adds (sortKey partition address))
    (hca : StoreEntryCase bucket partition address fragment payload force outcome after) :
    Ordered after ∧ Evolves bucket.slots after.slots renews adds := by
  cases hca with
  | needs => exact ⟨h, .refl _ _ _⟩
  | @kept slot e _ flags _ hsl hkey hli ho ha =>
    have hli' : e.data.isObliterated = false := by
      rcases hli with ⟨_, hli⟩ | hp
      · exact hli
      · exact hpure.live (mem_of_getElem? hsl) hp
    have hsta : (withStored (ImmutableData.storedFlags flags e.data.packFile) e).data.isObliterated
        = false := by
      rw [← hli']
      exact flagsObliterated_withStored _ _ _
    rw [ha]
    refine ⟨ho, .modify hsl (withStored_key _ _) ?_ ?_⟩
    · intro hobl
      rw [hli'] at hobl
      cases hobl
    · intro hobl
      rw [hsta] at hobl
      cases hobl
  | @overlaid slot start e data _ _ hl hsl hkey hc hse hfr ho ha =>
    have hli : data.isObliterated = false := by
      apply hse.isLive hf
      intro m hm hp
      cases hm
      exact hpure.live (mem_of_getElem? hsl) hp
    have hw : Evolves bucket.slots (bucket.slots.modify slot (withData data)) renews
        adds := by
      refine .modify hsl (withData_key _ _) (fun _ => ?_) (fun hobl => ?_)
      · exact .inl (hkey ▸ hr hc)
      · rw [show (withData data e).data.isObliterated = data.isObliterated from rfl, hli] at hobl
        cases hobl
    refine ⟨ho, ?_⟩
    split at ha
    · rw [ha]
      exact hw
    · exact hw.trans (.swept hli ha)
  | @added slot start made best data _ _ hl hma hb hse ho ha =>
    have hli : data.isObliterated = false := by
      apply hse.isLive hf
      intro m hm hp
      rw [hb] at hm
      obtain ⟨_, hm⟩ := ite_none_left_eq_some.mp hm
      obtain ⟨e, he, rfl⟩ := map_eq_some_iff.mp hm
      exact hpure.live (mem_of_getElem? he) hp
    have hst := (lookup_spec h (by decide) hl).insertLe
    have hw : Evolves bucket.slots
        (bucket.slots.insertIdx start ⟨address, partition, data⟩) renews adds :=
      .insert hst had hli
    refine ⟨ho, ?_⟩
    split at ha
    · rw [ha]
      exact hw
    · exact hw.trans (.swept hli ha)

theorem copyEntry_evolves {sourcePartition destinationPartition sourceAddress destinationContext durable now}
    (hr : renews (sortKey destinationPartition ⟨sourceAddress.hash, destinationContext⟩))
    (had : adds (sortKey destinationPartition ⟨sourceAddress.hash, destinationContext⟩))
    (hco : copyEntry bucket sourcePartition sourceAddress destinationPartition
      destinationContext durable now = .ok after) :
    Ordered after ∧ Evolves bucket.slots after.slots renews adds := by
  obtain ⟨_, source, _, _, _, _, hli, hca⟩ := copyEntry_case h hco
  cases hca with
  | @overlaid slot _ d _ _ hsl hkey ho ha =>
    have hc := (copiedData_same d.data source.data durable now).2
    rw [ha]
    refine ⟨ho, .modify hsl rfl (fun _ => .inl (hkey ▸ hr)) (fun hobl => ?_)⟩
    rw [show ((d.mapData fun before =>
      copiedData before source.data durable now).data.isObliterated)
        = (copiedData d.data source.data durable now).isObliterated from rfl, hc, hli]
      at hobl
    cases hobl
  | added hl hm ho ha =>
    have hst := (lookup_spec h (by decide) hl).insertLe
    rw [ha]
    refine ⟨ho, .insert hst had ?_⟩
    exact (isObliterated_mergeFromCopySource _ _ _).trans hli

theorem tombstoneEntry_evolves {partition address compactionStopped result}
    (ht : tombstoneEntry bucket partition address compactionStopped = .ok (result, after)) :
    Ordered after ∧ Evolves bucket.slots after.slots renews adds := by
  obtain ⟨slot, e, hsl, _, hc, _⟩ := tombstoneEntry_case h ht
  cases hc with
  | already | waits => exact ⟨h, .refl _ _ _⟩
  | entombed hl ho hr ha =>
    rw [ha]
    refine ⟨ho, .modify hsl (withData_key _ _) (fun hobl => ?_) fun _ => .inl rfl⟩
    rw [hl] at hobl
    cases hobl

section

variable (hpure : PureTombstones bucket.slots)
include hpure

/-- A tombstone has no durable flag, so a protecting eviction keeps it. -/
theorem evictUpTo_evolves (cutoff : UInt64) {protect} (hr : ∀ key, protect = false → renews key) :
    Ordered (evictUpTo bucket cutoff protect)
    ∧ Evolves bucket.slots (evictUpTo bucket cutoff protect).slots renews adds := by
  refine ⟨evictUpTo_ordered h cutoff protect, ?_⟩
  rw [slots_evictUpTo]
  apply Evolves.filter
  intro e he hobl hnot
  cases protect with
  | false => exact absurd (hr _ rfl) hnot
  | true =>
    have hk : evictable ImmutableData.tombstone true = false := by decide
    rw [hpure e he hobl]
    rfl

theorem evictAccessedBy_evolves (cutoff : UInt64) (protect : Bool) :
    Ordered (evictAccessedBy bucket cutoff protect)
    ∧ Evolves bucket.slots (evictAccessedBy bucket cutoff protect).slots renews adds := by
  refine ⟨evictAccessedBy_ordered h cutoff protect, ?_⟩
  rw [slots_evictAccessedBy]
  apply Evolves.map
  · intro e
    split <;> rfl
  · intro e he hobl
    have hn : losesPayload bucket cutoff protect e = false := by
      unfold losesPayload
      rw [hpure e he hobl]
      rfl
    rw [hn]
    rfl
  · intro e
    split
    · exact isObliterated_clearPayload e.data
    · rfl

theorem repointEntries_evolves {packfile} (hp : packfile ≠ 0) (copies : List PayloadCopy) :
    Ordered (repointEntries bucket packfile copies)
    ∧ Evolves bucket.slots (repointEntries bucket packfile copies).slots renews adds := by
  refine ⟨repointEntries_ordered h packfile copies, ?_⟩
  rw [repointEntries, Indexed.slots_mapEntries]
  apply Evolves.map
  · exact fun _ => rfl
  · intro e he hobl
    have hz : e.data.packFile ≠ packfile := by
      rw [hpure e he hobl]
      exact hp.symm
    simp only [ImmutableStoreEntry.mapData, if_pos hz]
  · intro e
    simp only [ImmutableStoreEntry.mapData]
    split
    · rfl
    · split
      · split <;> rfl
      · rfl

end

theorem stampEntry_evolves (slot : Nat) (now : UInt64) :
    Ordered (stampEntry bucket slot now)
    ∧ Evolves bucket.slots (stampEntry bucket slot now).slots renews adds := by
  refine ⟨stampEntry_ordered h slot now, ?_⟩
  rw [stampEntry, Indexed.slots_modifyAt h.indexed]
  cases hsl : bucket.slots[slot]? with
  | none =>
    rw [modify_eq_self (getElem?_eq_none_iff.mp hsl)]
    exact .refl _ _ _
  | some e =>
    by_cases hobl : e.data.isObliterated = true
    · have hsa : (e.mapData fun data =>
          if data.isObliterated then data else { data with lastAccess := now }) = e := by
        simp only [ImmutableStoreEntry.mapData, if_pos hobl]
      exact .modify hsl rfl (fun _ => .inr hsa) (fun _ => .inr hsa)
    · refine .modify hsl rfl (fun h => absurd h hobl) fun h => ?_
      simp only [ImmutableStoreEntry.mapData, if_neg hobl] at h
      exact absurd h hobl

theorem stampEntry_marked (slot : Nat) (now : UInt64) {e}
    (he : e ∈ (stampEntry bucket slot now).slots) (hobl : e.data.isObliterated = true) :
    e ∈ bucket.slots := by
  rw [stampEntry, Indexed.slots_modifyAt h.indexed] at he
  rcases mem_modify_exists he with hk | ⟨d, hd, rfl⟩
  · exact hk
  · by_cases hde : d.data.isObliterated = true
    · simp only [ImmutableStoreEntry.mapData, if_pos hde]
      exact mem_of_getElem? hd
    · simp only [ImmutableStoreEntry.mapData, if_neg hde] at hobl
      exact absurd hobl hde

theorem bucketStep_evolves (hpure : PureTombstones bucket.slots) {action}
    (hste : bucketStep bucket action = some after) :
    Ordered after ∧ Evolves bucket.slots after.slots
      (fun key => action.renews key ∨ action.sweepsTombstones) action.adds := by
  cases action with
  | storeEntry partition address fragment payload force now =>
    obtain ⟨hg, hste⟩ := ite_none_right_eq_some.mp hste
    split at hste
    case h_1 outcome stored hst =>
      cases hste
      exact storeEntry_evolves h hpure hg.flags (fun hc => .inl ⟨rfl, hc⟩)
        rfl (storeEntry_case h hst)
    case h_2 =>
      cases hste
      exact ⟨h, .refl _ _ _⟩
  | copy sourcePartition sourceAddress destinationPartition destinationContext durable now =>
    simp only [bucketStep] at hste
    split at hste
    case h_1 copied hco =>
      cases hste
      exact copyEntry_evolves h (.inl rfl) rfl hco
    case h_2 =>
      cases hste
      exact ⟨h, .refl _ _ _⟩
  | tombstone partition address compactionStopped =>
    simp only [bucketStep] at hste
    split at hste
    case h_1 result entombed ht =>
      cases hste
      exact tombstoneEntry_evolves h ht
    case h_2 =>
      cases hste
      exact ⟨h, .refl _ _ _⟩
  | evictUpTo cutoff protect =>
    cases hste
    exact evictUpTo_evolves h hpure cutoff fun _ hpr => .inr hpr
  | evictAccessedBy cutoff protect =>
    cases hste
    exact evictAccessedBy_evolves h hpure cutoff protect
  | repoint packfile copies =>
    obtain ⟨hp, rfl⟩ := guarded hste
    exact repointEntries_evolves h hpure hp copies
  | stamp slot now =>
    cases hste
    exact stampEntry_evolves h slot now

end

end Steps

end Lore.Storage
