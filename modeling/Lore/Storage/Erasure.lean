import Lore.Storage.Evolves

/-!
# Erasure — obliterating a hash erases its payload

An obliterate zeroes a payload only when the entry it entombs was the last of its hash that
is no tombstone. `ErasureState` keeps, beside a bucket, every range an entry pointed at that
still holds the payload. Such a range is lost sight of once no entry points at it: nothing
zeroes it any more. `LeavesNoOrphan` is the condition on a step that keeps every held range
pointed at, or about to be zeroed; under it, a hash all of whose entries are tombstones has
no payload left in a packfile.
-/

namespace Lore.Storage

open Lore.Lib List Option

/-! ## Ranges -/

/-- The entry is of the hash and holds its payload at the range. -/
def PointsAt (e : ImmutableStoreEntry) (hash : Hash) (at_ : PackStoreRef) : Prop :=
  e.address.hash = hash ∧ e.data.packFile ≠ 0 ∧ e.data.ref = at_

/-- Some entry of the hash holds its payload at the range. -/
def Pointed (slots : List ImmutableStoreEntry) (hash : Hash) (at_ : PackStoreRef) : Prop :=
  ∃ e ∈ slots, PointsAt e hash at_

/-- The entries of the hash hold their payload at one range. -/
def OneRange (slots : List ImmutableStoreEntry) (hash : Hash) : Prop :=
  ∀ a b, Pointed slots hash a → Pointed slots hash b → a = b

/-- Another entry of the hash holds a payload. -/
def HeldElsewhere (slots : List ImmutableStoreEntry) (e : ImmutableStoreEntry) : Prop :=
  ∃ d ∈ slots, d.key ≠ e.key ∧ d.address.hash = e.address.hash ∧ d.data.packFile ≠ 0

/-- What a change that loses sight of no range of the hash does. -/
structure KeepsRanges (before after : List ImmutableStoreEntry) (hash : Hash) : Prop where
  kept : ∀ at_, Pointed before hash at_ → Pointed after hash at_
  one : OneRange after hash

section Ranges

variable {slots before after : List ImmutableStoreEntry} {hash : Hash} {at_ : PackStoreRef}

theorem KeepsRanges.refl (h : OneRange slots hash) : KeepsRanges slots slots hash :=
  ⟨fun _ hp => hp, h⟩

theorem KeepsRanges.of_iff (h : OneRange before hash)
    (hiff : ∀ at_, Pointed after hash at_ ↔ Pointed before hash at_) :
    KeepsRanges before after hash := by
  refine ⟨fun at_ => (hiff at_).mpr, ?_⟩
  intro a b ha hb
  exact h a b ((hiff a).mp ha) ((hiff b).mp hb)

theorem KeepsRanges.of_mem (h : OneRange before hash)
    (hmem : ∀ at_ e, PointsAt e hash at_ → (e ∈ after ↔ e ∈ before)) :
    KeepsRanges before after hash :=
  .of_iff h fun at_ => exists_congr fun e => and_congr_left (hmem at_ e)

theorem Pointed.of_modify {slot d} {f : ImmutableStoreEntry → ImmutableStoreEntry}
    (hsl : slots[slot]? = some d) (h : Pointed (slots.modify slot f) hash at_) :
    PointsAt (f d) hash at_ ∨ Pointed slots hash at_ := by
  obtain ⟨e, he, hp⟩ := h
  rcases mem_modify_cases hsl he with hk | rfl
  · exact .inr ⟨e, hk, hp⟩
  · exact .inl hp

theorem Pointed.modify {slot d} {f : ImmutableStoreEntry → ImmutableStoreEntry}
    (hsl : slots[slot]? = some d)
    (hd : PointsAt d hash at_ → Pointed (slots.modify slot f) hash at_)
    (h : Pointed slots hash at_) : Pointed (slots.modify slot f) hash at_ := by
  obtain ⟨e, he, hp⟩ := h
  by_cases heq : e = d
  · exact hd (heq ▸ hp)
  · exact ⟨e, mem_modify_of_ne hsl he heq f, hp⟩

theorem pointed_modify {slot d} {f : ImmutableStoreEntry → ImmutableStoreEntry}
    (hsl : slots[slot]? = some d) (hd : PointsAt (f d) hash at_ ↔ PointsAt d hash at_) :
    Pointed (slots.modify slot f) hash at_ ↔ Pointed slots hash at_ :=
  ⟨fun hp => (hp.of_modify hsl).elim (fun hnew => ⟨d, mem_of_getElem? hsl, hd.mp hnew⟩) id,
    Pointed.modify hsl fun hold => ⟨_, mem_modify_at hsl f, hd.mpr hold⟩⟩

theorem pointed_insertIdx {start} (hst : start ≤ slots.length) (e : ImmutableStoreEntry) :
    Pointed (slots.insertIdx start e) hash at_ ↔ PointsAt e hash at_ ∨ Pointed slots hash at_ := by
  constructor
  · rintro ⟨d, hd, hp⟩
    rcases (mem_insertIdx hst).mp hd with rfl | hd
    · exact .inl hp
    · exact .inr ⟨d, hd, hp⟩
  · rintro (hp | ⟨d, hd, hp⟩)
    · exact ⟨e, (mem_insertIdx hst).mpr (.inl rfl), hp⟩
    · exact ⟨d, (mem_insertIdx hst).mpr (.inr hd), hp⟩

theorem OneRange.elsewhere (h : OneRange slots hash) {e} (he : e ∈ slots) (hp : PointsAt e hash at_)
    (hel : HeldElsewhere slots e) : ∃ d ∈ slots, d.key ≠ e.key ∧ PointsAt d hash at_ := by
  obtain ⟨d, hd, hkey, hh, hpa⟩ := hel
  have hd' : PointsAt d hash d.data.ref := ⟨hh.trans hp.1, hpa, rfl⟩
  cases h _ _ ⟨e, he, hp⟩ ⟨d, hd, hd'⟩
  exact ⟨d, hd, hkey, hd'⟩

/-! ## The sweep of a stored payload -/

theorem deduplicateEntry_cases (data : ImmutableData) (e : ImmutableStoreEntry) :
    deduplicateEntry data e = e
    ∨ e.data.ref ≠ data.ref ∧ (deduplicateEntry data e).data.ref = data.ref := by
  unfold deduplicateEntry
  split
  case isTrue hm =>
    right
    refine ⟨fun heq => ?_, rfl⟩
    obtain ⟨hf, ho⟩ := PackStoreRef.mk.inj heq
    exact hm.2.elim (fun hne => hne hf) fun hne => hne ho
  case isFalse => exact .inl rfl

variable {data : ImmutableData} {swept : Hash} {start : Nat}

theorem pointed_swept_other (hne : swept ≠ hash) (hc : SweptInto before after data swept start) :
    Pointed after hash at_ ↔ Pointed before hash at_ := by
  unfold SweptInto at hc
  split at hc
  · rw [hc]
  constructor
  · rintro ⟨e, he, hp⟩
    obtain ⟨i, d, hd, ⟨hsw, rfl⟩ | ⟨_, rfl⟩⟩ := hc.cases he
    · -- the sweep changes entries of its own hash only
      have hh := hsw.hashAt_eq
      rw [hashAt, hd, map_some, some.injEq] at hh
      rw [PointsAt, (deduplicateEntry_address data d).1, hh] at hp
      exact absurd hp.1 hne
    · exact ⟨e, mem_of_getElem? hd, hp⟩
  · rintro ⟨e, he, hp⟩
    obtain ⟨i, hi⟩ := mem_iff_getElem?.mp he
    refine ⟨e, mem_iff_getElem?.mpr ⟨i, ?_⟩, hp⟩
    rw [hc.at_kept i ?_, hi]
    intro hsw
    have hh := hsw.hashAt_eq
    rw [hashAt, hi, map_some, some.injEq] at hh
    exact hne (hh.symm.trans hp.1)

/-- Where the entries of the hash hold a payload only at the range swept over them, they
still do after the sweep. -/
theorem pointed_swept (hc : SweptInto before after data swept start)
    (ho : ∀ at_, Pointed before hash at_ → at_ = data.ref) :
    (∀ at_, Pointed before hash at_ → Pointed after hash at_)
    ∧ ∀ at_, Pointed after hash at_ → at_ = data.ref := by
  unfold SweptInto at hc
  split at hc
  · rw [hc]
    exact ⟨fun _ hp => hp, ho⟩
  constructor
  · rintro at_ ⟨e, he, hp⟩
    obtain ⟨i, hi⟩ := mem_iff_getElem?.mp he
    have hf : deduplicateEntry data e = e := by
      rcases deduplicateEntry_cases data e with hsa | ⟨hne, _⟩
      · exact hsa
      · exact absurd (hp.2.2.trans (ho at_ ⟨e, he, hp⟩)) hne
    refine ⟨e, mem_iff_getElem?.mpr ⟨i, ?_⟩, hp⟩
    by_cases hsw : Swept before swept start i
    · rw [hc.at_changed i hsw, hi, map_some, hf]
    · rw [hc.at_kept i hsw, hi]
  · rintro at_ ⟨e, he, hp⟩
    obtain ⟨i, d, hd, ⟨_, rfl⟩ | ⟨_, rfl⟩⟩ := hc.cases he
    · rcases deduplicateEntry_cases data d with hsa | ⟨_, hm⟩
      · rw [hsa] at hp
        exact ho at_ ⟨d, mem_of_getElem? hd, hp⟩
      · exact hp.2.2.symm.trans hm
    · exact ho at_ ⟨e, mem_of_getElem? hd, hp⟩

end Ranges

/-! ## Stores and copies -/

section Store

variable {bucket after : ImmutableStoreBucket} {hash : Hash} {at_ : PackStoreRef}
  {partition : Partition} {address : Address} {fragment : Fragment} {payload : StorePayload}
  {force : Bool} {outcome : StoreOutcome} {data : ImmutableData} {start : Nat}

theorem storedOver_keepsRanges {slot e} (hone : OneRange bucket.slots hash)
    (hsl : bucket.slots[slot]? = some e) (hkey : e.key = sortKey partition address)
    (hc : payload ≠ .absent) (hse : Settled fragment payload force (some e.data) data)
    (hfr : force = true ∨ e.data.packFile = 0)
    (hfi : address.hash = hash → ∀ at_, payload = .written at_ →
      ∀ d ∈ bucket.slots, d.address.hash = hash → d.data.packFile = 0)
    (haf : SweptInto (bucket.slots.modify slot (withData data)) after.slots data address.hash
      start) : KeepsRanges bucket.slots after.slots hash := by
  have hh : e.address.hash = address.hash := by rw [(key_eq_iff.mp hkey).1]
  by_cases hne : address.hash = hash
  · -- an inherited payload is not written over itself, so this one was written
    obtain ⟨at_, hw, -⟩ := hse.own_of_over hc hfr
    have hba := hfi hne at_ hw
    have ho : ∀ at_, Pointed (bucket.slots.modify slot (withData data)) hash at_ →
        at_ = data.ref := by
      intro at_ hp
      rcases hp.of_modify hsl with hnew | ⟨d, hd, hdh, hpa, _⟩
      · exact hnew.2.2.symm
      · exact absurd (hba d hd hdh) hpa
    refine ⟨?_, ?_⟩
    · rintro at_ ⟨d, hd, hdh, hpa, _⟩
      exact absurd (hba d hd hdh) hpa
    · intro a b ha hb
      rw [(pointed_swept haf ho).2 a ha, (pointed_swept haf ho).2 b hb]
  · refine .of_iff hone fun at_ => (pointed_swept_other hne haf).trans (pointed_modify hsl ?_)
    exact iff_of_false (fun hp => hne (hh.symm.trans hp.1)) fun hp => hne (hh.symm.trans hp.1)

/-- A store of a new entry: its payload is that of the hash, or the first of it. -/
theorem storedNew_keepsRanges {slot made best} (h : Ordered bucket)
    (hone : OneRange bucket.slots hash)
    (hl : lookup bucket partition address .matchFull = (slot, start, made))
    (hbe : best = if made = .matchNone then none else (bucket.slots[slot]?).map (·.data))
    (hse : Settled fragment payload force best data)
    (hf : address.hash = hash → ∀ at_, payload = .written at_ →
      ∀ d ∈ bucket.slots, d.address.hash = hash → d.data.packFile = 0)
    (haf : SweptInto (bucket.slots.insertIdx start ⟨address, partition, data⟩) after.slots data
      address.hash start) : KeepsRanges bucket.slots after.slots hash := by
  have hst := (lookup_spec h (by decide) hl).insertLe
  by_cases hne : address.hash = hash
  · by_cases hpac : data.packFile = 0
    · rw [SweptInto, if_pos hpac] at haf
      refine .of_iff hone fun at_ => ?_
      rw [haf, pointed_insertIdx hst]
      exact ⟨fun hp => hp.resolve_left fun hnew => hnew.2.1 hpac, .inr⟩
    · -- whatever payload the hash had, the new entry has the same
      have hsa : ∀ at_, Pointed bucket.slots hash at_ → at_ = data.ref := by
        intro at_ hpo
        cases hse with
        | bare _ hz => exact absurd hz hpac
        | own hw =>
          obtain ⟨d, hd, hdh, hdp, _⟩ := hpo
          exact absurd (hf hne _ hw d hd hdh) hdp
        | inherited hm hmp _ hpa =>
          obtain ⟨b, hb, hbh, rfl⟩ := bestOf_of_lookup h hl hbe _ hm
          rw [hone _ _ hpo ⟨b, hb, hbh.trans hne, hmp, rfl⟩, ImmutableData.ref,
            ImmutableData.ref, hpa.1, hpa.2.1]
      have ho : ∀ at_, Pointed (bucket.slots.insertIdx start ⟨address, partition, data⟩) hash
          at_ → at_ = data.ref := by
        intro at_ hpo
        rcases (pointed_insertIdx hst _).mp hpo with hnew | hold
        · exact hnew.2.2.symm
        · exact hsa at_ hold
      obtain ⟨hk, haf⟩ := pointed_swept haf ho
      refine ⟨fun at_ hp => hk at_ ((pointed_insertIdx hst _).mpr (.inr hp)), ?_⟩
      intro a b ha hb
      rw [haf a ha, haf b hb]
  · refine .of_iff hone fun at_ => (pointed_swept_other hne haf).trans ?_
    rw [pointed_insertIdx hst]
    exact ⟨fun hp => hp.resolve_left fun hnew => hne hnew.1, .inr⟩

theorem storeEntry_keepsRanges (h : Ordered bucket) (hone : OneRange bucket.slots hash)
    (hf : address.hash = hash → ∀ at_, payload = .written at_ →
      ∀ d ∈ bucket.slots, d.address.hash = hash → d.data.packFile = 0)
    (hca : StoreEntryCase bucket partition address fragment payload force outcome after) :
    KeepsRanges bucket.slots after.slots hash := by
  cases hca with
  | needs => exact .refl hone
  | kept hsl _ _ _ ha =>
    rw [ha]
    exact .of_iff hone fun at_ => pointed_modify hsl .rfl
  | overlaid _ hsl hkey hc hse hfr _ ha =>
    exact storedOver_keepsRanges hone hsl hkey hc hse hfr hf ha
  | added hl _ hb hse _ ha =>
    exact storedNew_keepsRanges h hone hl hb hse hf ha

end Store

section Copy

variable {bucket after : ImmutableStoreBucket} {hash : Hash} {source : ImmutableStoreEntry}
  {sourcePartition destinationPartition : Partition} {sourceAddress : Address}
  {destinationContext : Context} {durable : Bool} {now : UInt64}

/-- A copy gives the destination the range of the source. A source without a payload takes
the destination's away, which another entry has to hold. -/
theorem copyEntry_keepsRanges (h : Ordered bucket) (hone : OneRange bucket.slots hash)
    (hso : source ∈ bucket.slots) (hh : source.address.hash = sourceAddress.hash)
    (hel : sourceAddress.hash = hash → source.data.packFile = 0 → ∀ d ∈ bucket.slots,
      d.key = sortKey destinationPartition ⟨sourceAddress.hash, destinationContext⟩ →
      d.data.packFile ≠ 0 → HeldElsewhere bucket.slots d)
    (hca : CopyCase bucket sourcePartition sourceAddress destinationPartition
      destinationContext durable now source after) : KeepsRanges bucket.slots after.slots hash := by
  -- an entry that took over the source's range points where the source does
  have hf : ∀ {e : ImmutableStoreEntry} {at_}, e.address.hash = sourceAddress.hash →
      e.data.ref = source.data.ref → PointsAt e hash at_ → Pointed bucket.slots hash at_ := by
    intro e at_ he href ⟨hpH, hpa, hat⟩
    refine ⟨source, hso, (hh.trans he.symm).trans hpH, ?_, href ▸ hat⟩
    exact (PackStoreRef.mk.inj href).1 ▸ hpa
  cases hca with
  | @overlaid slot _ d _ _ hsl hkey _ ha =>
    have hdm := mem_of_getElem? hsl
    have hd : d.address.hash = sourceAddress.hash := by rw [(key_eq_iff.mp hkey).1]
    have hsa := (copiedData_same d.data source.data durable now).1
    rw [ha]
    refine .of_iff hone fun at_ => ⟨fun hp => ?_, Pointed.modify hsl fun hpo => ?_⟩
    · rcases hp.of_modify hsl with hnew | hold
      · refine hf ?_ ?_ hnew
        · exact hd
        · exact congrArg₂ PackStoreRef.mk hsa.1 hsa.2.1
      · exact hold
    · by_cases hpa : source.data.packFile = 0
      · obtain ⟨c, hc, hne, hcp⟩ := hone.elsewhere hdm hpo
          (hel (hd.symm.trans hpo.1) hpa d hdm hkey hpo.2.1)
        exact ⟨c, mem_modify_of_ne hsl hc (fun heq => hne (by rw [heq])) _, hcp⟩
      · cases hone _ _ ⟨d, hdm, hpo⟩ ⟨source, hso, (hh.trans hd.symm).trans hpo.1, hpa, rfl⟩
        refine ⟨_, mem_modify_at hsl _, hpo.1, ?_, ?_⟩
        · exact fun hz => hpa (hsa.1.symm.trans hz)
        · exact congrArg₂ PackStoreRef.mk hsa.1 hsa.2.1
  | added hl _ _ ha =>
    have hst := (lookup_spec h (by decide) hl).insertLe
    rw [ha]
    refine .of_iff hone fun at_ => ?_
    rw [pointed_insertIdx hst]
    refine ⟨fun hp => hp.elim (fun hnew => ?_) id, .inr⟩
    refine hf rfl ?_ hnew
    cases durable <;> rfl

end Copy

/-! ## The ranges that hold a payload -/

/-- A bucket of a store on disk or in memory, the ranges its entries pointed at that still hold
the payload, and those an obliterate has tombstoned the last entry of and is about to zero. -/
structure ErasureState where
  onDisk : Bool
  bucket : ImmutableStoreBucket
  held : List (Hash × PackStoreRef)
  zeroing : List PackStoreRef

/-- The empty store. -/
def ErasureState.empty (onDisk : Bool) : ErasureState := ⟨onDisk, .empty, [], []⟩

/-- What happens to a bucket and its ranges: its operations, the zeroing at the end of an
obliterate, and the compaction of a packfile. Compaction moves payloads and truncates the
packfile where nothing points into it any more, unless it is stopped before. -/
inductive ErasureAction where
  | onBucket (action : BucketAction)
  | zero (at_ : PackStoreRef)
  | compact (packfile : UInt32) (copies : List PayloadCopy) (truncates : Bool)
deriving Repr

/-- The ranges the entries of a bucket point at. -/
def pointedAt (bucket : ImmutableStoreBucket) : List (Hash × PackStoreRef) :=
  (bucket.slots.filter fun e => e.data.packFile ≠ 0).map fun e => (e.address.hash, e.data.ref)

/-- One step. An obliterate that is to zero a payload holds compaction off until it has. In
memory it zeroes nothing, and there is no compaction. -/
def erasureStep (s : ErasureState) : ErasureAction → Option ErasureState
  | .onBucket (.repoint _ _) => none
  | .onBucket (.tombstone partition address compactionStopped) =>
      match tombstoneEntry s.bucket partition address compactionStopped with
      | .ok (.zero original, after) =>
          some { s with bucket := after, zeroing := original.ref :: s.zeroing }
      | .ok (_, after) => some { s with bucket := after }
      | .error _ => some s
  | .onBucket action =>
      (bucketStep s.bucket action).map fun after =>
        { s with bucket := after, held := s.held ++ pointedAt after }
  | .zero at_ =>
      if at_ ∈ s.zeroing then
        some { s with
          held := if s.onDisk then s.held.filter (·.2 ≠ at_) else s.held
          zeroing := s.zeroing.erase at_ }
      else none
  | .compact packfile copies truncates =>
      let after := repointEntries s.bucket packfile copies
      let held := s.held ++ pointedAt after
      if !s.onDisk ∨ packfile = 0 ∨ s.zeroing ≠ [] then none
      else if truncates then
        if ∀ e ∈ after.slots, e.data.packFile ≠ packfile then
          some ⟨s.onDisk, after, held.filter (·.2.id ≠ packfile), []⟩
        else none
      else some ⟨s.onDisk, after, held, []⟩

/-- The condition on a step under which it leaves no range of the hash that holds its
payload without an entry pointing at it. A payload is written only where the hash has none.
A copy from a source without a payload, and an obliterate that does not zero, leave another
entry with the payload. An eviction takes no payload of the hash, and a compaction that
moves one truncates. -/
def LeavesNoOrphan (hash : Hash) (s : ErasureState) : ErasureAction → Prop
  | .onBucket (.storeEntry _ address _ payload _ _) =>
      address.hash = hash → ∀ at_, payload = .written at_ →
        ∀ d ∈ s.bucket.slots, d.address.hash = hash → d.data.packFile = 0
  | .onBucket (.copy sourcePartition sourceAddress destinationPartition destinationContext _ _) =>
      sourceAddress.hash = hash → ∀ slot source,
        copySourceSlot s.bucket sourcePartition sourceAddress = some slot →
        s.bucket.slots[slot]? = some source → source.data.packFile = 0 →
        ∀ d ∈ s.bucket.slots,
          d.key = sortKey destinationPartition ⟨sourceAddress.hash, destinationContext⟩ →
          d.data.packFile ≠ 0 → HeldElsewhere s.bucket.slots d
  | .onBucket (.tombstone partition address _) =>
      address.hash = hash → ∀ slot e, s.bucket.slots[slot]? = some e →
        e.key = sortKey partition address → e.data.packFile ≠ 0 →
        isLastFragment s.bucket slot hash = false → HeldElsewhere s.bucket.slots e
  | .onBucket (.evictUpTo cutoff protect) =>
      ∀ e ∈ s.bucket.slots, e.address.hash = hash → evictable e.data protect = true →
        e.data.lastAccess ≤ cutoff → e.data.packFile = 0
  | .onBucket (.evictAccessedBy cutoff protect) =>
      ∀ e ∈ s.bucket.slots, e.address.hash = hash →
        losesPayload s.bucket cutoff protect e = false
  | .compact packfile _ truncates =>
      truncates = true ∨ ∀ e ∈ s.bucket.slots, e.address.hash = hash → e.data.packFile ≠ packfile
  | _ => True

theorem mem_pointedAt {bucket hash at_} :
    (hash, at_) ∈ pointedAt bucket ↔ Pointed bucket.slots hash at_ := by
  simp only [pointedAt, List.mem_map, mem_filter, decide_eq_true_eq, Prod.mk.injEq]
  constructor
  · rintro ⟨e, ⟨he, hp⟩, hh, href⟩
    exact ⟨e, he, hh, hp, href⟩
  · rintro ⟨e, he, hh, hp, href⟩
    exact ⟨e, ⟨he, hp⟩, hh, href⟩

/-- On disk, every range that holds a payload of the hash is pointed at or about to be zeroed. -/
structure Erasable (hash : Hash) (s : ErasureState) : Prop where
  onDisk : s.onDisk = true
  ordered : Ordered s.bucket
  pure : PureTombstones s.bucket.slots
  one : OneRange s.bucket.slots hash
  held : ∀ at_, (hash, at_) ∈ s.held → Pointed s.bucket.slots hash at_ ∨ at_ ∈ s.zeroing

theorem Erasable.empty (hash : Hash) : Erasable hash (.empty true) where
  onDisk := rfl
  ordered := .empty
  pure _ he := nomatch he
  one _ _ h := by
    obtain ⟨e, he, _⟩ := h
    cases he
  held _ h := nomatch h

section Step

variable {hash : Hash} {s t : ErasureState} {after : ImmutableStoreBucket}

theorem Erasable.bucketStep_keepsRanges (h : Erasable hash s) {action}
    (hno : LeavesNoOrphan hash s (.onBucket action))
    (hto : ∀ partition address stopped, action ≠ .tombstone partition address stopped)
    (hr : ∀ packfile copies, action ≠ .repoint packfile copies)
    (hste : bucketStep s.bucket action = some after) :
    KeepsRanges s.bucket.slots after.slots hash := by
  cases action with
  | storeEntry partition address fragment payload force now =>
    obtain ⟨_, hste⟩ := ite_none_right_eq_some.mp hste
    split at hste
    case h_1 outcome stored hst =>
      cases hste
      exact storeEntry_keepsRanges h.ordered h.one hno (storeEntry_case h.ordered hst)
    case h_2 =>
      cases hste
      exact .refl h.one
  | copy sourcePartition sourceAddress destinationPartition destinationContext durable now =>
    simp only [bucketStep] at hste
    split at hste
    case h_1 copied hco =>
      cases hste
      obtain ⟨slot, source, hso, hsl, hh, _, _, hc⟩ := copyEntry_case h.ordered hco
      exact copyEntry_keepsRanges h.ordered h.one (mem_of_getElem? hsl) hh
        (fun heq hpa => hno heq slot source hso hsl hpa) hc
    case h_2 =>
      cases hste
      exact .refl h.one
  | tombstone partition address stopped => exact absurd rfl (hto partition address stopped)
  | repoint packfile copies => exact absurd rfl (hr packfile copies)
  | evictUpTo cutoff protect =>
    cases hste
    rw [slots_evictUpTo]
    refine .of_mem h.one fun at_ e hpo => mem_filter.trans (and_iff_left_of_imp fun he => ?_)
    rw [Bool.not_eq_true', ← Bool.not_eq_true, Bool.and_eq_true, decide_eq_true_eq]
    exact fun ht => hpo.2.1 (hno e he hpo.1 ht.1 ht.2)
  | evictAccessedBy cutoff protect =>
    cases hste
    rw [slots_evictAccessedBy]
    refine .of_mem h.one fun at_ e hpo => mem_map.trans ⟨?_, fun he => ⟨e, he, ?_⟩⟩
    · rintro ⟨d, hd, rfl⟩
      split at hpo
      · exact absurd rfl hpo.2.1
      · exact if_neg ‹_› ▸ hd
    · rw [hno e he hpo.1]
      rfl
  | stamp slot now =>
    cases hste
    rw [stampEntry, Indexed.slots_modifyAt h.ordered.indexed]
    cases hsl : s.bucket.slots[slot]? with
    | none =>
      rw [modify_eq_self (getElem?_eq_none_iff.mp hsl)]
      exact .refl h.one
    | some d =>
      -- a stamp moves nothing
      have hpo : ∀ at_, PointsAt (d.mapData fun data =>
          if data.isObliterated then data else { data with lastAccess := now }) hash at_
          ↔ PointsAt d hash at_ := by
        intro at_
        simp only [ImmutableStoreEntry.mapData]
        split <;> exact Iff.rfl
      exact .of_iff h.one fun at_ => pointed_modify hsl (hpo at_)

/-- An entry entombed: the others point where they did, and its own range stays in sight
where another entry holds it or it is about to be zeroed. -/
theorem Erasable.entomb (h : Erasable hash s) (ho : Ordered after)
    (hpu : PureTombstones after.slots) {slot e} (hsl : s.bucket.slots[slot]? = some e)
    (haf : after.slots = s.bucket.slots.modify slot (withData .tombstone)) {zeroing}
    (hz : ∀ at_ ∈ s.zeroing, at_ ∈ zeroing)
    (hown : ∀ at_, PointsAt e hash at_ → Pointed after.slots hash at_ ∨ at_ ∈ zeroing) :
    Erasable hash { s with bucket := after, zeroing := zeroing } := by
  have hf : ∀ at_, Pointed after.slots hash at_ → Pointed s.bucket.slots hash at_ := by
    intro at_ hp
    rw [haf] at hp
    exact (hp.of_modify hsl).resolve_left fun hnew => hnew.2.1 rfl
  refine ⟨h.onDisk, ho, hpu, fun a b ha hb => h.one a b (hf a ha) (hf b hb), ?_⟩
  intro at_ hh
  rcases h.held at_ hh with ⟨d, hd, hpo⟩ | hze
  · by_cases heq : d = e
    · exact hown at_ (heq ▸ hpo)
    · refine .inl ⟨d, ?_, hpo⟩
      rw [haf]
      exact mem_modify_of_ne hsl hd heq _
  · exact .inr (hz at_ hze)

theorem Erasable.tombstone (h : Erasable hash s) {partition address stopped}
    (hno : LeavesNoOrphan hash s (.onBucket (.tombstone partition address stopped)))
    (hst : erasureStep s (.onBucket (.tombstone partition address stopped)) = some t) :
    Erasable hash t := by
  cases ht : tombstoneEntry s.bucket partition address stopped with
  | error err =>
    simp only [erasureStep, ht] at hst
    cases hst
    exact h
  | ok answer =>
    obtain ⟨result, after⟩ := answer
    obtain ⟨ho, he⟩ := @tombstoneEntry_evolves _ _ (fun _ => False)
      (fun _ => False) h.ordered _ _ _ _ ht
    have hpu := h.pure.evolves he
    obtain ⟨slot, e, hsl, hkey, hc, hla⟩ := tombstoneEntry_case h.ordered ht
    simp only [erasureStep, ht] at hst
    cases hc with
    | already | waits =>
      cases hst
      exact h
    | entombed _ _ hr ha =>
      rcases hr with rfl | rfl
      · cases hst
        refine h.entomb ho hpu hsl ha (fun _ hat => hat) fun at_ hp => ?_
        -- not zeroed, so not the last of its hash: the condition gives another holder
        have hh : e.address.hash = address.hash := by rw [(key_eq_iff.mp hkey).1]
        have hnL : isLastFragment s.bucket slot hash = false := by
          rw [← Bool.not_eq_true, ← hp.1, hh]
          exact fun hl => hp.2.1 (hla rfl hl)
        obtain ⟨d, hd, hne, hdp⟩ := h.one.elsewhere (mem_of_getElem? hsl) hp
          (hno (hh.symm.trans hp.1) slot e hsl hkey hp.2.1 hnL)
        refine .inl ⟨d, ?_, hdp⟩
        rw [ha]
        exact mem_modify_of_ne hsl hd (fun heq => hne (by rw [heq])) _
      · cases hst
        refine h.entomb ho hpu hsl ha (fun _ hat => mem_cons_of_mem _ hat) fun at_ hp => .inr ?_
        rw [← hp.2.2]
        exact mem_cons_self

/-- The data compaction leaves an entry with. -/
def repointed (packfile : UInt32) (copies : List PayloadCopy) (data : ImmutableData) :
    ImmutableData :=
  if data.packFile ≠ packfile then data
  else
    match copies.find? fun c => c.offset = data.packOffset with
    | some c =>
      if c.size = data.sizePayload then
        { data with packFile := c.copy.id, packOffset := c.copy.offset }
      else data
    | none => data

theorem repointed_cases {packfile copies data}
    (hm : (repointed packfile copies data).packFile ≠ packfile) (hin : data.packFile = packfile) :
    ∃ c, copies.find? (fun c => c.offset = data.packOffset) = some c
      ∧ (repointed packfile copies data).ref = c.copy := by
  unfold repointed at hm ⊢
  rw [if_neg (not_not.mpr hin)] at hm ⊢
  cases hf : copies.find? (fun c => c.offset = data.packOffset) with
  | none =>
    rw [hf] at hm
    exact absurd hin hm
  | some c =>
    rw [hf] at hm
    dsimp only at hm ⊢
    by_cases hsi : c.size = data.sizePayload
    · rw [if_pos hsi]
      exact ⟨c, rfl, rfl⟩
    · rw [if_neg hsi] at hm
      exact absurd hin hm

theorem repointed_of_ne {packfile copies data} (hne : data.packFile ≠ packfile) :
    repointed packfile copies data = data := if_pos hne

section

variable (h : Erasable hash s)
include h

theorem Erasable.compact {packfile copies truncates}
    (hno : LeavesNoOrphan hash s (.compact packfile copies truncates))
    (hst : erasureStep s (.compact packfile copies truncates) = some t) : Erasable hash t := by
  obtain ⟨hg, hst⟩ := ite_none_left_eq_some.mp hst
  rw [not_or, not_or, not_not] at hg
  obtain ⟨-, hpa, hz⟩ := hg
  obtain ⟨ho, hev⟩ := @repointEntries_evolves _ (fun _ => False) (fun _ => False)
    h.ordered h.pure packfile hpa copies
  have hpu := h.pure.evolves hev
  have hmem : ∀ {e}, e ∈ (repointEntries s.bucket packfile copies).slots
      ↔ ∃ d ∈ s.bucket.slots, d.mapData (repointed packfile copies) = e := by
    intro e
    rw [repointEntries, Indexed.slots_mapEntries]
    exact mem_map
  -- what points outside the packfile still does
  have hk : ∀ at_, at_.id ≠ packfile → Pointed s.bucket.slots hash at_ →
      Pointed (repointEntries s.bucket packfile copies).slots hash at_ := by
    rintro at_ hid ⟨e, he, hp⟩
    have hne : e.data.packFile ≠ packfile := by
      rw [← hp.2.2] at hid
      exact hid
    refine ⟨e.mapData (repointed packfile copies), hmem.mpr ⟨e, he, rfl⟩, ?_⟩
    rw [ImmutableStoreEntry.mapData, repointed_of_ne hne]
    exact hp
  split at hst
  case isTrue ht =>
    obtain ⟨hn, rfl⟩ := guarded hst
    refine ⟨h.onDisk, ho, hpu, ?_, ?_⟩
    · rintro a b ⟨e, he, hp⟩ ⟨d, hd, hdp⟩
      have hm := hn e he
      have hdm := hn d hd
      obtain ⟨e', he', rfl⟩ := hmem.mp he
      obtain ⟨d', hd', rfl⟩ := hmem.mp hd
      -- both were at one range, and every entry of the packfile moved with its range
      have hb : ∀ {c : ImmutableStoreEntry} {r},
          PointsAt (c.mapData (repointed packfile copies)) hash r → c.data.packFile ≠ 0 := by
        intro c r hc hze
        apply hc.2.1
        rw [ImmutableStoreEntry.mapData, repointed_of_ne (by rw [hze]; exact Ne.symm hpa)]
        exact hze
      have hsa : e'.data.ref = d'.data.ref := h.one _ _ ⟨e', he', hp.1, hb hp, rfl⟩
          ⟨d', hd', hdp.1, hb hdp, rfl⟩
      obtain ⟨hfi, hof⟩ := PackStoreRef.mk.inj hsa
      rw [← hp.2.2, ← hdp.2.2]
      show (repointed packfile copies e'.data).ref = (repointed packfile copies d'.data).ref
      by_cases hin : e'.data.packFile = packfile
      · obtain ⟨c, hc, href⟩ := repointed_cases hm hin
        obtain ⟨c', hc', href'⟩ := repointed_cases hdm (hfi ▸ hin)
        rw [hof, hc'] at hc
        rw [href, href', some.inj hc]
      · rw [repointed_of_ne hin, repointed_of_ne (hfi ▸ hin), hsa]
    · intro at_ hh
      simp only [mem_filter, mem_append, decide_eq_true_eq] at hh
      obtain ⟨hh | hnew, hid⟩ := hh
      · rcases h.held at_ hh with hpo | hze
        · exact .inl (hk at_ hid hpo)
        · rw [hz] at hze
          cases hze
      · exact .inl (mem_pointedAt.mp hnew)
  case isFalse ht =>
    cases hst
    -- nothing of the hash is in the packfile, so nothing of it moved
    have hout := hno.resolve_left ht
    have hf : ∀ at_, Pointed (repointEntries s.bucket packfile copies).slots hash at_ ↔
        Pointed s.bucket.slots hash at_ := by
      intro at_
      constructor
      · rintro ⟨e, he, hp⟩
        obtain ⟨d, hd, rfl⟩ := hmem.mp he
        rw [ImmutableStoreEntry.mapData, repointed_of_ne (hout d hd hp.1)] at hp
        exact ⟨d, hd, hp⟩
      · rintro ⟨e, he, hp⟩
        refine hk at_ ?_ ⟨e, he, hp⟩
        rw [← hp.2.2]
        exact hout e he hp.1
    refine ⟨h.onDisk, ho, hpu, (KeepsRanges.of_iff h.one hf).one, ?_⟩
    intro at_ hh
    rcases mem_append.mp hh with hh | hnew
    · rcases h.held at_ hh with hpo | hze
      · exact .inl ((hf at_).mpr hpo)
      · rw [hz] at hze
        cases hze
    · exact .inl (mem_pointedAt.mp hnew)

theorem Erasable.zero {at_} (hst : erasureStep s (.zero at_) = some t) : Erasable hash t := by
  obtain ⟨-, rfl⟩ := guarded hst
  refine ⟨h.onDisk, h.ordered, h.pure, h.one, ?_⟩
  intro r hh
  simp only [if_pos h.onDisk, mem_filter, decide_eq_true_eq] at hh
  refine (h.held r hh.1).imp_right fun hz => ?_
  exact (mem_erase_of_ne hh.2).mpr hz

theorem Erasable.onBucket {action} (hno : LeavesNoOrphan hash s (.onBucket action))
    (ht : ∀ partition address stopped, action ≠ .tombstone partition address stopped)
    (hr : ∀ packfile copies, action ≠ .repoint packfile copies)
    (hst : (bucketStep s.bucket action).map (fun after =>
      { s with bucket := after, held := s.held ++ pointedAt after }) = some t) :
    Erasable hash t := by
  obtain ⟨after, ha, rfl⟩ := map_eq_some_iff.mp hst
  obtain ⟨ho, he⟩ := bucketStep_evolves h.ordered h.pure ha
  have hk := h.bucketStep_keepsRanges hno ht hr ha
  refine ⟨h.onDisk, ho, h.pure.evolves he, hk.one, ?_⟩
  intro at_ hh
  rcases mem_append.mp hh with hh | hnew
  · exact (h.held at_ hh).imp_left (hk.kept at_)
  · exact .inl (mem_pointedAt.mp hnew)

theorem Erasable.step {action} (hno : LeavesNoOrphan hash s action)
    (hst : erasureStep s action = some t) : Erasable hash t := by
  cases action with
  | zero at_ => exact h.zero hst
  | compact packfile copies truncates => exact h.compact hno hst
  | onBucket action =>
    cases action with
    | repoint packfile copies => cases hst
    | tombstone partition address stopped => exact h.tombstone hno hst
    | _ => exact h.onBucket hno (fun _ _ _ heq => nomatch heq) (fun _ _ heq => nomatch heq) hst

end

end Step

/-- In every run on disk whose steps leave no range of the hash without an entry pointing at it:
once the hash has tombstones only, and no obliterate is still to zero a payload, no range an entry
of it pointed at holds its payload. -/
theorem obliterated_hash_is_erased {hash : Hash} {actions : List ErasureAction} {s : ErasureState}
    (hrun : run erasureStep (.empty true) actions = some s)
    (hno : StepsMeet erasureStep (LeavesNoOrphan hash) (.empty true) actions) (hzeroed : s.zeroing = [])
    (hobliterated : ∀ e ∈ s.bucket.slots, e.address.hash = hash → e.data.isObliterated = true)
    (at_ : PackStoreRef) : (hash, at_) ∉ s.held := by
  have h : Erasable hash s := run_invariant_of_stepsMeet erasureStep
    (fun _ _ _ h hg hst => h.step hg hst) (.empty hash) hno hrun
  intro hhe
  rcases h.held at_ hhe with ⟨e, he, hh, hp, _⟩ | hz
  · have hl := h.pure.live he hp
    rw [hobliterated e he hh] at hl
    cases hl
  · rw [hzeroed] at hz
    cases hz

/-- A payload put and obliterated. -/
def putAndObliterate : List ErasureAction :=
  (payloadPut 1#128 ⟨1#256, 1#128⟩ false ⟨1, 0⟩).map .onBucket
    ++ [.onBucket (.tombstone 1#128 ⟨1#256, 1#128⟩ true), .zero ⟨1, 0⟩]

/-- What `putAndObliterate` leaves. -/
def erasedPayload : ErasureState := ⟨true, ⟨[0], [⟨⟨1#256, 1#128⟩, 1#128, .tombstone⟩]⟩, [], []⟩

theorem obliterated_hash_is_erased_put :
    run erasureStep (.empty true) putAndObliterate = some erasedPayload
    ∧ ∀ at_, (1#256, at_) ∉ erasedPayload.held := by
  have hrun : run erasureStep (.empty true) putAndObliterate = some erasedPayload := by rfl
  refine ⟨hrun, fun at_ => obliterated_hash_is_erased hrun ?_ rfl (by decide) at_⟩
  refine ⟨by rintro _ _ ⟨⟩, fun s hs => ?_⟩
  cases hs
  refine ⟨by rintro _ _ _ _ ⟨⟩, fun s hs => ?_⟩
  cases hs
  refine ⟨fun _ slot e hsl _ _ hl => ?_, fun s _ => ⟨trivial, fun _ _ => trivial⟩⟩
  -- the entry is alone in its bucket
  cases slot with
  | zero => cases hl
  | succ slot => cases hsl

/-- A payload is put under one partition and deduplicated under another, where it is
obliterated; a put without a payload adds an entry there that holds none; then both live
entries are obliterated. -/
def obliteratedTwice : List ErasureAction :=
  (payloadPut 1#128 ⟨1#256, 1#128⟩ false ⟨1, 0⟩).map .onBucket
    ++ [.onBucket (.storeEntry 2#128 ⟨1#256, 2#128⟩ ⟨0#32, 4, 4⟩ .unwritten false 2),
      .onBucket (.tombstone 2#128 ⟨1#256, 2#128⟩ true),
      .onBucket (.storeEntry 2#128 ⟨1#256, 3#128⟩ ⟨0#32, 4, 4⟩ .absent false 3),
      .onBucket (.tombstone 1#128 ⟨1#256, 1#128⟩ true),
      .onBucket (.tombstone 2#128 ⟨1#256, 3#128⟩ true)]

/-- The entry without a payload counts as a reference when the one with it is obliterated,
and there is nothing to zero when it is obliterated itself: the payload stays. In memory the one
payload of a store stays when it is obliterated. -/
theorem obliterated_payload_stays :
    (∃ s, run erasureStep (.empty true) obliteratedTwice = some s
      ∧ (∀ e ∈ s.bucket.slots, e.address.hash = 1#256 → e.data.isObliterated = true)
      ∧ s.bucket.slots.length = 3 ∧ s.zeroing = [] ∧ (1#256, ⟨1, 0⟩) ∈ s.held)
    ∧ ∃ s, run erasureStep (.empty false) putAndObliterate = some s
      ∧ (∀ e ∈ s.bucket.slots, e.address.hash = 1#256 → e.data.isObliterated = true)
      ∧ s.bucket.slots.length = 1 ∧ s.zeroing = [] ∧ (1#256, ⟨1, 0⟩) ∈ s.held := by
  decide

end Lore.Storage
