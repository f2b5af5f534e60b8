import Lore.Storage.StoreEntrySpec

/-!
# BucketOpsSpec — what the other operations do to the slots

One case analysis for each of copy and obliterate, and one equation on the slots for each
of the operations that rebuild or map a bucket.
-/

namespace Lore.Storage

open Lore.Lib List Option

variable {slots : List ImmutableStoreEntry} {e d : ImmutableStoreEntry}

section

variable (hso : slots.Pairwise fun a b => a.key < b.key)
include hso

theorem slot_of_key {i j : Nat} (hi : slots[i]? = some e) (hj : slots[j]? = some d)
    (hkey : e.key = d.key) : i = j := by
  rcases Nat.lt_trichotomy i j with hlt | heq | hlt
  · exact absurd hkey (Nat.ne_of_lt (key_lt_of_lt hso hi hj hlt))
  · exact heq
  · exact absurd hkey.symm (Nat.ne_of_lt (key_lt_of_lt hso hj hi hlt))

theorem eq_of_key (he : e ∈ slots) (hd : d ∈ slots) (hkey : e.key = d.key) : e = d := by
  obtain ⟨i, hi⟩ := mem_iff_getElem?.mp he
  obtain ⟨j, hj⟩ := mem_iff_getElem?.mp hd
  cases slot_of_key hso hi hj hkey
  exact some.inj (hi.symm.trans hj)

end

theorem lookup_of_mem {bucket} (h : Ordered bucket) {partition address} (he : e ∈ bucket.slots)
    (hkey : e.key = sortKey partition address) :
    ∃ slot start, lookup bucket partition address .matchFull = (slot, start, .matchFull)
      ∧ bucket.slots[slot]? = some e := by
  rcases hl : lookup bucket partition address .matchFull with ⟨slot, start, made⟩
  have hsp := lookup_spec h (by decide) hl
  have hm : made = .matchFull := by
    by_cases hlt : made < .matchFull
    · have hle := hsp.best hlt e he
      rw [matchOf_eq_full.mpr hkey] at hle
      exact absurd hlt (Nat.not_lt_of_le hle)
    · revert hlt
      cases made <;> decide
  subst hm
  obtain ⟨d, hd, hdk⟩ := lookup_full h hl
  have heq := eq_of_key h.sorted he (mem_of_getElem? hd) (hkey.trans hdk.symm)
  exact ⟨slot, start, rfl, heq ▸ hd⟩

theorem mem_modify_at {slot} (hsl : slots[slot]? = some d)
    (f : ImmutableStoreEntry → ImmutableStoreEntry) : f d ∈ slots.modify slot f := by
  apply mem_iff_getElem?.mpr
  exact ⟨slot, by rw [getElem?_modify_eq, hsl]; rfl⟩

theorem mem_modify_of_ne {slot} (hsl : slots[slot]? = some d) (he : e ∈ slots) (hne : e ≠ d)
    (f : ImmutableStoreEntry → ImmutableStoreEntry) : e ∈ slots.modify slot f := by
  obtain ⟨i, hi⟩ := mem_iff_getElem?.mp he
  have ho : slot ≠ i := by
    rintro rfl
    exact hne (some.inj (hi.symm.trans hsl))
  apply mem_iff_getElem?.mpr
  exact ⟨i, (getElem?_modify_ne f slots ho).trans hi⟩

/-! ## Copy -/

section Copy

variable {bucket : ImmutableStoreBucket} {partition : Partition} {hash : Hash}

/-- The slot holds a live association of the partition. -/
def LiveIn (bucket : ImmutableStoreBucket) (partition : Partition) (hash : Hash)
    (slot : Nat) : Prop :=
  ∃ e, bucket.at? slot = some e ∧ e.address.hash = hash ∧ e.partition = partition
    ∧ e.data.isObliterated = false

/-- The slot holds a payload. -/
def HasPayload (bucket : ImmutableStoreBucket) (slot : Nat) : Prop :=
  ∃ e, bucket.at? slot = some e ∧ e.data.packFile ≠ 0

theorem LiveIn.inRun {slot} (h : LiveIn bucket partition hash slot) :
    inPartitionRun bucket partition hash slot = true := by
  obtain ⟨e, he, hh, hp, _⟩ := h
  simp [inPartitionRun, he, hh, hp]

/-- What the walk knows of the slots it is past: the fallback is a live association, and it has
one if any of them is live, none of which holds a payload. -/
structure Passed (bucket : ImmutableStoreBucket) (partition : Partition) (hash : Hash)
    (ahead : Nat → Prop) (representationOnly : Option Nat) : Prop where
  kept : ∀ s ∈ representationOnly, LiveIn bucket partition hash s
  rest : ∀ s, LiveIn bucket partition hash s →
    ahead s ∨ ¬ HasPayload bucket s ∧ representationOnly ≠ none

theorem isCopySource_spec {slot representationOnly} {ahead : Nat → Prop}
    (hrun : inPartitionRun bucket partition hash slot = true)
    (h : Passed bucket partition hash (fun s => s = slot ∨ ahead s) representationOnly) :
    match isCopySource bucket slot representationOnly with
    | (true, _) => LiveIn bucket partition hash slot ∧ HasPayload bucket slot
    | (false, kept) => Passed bucket partition hash ahead kept := by
  unfold inPartitionRun at hrun
  unfold isCopySource
  cases hat : bucket.at? slot with
  | none => simp [hat] at hrun
  | some e =>
    rw [hat] at hrun
    have hm : e.address.hash = hash ∧ e.partition = partition := by simpa using hrun
    have hnot : e.data.packFile = 0 → ¬ HasPayload bucket slot := by
      rintro hz ⟨d, hd, hne⟩
      cases hat.symm.trans hd
      exact hne hz
    dsimp only
    split_ifs with hobl hpack
    · refine ⟨h.kept, fun s hs => ?_⟩
      rcases h.rest s hs with (rfl | ha) | hd
      · obtain ⟨d, hd, _, _, hli⟩ := hs
        cases hat.symm.trans hd
        rw [hobl] at hli
        cases hli
      · exact .inl ha
      · exact .inr hd
    · exact ⟨⟨e, hat, hm.1, hm.2, by simpa using hobl⟩, e, hat, hpack⟩
    · have ht : LiveIn bucket partition hash slot := ⟨e, hat, hm.1, hm.2, by simpa using hobl⟩
      refine ⟨fun s hs => ?_, fun s hs => ?_⟩
      · cases hr : representationOnly with
        | none =>
          rw [hr] at hs
          cases hs
          exact ht
        | some r =>
          rw [hr] at hs
          cases hs
          exact h.kept _ hr
      · rcases h.rest s hs with (rfl | ha) | hd
        · exact .inr ⟨hnot (not_not.mp hpack), by cases representationOnly <;> simp⟩
        · exact .inl ha
        · exact .inr ⟨hd.1, by cases representationOnly <;> simp⟩

/-- One side of a round, `reach` being the slots of the run on that side. -/
theorem walkSide_spec (next : Nat → Option Nat) (reach : Nat → Nat → Prop) {others : Nat → Prop}
    (hreach : ∀ s b, inPartitionRun bucket partition hash b = true →
      LiveIn bucket partition hash s → reach s b → s = b ∨ ∃ t ∈ next b, reach s t)
    {slot representationOnly} (hrun : ∀ s ∈ slot, inPartitionRun bucket partition hash s = true)
    (h : Passed bucket partition hash (fun s => (∃ b ∈ slot, reach s b) ∨ others s)
      representationOnly) :
    match walkSide bucket next slot representationOnly with
    | .error found => LiveIn bucket partition hash found ∧ HasPayload bucket found
    | .ok (moved, kept) => moved = slot.bind next ∧
        Passed bucket partition hash (fun s => (∃ b ∈ moved, reach s b) ∨ others s) kept := by
  unfold walkSide
  cases slot with
  | none => exact ⟨rfl, h⟩
  | some slot =>
    have hin := hrun slot rfl
    have hpa : Passed bucket partition hash
        (fun s => s = slot ∨ (∃ b ∈ next slot, reach s b) ∨ others s) representationOnly := by
      refine ⟨h.kept, fun s hs => (h.rest s hs).imp_left fun ha => ?_⟩
      rcases ha with ⟨b, hb, hr⟩ | ho
      · cases hb
        exact (hreach s slot hin hs hr).imp_right .inl
      · exact .inr (.inr ho)
    have hsp := isCopySource_spec hin hpa
    dsimp only
    rcases hs : isCopySource bucket slot representationOnly with ⟨isSource, kept⟩
    rw [hs] at hsp
    cases isSource with
    | true => exact hsp
    | false => exact ⟨rfl, hsp⟩

theorem runBefore_eq_some {s t} : runBefore bucket partition hash s = some t ↔
    s = t + 1 ∧ inPartitionRun bucket partition hash t = true := by
  rw [runBefore, ite_none_right_eq_some, some.injEq]
  constructor
  · rintro ⟨⟨hpos, hin⟩, rfl⟩
    exact ⟨by omega, hin⟩
  · rintro ⟨rfl, hin⟩
    exact ⟨⟨Nat.succ_pos t, hin⟩, rfl⟩

theorem runAfter_eq_some {s t} : runAfter bucket partition hash s = some t ↔
    t = s + 1 ∧ inPartitionRun bucket partition hash t = true := by
  rw [runAfter, ite_none_right_eq_some, some.injEq]
  constructor
  · rintro ⟨hin, rfl⟩
    exact ⟨rfl, hin⟩
  · rintro ⟨rfl, hin⟩
    exact ⟨hin, rfl⟩

theorem inPartitionRun_iff {slot} : inPartitionRun bucket partition hash slot = true ↔
    ∃ e, bucket.at? slot = some e ∧ e.address.hash = hash ∧ e.partition = partition := by
  unfold inPartitionRun
  cases bucket.at? slot <;> simp

theorem inPartitionRun_between (h : Ordered bucket) {i j k} (hij : i ≤ j) (hjk : j ≤ k)
    (hi : inPartitionRun bucket partition hash i = true)
    (hk : inPartitionRun bucket partition hash k = true) :
    inPartitionRun bucket partition hash j = true := by
  obtain ⟨c, hc, rfl, rfl⟩ := inPartitionRun_iff.mp hk
  obtain ⟨a, ha, hm⟩ := inPartitionRun_iff.mp hi
  rw [← Indexed.getElem?_slots h.indexed] at ha hc
  obtain ⟨b, hb⟩ : ∃ b, bucket.slots[j]? = some b :=
    ⟨_, getElem?_eq_getElem (Nat.lt_of_le_of_lt hjk (List.getElem?_eq_some_iff.mp hc).1)⟩
  refine inPartitionRun_iff.mpr ⟨b, (Indexed.getElem?_slots h.indexed j).symm.trans hb, ?_⟩
  -- seen from the last of them, the one between matches as well as the first
  have hle : matchOf c.partition c.address a ≤ matchOf c.partition c.address b :=
    matchOf_le_of_between
      (.inl ⟨key_le_of_le h.sorted ha hb hij, key_le_of_le h.sorted hb hc hjk⟩)
  exact matchPartition_le_matchOf.mp (Nat.le_trans (matchPartition_le_matchOf.mpr hm) hle)

/-- What the walk answers: a live association of the partition, one with a payload if there is
any. -/
def CopySource (bucket : ImmutableStoreBucket) (partition : Partition) (hash : Hash) :
    Option Nat → Prop
  | some slot => LiveIn bucket partition hash slot ∧
      (HasPayload bucket slot ∨ ∀ s, LiveIn bucket partition hash s → ¬ HasPayload bucket s)
  | none => ∀ s, ¬ LiveIn bucket partition hash s

theorem Passed.copySource {ahead : Nat → Prop} {kept} (h : Passed bucket partition hash ahead kept)
    (hno : ∀ s, ¬ ahead s) : CopySource bucket partition hash kept := by
  have hrest := fun s hs => (h.rest s hs).resolve_left (hno s)
  cases kept with
  | none => exact fun s hs => (hrest s hs).2 rfl
  | some slot => exact ⟨h.kept slot rfl, .inr fun s hs => (hrest s hs).1⟩

section

variable (h : Ordered bucket) {s b : Nat}
  (hin : inPartitionRun bucket partition hash b = true) (hs : LiveIn bucket partition hash s)
include h hin hs

theorem runBefore_reach (hle : s ≤ b) : s = b ∨ ∃ t ∈ runBefore bucket partition hash b, s ≤ t := by
  rcases Nat.lt_or_eq_of_le hle with hlt | heq
  · refine .inr ⟨b - 1, runBefore_eq_some.mpr ⟨by omega, ?_⟩, by omega⟩
    exact inPartitionRun_between h (by omega) (Nat.sub_le b 1) hs.inRun hin
  · exact .inl heq

theorem runAfter_reach (hle : b ≤ s) : s = b ∨ ∃ t ∈ runAfter bucket partition hash b, t ≤ s := by
  rcases Nat.lt_or_eq_of_le hle with hlt | heq
  · refine .inr ⟨b + 1, runAfter_eq_some.mpr ⟨rfl, ?_⟩, hlt⟩
    exact inPartitionRun_between h (Nat.le_succ b) hlt hin hs.inRun
  · exact .inl heq.symm

end

/-- The fuel bounds how far either end is from the end of the bucket. -/
theorem copySourceWalk_spec (h : Ordered bucket) {fuel back forward representationOnly}
    (hb : ∀ s ∈ back, inPartitionRun bucket partition hash s = true ∧ s < fuel)
    (hf : ∀ s ∈ forward, inPartitionRun bucket partition hash s = true ∧
      bucket.slots.length ≤ s + fuel) (hp : Passed bucket partition hash
      (fun s => (∃ b ∈ back, s ≤ b) ∨ ∃ f ∈ forward, f ≤ s) representationOnly) :
    CopySource bucket partition hash
      (copySourceWalk bucket partition hash fuel back forward representationOnly) := by
  induction fuel generalizing back forward representationOnly with
  | zero =>
    refine hp.copySource fun s hs => ?_
    rcases hs with ⟨b, hmem, _⟩ | ⟨f, hmem, _⟩
    · exact Nat.not_lt_zero b (hb b hmem).2
    · obtain ⟨e, he, _⟩ := inPartitionRun_iff.mp (hf f hmem).1
      rw [← Indexed.getElem?_slots h.indexed] at he
      exact Nat.not_lt_of_le (hf f hmem).2 (List.getElem?_eq_some_iff.mp he).1
  | succ fuel ih =>
    rw [copySourceWalk]
    split
    case isTrue hn =>
      rw [isNone_iff_eq_none.mp hn.1, isNone_iff_eq_none.mp hn.2] at hp
      exact hp.copySource (by simp)
    case isFalse =>
      have hba := walkSide_spec (runBefore bucket partition hash) (· ≤ ·)
        (fun _ _ => runBefore_reach h) (fun s hs => (hb s hs).1) hp
      cases hw : walkSide bucket (runBefore bucket partition hash) back
          representationOnly with
      | error found =>
        rw [hw] at hba
        exact ⟨hba.1, .inl hba.2⟩
      | ok moved =>
        obtain ⟨back', kept⟩ := moved
        rw [hw] at hba
        obtain ⟨rfl, hp⟩ := hba
        have hfo := walkSide_spec (runAfter bucket partition hash) (fun s f => f ≤ s)
          (fun _ _ => runAfter_reach h) (fun s hs => (hf s hs).1)
          ⟨hp.kept, fun s hs => (hp.rest s hs).imp_left Or.symm⟩
        dsimp only
        cases hw' : walkSide bucket (runAfter bucket partition hash) forward kept with
        | error found =>
          rw [hw'] at hfo
          exact ⟨hfo.1, .inl hfo.2⟩
        | ok moved' =>
          obtain ⟨forward', kept'⟩ := moved'
          rw [hw'] at hfo
          obtain ⟨rfl, hp'⟩ := hfo
          refine ih (fun s hs => ?_) (fun s hs => ?_)
            ⟨hp'.kept, fun s hs => (hp'.rest s hs).imp_left Or.symm⟩
          · obtain ⟨b, hmem, hn⟩ := bind_eq_some_iff.mp hs
            have hlt := (hb b hmem).2
            obtain ⟨rfl, hin⟩ := runBefore_eq_some.mp hn
            exact ⟨hin, Nat.lt_of_succ_lt_succ hlt⟩
          · obtain ⟨f, hmem, hn⟩ := bind_eq_some_iff.mp hs
            have hle := (hf f hmem).2
            obtain ⟨rfl, hin⟩ := runAfter_eq_some.mp hn
            exact ⟨hin, by omega⟩

theorem copySourceSlot_zero (h : Ordered bucket) (partition : Partition) (hash : Hash) :
    CopySource bucket partition hash (copySourceSlot bucket partition ⟨hash, 0⟩) := by
  unfold copySourceSlot
  rw [if_neg (not_not.mpr rfl)]
  rcases hl : lookup bucket partition ⟨hash, 0⟩ .matchPartition with ⟨anchor, start, made⟩
  have hsp := lookup_spec h (by decide) hl
  dsimp only
  split
  case isTrue hlt =>
    rintro s ⟨e, he, hh, hp, _⟩
    rw [← Indexed.getElem?_slots h.indexed] at he
    have hle := hsp.best hlt e (mem_of_getElem? he)
    have hge : StoreMatch.matchPartition ≤ matchOf partition ⟨hash, 0⟩ e :=
      matchPartition_le_matchOf.mpr ⟨hh, hp⟩
    exact Nat.not_lt_of_le (Nat.le_trans hge hle) hlt
  case isFalse hge =>
    have hle : StoreMatch.matchPartition ≤ made := Nat.le_of_not_lt hge
    have hne : made ≠ .matchNone := by
      rintro rfl
      exact absurd hle (by decide)
    obtain ⟨e, he, hm⟩ := hsp.matched hne
    have hlt := (List.getElem?_eq_some_iff.mp he).1
    rw [Indexed.getElem?_slots h.indexed] at he
    have ha : inPartitionRun bucket partition hash anchor = true :=
      inPartitionRun_iff.mpr ⟨e, he, matchPartition_le_matchOf.mp (Nat.le_trans hle hm)⟩
    have hlen := Indexed.length_slots h.indexed
    refine copySourceWalk_spec h (fun s hs => ?_) (fun s hs => ?_)
      ⟨(fun s hs => nomatch hs), fun s hs => .inl ?_⟩
    · cases hs
      exact ⟨ha, by omega⟩
    · exact ⟨(runAfter_eq_some.mp hs).2, by omega⟩
    · by_cases hle : s ≤ anchor
      · exact .inl ⟨anchor, rfl, hle⟩
      · exact .inr ((runAfter_reach h ha hs (Nat.le_of_not_le hle)).resolve_left (by omega))

theorem copySourceSlot_of_context (h : Ordered bucket) {address slot}
    (hz : address.context ≠ 0) : copySourceSlot bucket partition address = some slot ↔
      ∃ e, bucket.slots[slot]? = some e ∧ e.address = address ∧ e.partition = partition
        ∧ e.data.isObliterated = false := by
  rcases hl : lookup bucket partition address .matchFull with ⟨found, start, made⟩
  rw [copySourceSlot, if_pos hz, hl]
  rw [ite_none_right_eq_some, ← Indexed.getElem?_slots h.indexed, map_eq_some_iff]
  constructor
  · rintro ⟨⟨rfl, d, hd, hli⟩, ⟨⟩⟩
    obtain ⟨e, he, hkey⟩ := lookup_full h hl
    cases hd.symm.trans he
    obtain ⟨ha, hp⟩ := key_eq_iff.mp hkey
    exact ⟨d, hd, ha, hp, hli⟩
  · rintro ⟨e, he, ha, hp, hli⟩
    have hkey := key_eq_iff.mpr ⟨ha, hp⟩
    obtain ⟨other, start', hl', he'⟩ := lookup_of_mem h (mem_of_getElem? he) hkey
    cases hl.symm.trans hl'
    cases slot_of_key h.sorted he he' rfl
    exact ⟨⟨rfl, e, he, hli⟩, rfl⟩

theorem copySourceSlot_spec (h : Ordered bucket) {address slot}
    (hso : copySourceSlot bucket partition address = some slot) :
    ∃ e, bucket.slots[slot]? = some e ∧ e.address.hash = address.hash
      ∧ e.partition = partition ∧ e.data.isObliterated = false := by
  by_cases hz : address.context ≠ 0
  · obtain ⟨e, he, rfl, hm⟩ := (copySourceSlot_of_context h hz).mp hso
    exact ⟨e, he, rfl, hm⟩
  · obtain ⟨hash, context⟩ := address
    obtain rfl : context = 0 := not_not.mp hz
    have hso' := copySourceSlot_zero h partition hash
    rw [hso] at hso'
    obtain ⟨⟨e, he, hm⟩, _⟩ := hso'
    exact ⟨e, (Indexed.getElem?_slots h.indexed slot).trans he, hm⟩

/-- The data a copy leaves in its destination. -/
def copiedData (before source : ImmutableData) (durable : Bool) (now : UInt64) : ImmutableData :=
  let data := before.mergeFromCopySource source durable
  if data ≠ before then { data with lastAccess := now } else data

/-- What a copy that succeeds does: the destination takes over the source's payload, in
its own entry or in a new one. -/
inductive CopyCase (bucket : ImmutableStoreBucket) (sourcePartition : Partition)
    (sourceAddress : Address) (destinationPartition : Partition) (destinationContext : Context)
    (durable : Bool) (now : UInt64) (source : ImmutableStoreEntry) :
    ImmutableStoreBucket → Prop where
  | overlaid {slot start : Nat} {d : ImmutableStoreEntry} {after : ImmutableStoreBucket}
      (hlookup : lookup bucket destinationPartition ⟨sourceAddress.hash, destinationContext⟩
        .matchFull = (slot, start, .matchFull))
      (hslot : bucket.slots[slot]? = some d)
      (hkey : d.key = sortKey destinationPartition ⟨sourceAddress.hash, destinationContext⟩)
      (hordered : Ordered after)
      (hafter : after.slots = bucket.slots.modify slot fun e =>
        e.mapData fun before => copiedData before source.data durable now) :
      CopyCase bucket sourcePartition sourceAddress destinationPartition destinationContext
        durable now source after
  | added {slot start : Nat} {made : StoreMatch} {after : ImmutableStoreBucket}
      (hlookup : lookup bucket destinationPartition ⟨sourceAddress.hash, destinationContext⟩
        .matchFull = (slot, start, made))
      (hmade : made ≠ .matchFull) (hordered : Ordered after)
      (hafter : after.slots = bucket.slots.insertIdx start
        ⟨⟨sourceAddress.hash, destinationContext⟩, destinationPartition,
          { ImmutableData.default.mergeFromCopySource source.data durable with
            lastAccess := now }⟩) :
      CopyCase bucket sourcePartition sourceAddress destinationPartition destinationContext
        durable now source after

theorem copyEntry_case (h : Ordered bucket)
    {sourcePartition destinationPartition sourceAddress destinationContext durable now after}
    (hc : copyEntry bucket sourcePartition sourceAddress destinationPartition
      destinationContext durable now = .ok after) :
    ∃ slot source, copySourceSlot bucket sourcePartition sourceAddress = some slot
      ∧ bucket.slots[slot]? = some source
      ∧ source.address.hash = sourceAddress.hash ∧ source.partition = sourcePartition
      ∧ source.data.isObliterated = false
      ∧ CopyCase bucket sourcePartition sourceAddress destinationPartition destinationContext
        durable now source after := by
  unfold copyEntry at hc
  cases hslo : copySourceSlot bucket sourcePartition sourceAddress with
  | none =>
    rw [hslo] at hc
    cases hc
  | some slot =>
    obtain ⟨source, hso, hh, hp, hli⟩ := copySourceSlot_spec h hslo
    refine ⟨slot, source, rfl, hso, hh, hp, hli, ?_⟩
    rw [hslo, bind_some, ← Indexed.getElem?_slots h.indexed, hso] at hc
    dsimp only at hc
    rcases hl : lookup bucket destinationPartition
      ⟨sourceAddress.hash, destinationContext⟩ .matchFull with ⟨dest, start, made⟩
    rw [hl] at hc
    dsimp only at hc
    split at hc
    case isTrue hf =>
      cases hc
      rw [hf] at hl
      obtain ⟨d, hd, hkey⟩ := lookup_full h hl
      exact .overlaid hl hd hkey (h.modifyAt dest fun _ => rfl)
        (Indexed.slots_modifyAt h.indexed dest _)
    case isFalse hm =>
      cases hc
      obtain ⟨ho, hsl⟩ := h.insertAt hl (lt_matchFull hm)
        { ImmutableData.default.mergeFromCopySource source.data durable with
          lastAccess := now }
      exact .added hl hm ho hsl

end Copy

/-! ## Obliterate -/

/-- What `tombstone` does: nothing, or the entry of the association becomes a tombstone. -/
inductive TombstoneCase (bucket : ImmutableStoreBucket) (slot : Nat) (e : ImmutableStoreEntry) :
    Tombstone → ImmutableStoreBucket → Prop where
  | already (hobl : e.data.isObliterated = true) : TombstoneCase bucket slot e .already bucket
  | waits : TombstoneCase bucket slot e .zeroOnceCompactionStops bucket
  | entombed {result : Tombstone} {after : ImmutableStoreBucket}
      (hlive : e.data.isObliterated = false) (hordered : Ordered after)
      (hresult : result = .kept ∨ result = .zero e.data)
      (hafter : after.slots = bucket.slots.modify slot (withData .tombstone)) :
      TombstoneCase bucket slot e result after

theorem tombstoneEntry_case {bucket after} (h : Ordered bucket)
    {partition address compactionStopped result}
    (ht : tombstoneEntry bucket partition address compactionStopped = .ok (result, after)) :
    ∃ slot e, bucket.slots[slot]? = some e ∧ e.key = sortKey partition address
      ∧ TombstoneCase bucket slot e result after
      ∧ (result = .kept → isLastFragment bucket slot address.hash = true → e.data.packFile = 0) := by
  unfold tombstoneEntry at ht
  rcases hl : lookup bucket partition address .matchFull with ⟨slot, start, made⟩
  rw [hl] at ht
  dsimp only at ht
  by_cases hf : made = .matchFull
  · rw [hf] at hl
    obtain ⟨e, he, hkey⟩ := lookup_full h hl
    refine ⟨slot, e, he, hkey, ?_⟩
    rw [if_pos hf, ← Indexed.getElem?_slots h.indexed, he] at ht
    dsimp only at ht
    split at ht
    case isTrue hobl =>
      cases ht
      exact ⟨.already hobl, nofun⟩
    case isFalse hli =>
      split at ht
      case isTrue =>
        cases ht
        exact ⟨.waits, nofun⟩
      case isFalse =>
        obtain ⟨hr, ha⟩ := Prod.mk.inj (Except.ok.inj ht)
        rw [← ha, ← hr]
        refine ⟨.entombed (by simpa using hli) (h.modifyAt slot fun _ => rfl) ?_
          (Indexed.slots_modifyAt h.indexed slot _), fun hk hla => ?_⟩
        · split
          · exact Or.inr rfl
          · exact Or.inl rfl
        · simpa [hla] using hk
  · rw [if_neg hf] at ht
    cases ht

/-! ## Rebuilding and mapping -/

section Rebuild

variable {bucket : ImmutableStoreBucket}

theorem evictUpTo_ordered (h : Ordered bucket) (cutoff : UInt64) (protect : Bool) :
    Ordered (evictUpTo bucket cutoff protect) := h.ofSublist filter_sublist

theorem slots_evictUpTo (cutoff : UInt64) (protect : Bool) :
    (evictUpTo bucket cutoff protect).slots = bucket.slots.filter fun e =>
      !(evictable e.data protect && e.data.lastAccess ≤ cutoff) := Indexed.slots_ofList _

section

variable (h : Ordered bucket)
include h

theorem healPayload_ordered (hash : Hash) (failed : ImmutableData) :
    Ordered (healPayload bucket hash failed) := h.ofSublist filter_sublist

theorem healFragment_ordered (hash : Hash) (failed : List ImmutableData) :
    Ordered (healFragment bucket hash failed) := h.ofSublist filter_sublist

theorem stampEntry_ordered (slot : Nat) (now : UInt64) : Ordered (stampEntry bucket slot now) :=
  h.modifyAt slot fun _ => rfl

theorem repointEntries_ordered (packfile : UInt32)
    (copies : List PayloadCopy) : Ordered (repointEntries bucket packfile copies) :=
  h.mapEntries fun _ => rfl

theorem evictAccessedBy_ordered (cutoff : UInt64) (protect : Bool) :
    Ordered (evictAccessedBy bucket cutoff protect) := by
  refine h.mapEntries fun e => ?_
  split <;> rfl

end

end Rebuild

end Lore.Storage
