import Lore.Lib.Machine
import Lore.Storage.Sharing

/-!
# BucketRun — sharing over the runs of a bucket

A bucket changes by whole operations under its lock. `bucketStep` is one of them, an
operation that fails leaving the bucket as it was, and a run is any sequence. Runs whose
stores meet `StoreKeepsSharing` keep every live association of a hash on one payload; the
forced put of `forcedPut` is one that does not.
-/

namespace Lore.Storage

open Lore.Lib
open ImmutableData (SamePayload)

/-- What changes a bucket. A put is `storeEntry` without a payload, or with one not yet
written and, where it is needed, again once it is. -/
inductive BucketAction where
  | storeEntry (partition : Partition) (address : Address) (fragment : Fragment)
      (payload : StorePayload) (force : Bool) (now : UInt64)
  | copy (sourcePartition : Partition) (sourceAddress : Address)
      (destinationPartition : Partition) (destinationContext : Context) (durable : Bool)
      (now : UInt64)
  | tombstone (partition : Partition) (address : Address) (compactionStopped : Bool)
  | evictUpTo (cutoff : UInt64) (protectLocalFragment : Bool)
  | evictAccessedBy (cutoff : UInt64) (protectLocalFragment : Bool)
  | repoint (packfile : UInt32) (copies : List PayloadCopy)
  | stamp (slot : Nat) (now : UInt64)
deriving Repr

instance (bucket : ImmutableStoreBucket) (at_ : PackStoreRef) : Decidable (Fresh bucket at_) :=
  inferInstanceAs (Decidable (_ ∧ _))

instance (bucket : ImmutableStoreBucket) (fragment : Fragment) (payload : StorePayload) :
    Decidable (StoreGiven bucket fragment payload) :=
  match payload with
  | .written at_ => decidable_of_iff
      (flagsObliterated fragment.flags = false ∧ Fresh bucket at_)
      ⟨fun h => ⟨h.1, fun _ heq => StorePayload.written.inj heq ▸ h.2⟩,
        fun h => ⟨h.flags, h.fresh at_ rfl⟩⟩
  | .absent => decidable_of_iff (flagsObliterated fragment.flags = false)
      ⟨fun h => ⟨h, fun _ heq => nomatch heq⟩, fun h => h.flags⟩
  | .unwritten => decidable_of_iff (flagsObliterated fragment.flags = false)
      ⟨fun h => ⟨h, fun _ heq => nomatch heq⟩, fun h => h.flags⟩

/-- One change of a bucket, `none` where a caller cannot make it: a put refuses a fragment
flagged as obliterated, the packstore hands out fresh ranges only, and no packfile has the
id 0. -/
def bucketStep (bucket : ImmutableStoreBucket) : BucketAction → Option ImmutableStoreBucket
  | .storeEntry partition address fragment payload force now =>
      if StoreGiven bucket fragment payload then
        match storeEntry bucket partition address fragment payload force now with
        | .ok (_, after) => some after
        | .error _ => some bucket
      else none
  | .copy sourcePartition sourceAddress destinationPartition destinationContext durable now =>
      match copyEntry bucket sourcePartition sourceAddress destinationPartition
        destinationContext durable now with
      | .ok after => some after
      | .error _ => some bucket
  | .tombstone partition address compactionStopped =>
      match tombstoneEntry bucket partition address compactionStopped with
      | .ok (_, after) => some after
      | .error _ => some bucket
  | .evictUpTo cutoff protect => some (evictUpTo bucket cutoff protect)
  | .evictAccessedBy cutoff protect => some (evictAccessedBy bucket cutoff protect)
  | .repoint packfile copies =>
      if packfile ≠ 0 then some (repointEntries bucket packfile copies) else none
  | .stamp slot now => some (stampEntry bucket slot now)

/-- The condition on a step that keeps sharing, one on stores alone. -/
def KeepsSharing (bucket : ImmutableStoreBucket) : BucketAction → Prop
  | .storeEntry partition address _ payload force _ =>
      StoreKeepsSharing bucket partition address payload force
  | _ => True

theorem Sharing.step {bucket after action} (h : Sharing bucket) (hk : KeepsSharing bucket action)
    (hste : bucketStep bucket action = some after) : Sharing after := by
  cases action with
  | storeEntry partition address fragment payload force now =>
    obtain ⟨hg, hste⟩ := Option.ite_none_right_eq_some.mp hste
    split at hste
    case h_1 outcome stored hst =>
      cases hste
      exact (h.store hg hk (storeEntry_case h.ordered hst)).1
    case h_2 =>
      cases hste
      exact h
  | copy sourcePartition sourceAddress destinationPartition destinationContext durable now =>
    simp only [bucketStep] at hste
    split at hste
    case h_1 copied hc =>
      cases hste
      exact h.copy hc
    case h_2 =>
      cases hste
      exact h
  | tombstone partition address compactionStopped =>
    simp only [bucketStep] at hste
    split at hste
    case h_1 result entombed ht =>
      cases hste
      exact h.tombstone ht
    case h_2 =>
      cases hste
      exact h
  | evictUpTo cutoff protect =>
    cases hste
    exact h.evictUpTo cutoff protect
  | evictAccessedBy cutoff protect =>
    cases hste
    exact h.evictAccessedBy cutoff protect
  | repoint packfile copies =>
    obtain ⟨hp, rfl⟩ := guarded hste
    exact h.repoint hp copies
  | stamp slot now =>
    cases hste
    exact h.stamp slot now

/-- In every bucket reached from the empty one by steps under the condition, the live
entries of a hash hold one payload; and a store under it that returns a payload leaves
every live entry of the hash pointing at that payload. -/
theorem live_entries_share_payload {actions : List BucketAction}
    {bucket : ImmutableStoreBucket} (hrun : run bucketStep .empty actions = some bucket)
    (hkeeps : StepsMeet bucketStep KeepsSharing .empty actions) :
    (∀ e ∈ bucket.slots, ∀ d ∈ bucket.slots, e.address.hash = d.address.hash →
      e.data.isObliterated = false → d.data.isObliterated = false → e.data.packFile ≠ 0 →
        SamePayload e.data d.data)
    ∧ ∀ partition address fragment payload force now flags packFile after,
      StoreGiven bucket fragment payload →
      StoreKeepsSharing bucket partition address payload force →
      storeEntry bucket partition address fragment payload force now
        = .ok (.stored flags packFile, after) → packFile ≠ 0 →
      PayloadHandedOn after partition address packFile := by
  have hsh : Sharing bucket := run_invariant_of_stepsMeet bucketStep
    (fun _ _ _ h hgo hste => h.step hgo hste) .empty hkeeps hrun
  refine ⟨hsh.shared, ?_⟩
  intro partition address fragment payload force now flags packFile after hg hm hst hp
  exact (hsh.store hg hm (storeEntry_case hsh.ordered hst)).2 flags packFile rfl hp

/-- A put of four bytes of payload. -/
def payloadPut (partition : Partition) (address : Address) (force : Bool) (at_ : PackStoreRef) :
    List BucketAction :=
  [.storeEntry partition address ⟨0#32, 4, 4⟩ .unwritten force 1,
    .storeEntry partition address ⟨0#32, 4, 4⟩ (.written at_) force 1]

/-- A bucket that holds one association, with its payload. -/
def onePayload : ImmutableStoreBucket :=
  ⟨[0], [⟨⟨1#256, 1#128⟩, 1#128, ⟨FragmentFlags.payloadStoredLocal, 4, 4, 0, 1, 1⟩⟩]⟩

/-- The bucket with a second association of the hash. -/
def sharedPayload : ImmutableStoreBucket :=
  ⟨[0, 1], onePayload.entry
    ++ [⟨⟨1#256, 2#128⟩, 1#128, ⟨FragmentFlags.payloadStoredLocal, 4, 4, 0, 1, 2⟩⟩]⟩

/-- Two partitions and two contexts of one hash, one of them a tombstone, and two of a second. -/
def fiveEntries : ImmutableStoreBucket :=
  ⟨[1, 3, 4, 0, 2],
    [⟨⟨2#256, 1#128⟩, 1#128, ⟨FragmentFlags.payloadStoredDurable, 4, 4, 4, 1, 3⟩⟩,
      ⟨⟨1#256, 1#128⟩, 1#128, ⟨FragmentFlags.payloadStoredDurable, 4, 4, 0, 1, 1⟩⟩,
      ⟨⟨2#256, 1#128⟩, 2#128, ⟨FragmentFlags.payloadStoredDurable, 8, 8, 8, 1, 7⟩⟩,
      ⟨⟨1#256, 2#128⟩, 1#128, .tombstone⟩,
      ⟨⟨1#256, 1#128⟩, 2#128, ⟨FragmentFlags.payloadStoredLocal, 4, 4, 0, 1, 2⟩⟩]⟩

theorem fiveEntries_ordered : Ordered fiveEntries :=
  ⟨show [1, 3, 4, 0, 2].Perm (List.range 5) by decide, by decide⟩

theorem storeKeepsSharing_empty {partition address payload force} :
    StoreKeepsSharing .empty partition address payload force :=
  ⟨fun hm => (nomatch hm), fun _ _ _ _ he => (nomatch he)⟩

theorem live_entries_share_payload_two :
    run bucketStep .empty (payloadPut 1#128 ⟨1#256, 1#128⟩ false ⟨1, 0⟩) = some onePayload
    ∧ storeEntry onePayload 1#128 ⟨1#256, 2#128⟩ ⟨0#32, 4, 4⟩ .unwritten false 2
        = .ok (.stored 0#32 1, sharedPayload)
    ∧ PayloadHandedOn sharedPayload 1#128 ⟨1#256, 2#128⟩ 1 := by
  have hrun : run bucketStep .empty (payloadPut 1#128 ⟨1#256, 1#128⟩ false ⟨1, 0⟩)
    = some onePayload := by decide
  have hk : StepsMeet bucketStep KeepsSharing .empty
      (payloadPut 1#128 ⟨1#256, 1#128⟩ false ⟨1, 0⟩) := by
    refine ⟨storeKeepsSharing_empty, fun t ht => ⟨?_, fun _ _ => trivial⟩⟩
    have he : t = .empty := (Option.some.inj ht).symm
    subst he
    exact storeKeepsSharing_empty
  have hm : StoreKeepsSharing onePayload 1#128 ⟨1#256, 2#128⟩ .unwritten false :=
    ⟨fun hma => (nomatch hma), fun _ hc => (nomatch hc)⟩
  have hst : storeEntry onePayload 1#128 ⟨1#256, 2#128⟩ ⟨0#32, 4, 4⟩ .unwritten false 2
    = .ok (.stored 0#32 1, sharedPayload) := by rfl
  refine ⟨hrun, hst, ?_⟩
  exact (live_entries_share_payload hrun hk).2 _ _ _ _ _ _ _ _ _ (by decide) hm hst (by decide)

/-- Two payloads of other hashes, a payload put under two contexts of a third, and a forced
put over the first of the two. -/
def forcedPut : List BucketAction :=
  payloadPut 1#128 ⟨1#256, 1#128⟩ false ⟨1, 0⟩ ++ payloadPut 1#128 ⟨2#256, 1#128⟩ false ⟨1, 4⟩
    ++ payloadPut 1#128 ⟨3#256, 1#128⟩ false ⟨1, 8⟩
    ++ [.storeEntry 1#128 ⟨3#256, 2#128⟩ ⟨0#32, 4, 4⟩ .unwritten false 1]
    ++ payloadPut 1#128 ⟨3#256, 1#128⟩ true ⟨1, 12⟩

/-- The search for the third slot of four stops at the first probe, with the insertion slot
still 0. The sweep up from there ends at the second slot, which is of another hash. -/
theorem forced_put_leaves_sibling_behind :
    ∃ bucket, run bucketStep .empty forcedPut = some bucket
      ∧ ∃ e ∈ bucket.slots, ∃ d ∈ bucket.slots, e.address.hash = d.address.hash
        ∧ e.data.isObliterated = false ∧ d.data.isObliterated = false ∧ e.data.packFile ≠ 0
        ∧ ¬ SamePayload e.data d.data := by
  decide

end Lore.Storage
