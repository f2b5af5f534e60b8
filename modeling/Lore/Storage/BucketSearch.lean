import Lore.Storage.Obliterated

/-!
# BucketSearch — what the searches of a bucket find

A search short of its request has found the best match of the bucket and the slot the entry
belongs at; a copy that names no context takes its source from anywhere in the run of its
partition. Both rest on the order of the bucket, which every run of the store keeps.
-/

namespace Lore.Storage

open Lore.Lib

theorem lookup_none (bucket : ImmutableStoreBucket) (partition : Partition) (address : Address) :
    lookup bucket partition address .matchNone = lookup bucket partition address .matchFull := by
  have hfrom : ∀ fuel start stop made matchSlot,
      lookupFrom bucket partition address .matchNone fuel start stop made matchSlot
        = lookupFrom bucket partition address .matchFull fuel start stop made matchSlot := by
    intro fuel
    induction fuel with
    | zero => exact fun _ _ _ _ => rfl
    | succ fuel ih =>
      intro start stop made matchSlot
      simp only [lookupFrom, probe, reduceCtorEq, ih]
  exact hfrom _ _ _ _ _

/-- The search finds the best match up to its request, and short of it where the entry belongs;
the source of a copy is found where there is one, that very association where the copy names a
context; and every run of the store keeps its buckets
in the order this rests on. -/
theorem bucket_search_exact {bucket} (h : Ordered bucket) (partition : Partition) :
    (∀ address, lookup bucket partition address .matchNone
        = lookup bucket partition address .matchFull
      ∧ ∀ request, request ≠ .matchNone → ∀ slot insertSlot made,
        lookup bucket partition address request = (slot, insertSlot, made) →
        made ≤ request
        ∧ (∀ level ≤ request, ∀ e ∈ bucket.slots, level ≤ matchOf partition address e → level ≤ made)
        ∧ (made ≠ .matchNone →
          ∃ e, bucket.slots[slot]? = some e ∧ made ≤ matchOf partition address e)
        ∧ (made < request → ∀ data, Ordered (bucket.insertAt insertSlot ⟨address, partition, data⟩)))
    ∧ (∀ hash, CopySource bucket partition hash (copySourceSlot bucket partition ⟨hash, 0⟩))
    ∧ (∀ address slot, address.context ≠ 0 → (copySourceSlot bucket partition address = some slot ↔
      ∃ e, bucket.slots[slot]? = some e ∧ e.address = address ∧ e.partition = partition
        ∧ e.data.isObliterated = false))
    ∧ ∀ settings actions store, run (storeStep settings) (.new settings) actions = some store →
      ∀ group index, Ordered ((store group).slot index).bucket := by
  refine ⟨fun address => ⟨lookup_none bucket partition address, ?_⟩,
    copySourceSlot_zero h partition, fun _ _ => copySourceSlot_of_context h, ?_⟩
  · intro request hr slot insertSlot made hl
    have hsp := lookup_spec h hr hl
    refine ⟨lookup_le h hr hl, fun level hle e he hm => ?_, hsp.matched, fun hlt data => ?_⟩
    · by_cases hlt : made < request
      · exact Nat.le_trans hm (hsp.best hlt e he)
      · exact Nat.le_trans hle (Nat.le_of_not_lt hlt)
    · exact (h.insertAt hl hlt data).1
  · intro settings actions store hrun group index
    have hw := run_invariant _ (fun _ _ _ hs => StoreWell.step hs) (StoreWell.new settings) hrun
    exact (hw.well group).ordered index

theorem bucket_search_exact_fiveEntries :
    lookup fiveEntries 1#128 ⟨1#256, 3#128⟩ .matchFull = (1, 2, .matchPartition)
    ∧ (∀ e ∈ fiveEntries.slots, matchOf 1#128 ⟨1#256, 3#128⟩ e ≤ .matchPartition)
    ∧ (∀ data, Ordered (fiveEntries.insertAt 2 ⟨⟨1#256, 3#128⟩, 1#128, data⟩))
    ∧ CopySource fiveEntries 1#128 1#256 (some 0) := by
  obtain ⟨hlookup, hcopy, -, -⟩ := bucket_search_exact fiveEntries_ordered 1#128
  have hl : lookup fiveEntries 1#128 ⟨1#256, 3#128⟩ .matchFull = (1, 2, .matchPartition) := by decide
  obtain ⟨-, hbest, -, hinsert⟩ := (hlookup ⟨1#256, 3#128⟩).2 .matchFull (by decide) _ _ _ hl
  have hfull : ∀ level : StoreMatch, level ≤ .matchFull := by
    intro level
    cases level <;> decide
  exact ⟨hl, fun e he => hbest _ (hfull _) e he (Nat.le_refl _), hinsert (by decide), hcopy 1#256⟩

/-- A search for the hash alone stops at the entry of another partition, and the slot it answers
is no place for the entry, though there is no full match. A search that requests nothing answers
a full match. And a copy that names another context finds no source, though the partition holds
the payload. -/
theorem search_stops_early :
    (lookup onePayload 9#128 ⟨1#256, 1#128⟩ .matchHash = (0, 0, .matchHash)
      ∧ ¬ Ordered (onePayload.insertAt 0 ⟨⟨1#256, 1#128⟩, 9#128, .default⟩))
    ∧ (lookup onePayload 1#128 ⟨1#256, 1#128⟩ .matchNone).2.2 = .matchFull
    ∧ copySourceSlot onePayload 1#128 ⟨1#256, 2#128⟩ = none
    ∧ LiveIn onePayload 1#128 1#256 0 ∧ HasPayload onePayload 0 := by
  refine ⟨⟨by decide, fun h => absurd h.sorted (by decide)⟩, by decide, by decide, ?_, ?_⟩
  · exact ⟨_, rfl, rfl, rfl, rfl⟩
  · exact ⟨_, rfl, by decide⟩

end Lore.Storage
