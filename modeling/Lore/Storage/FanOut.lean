import Lore.Storage.BucketOpsSpec
import Lore.Storage.InFlight

/-!
# FanOut — the buckets of a group at its levels

A group spreads its hashes over 1, 32, 64, 128 or 256 buckets by the second byte of the
hash. A fan-out puts every entry of the group into the bucket the next level gives it, by
the search and insertion of any other entry.
-/

namespace Lore.Storage

open Lore.Lib List

/-- `LEVEL_LADDER`. -/
def levelLadder : List Nat := [1, 32, 64, 128, 256]

theorem one_mem_levelLadder : 1 ∈ levelLadder := by decide

/-- `FAN_OUT_LEVEL_MAX`. -/
def fanOutLevelMax : Nat := 256

/-- `bucket_index_for`. The bucket count divides 256, and the trailing zeros of a power of
two are its logarithm. -/
def bucketIndexFor (key : Hash) (bucketCount : Nat) : Nat :=
  if bucketCount ≤ 1 then 0
  else hashByte key 1 >>> (256 / bucketCount).log2

/-- `level_for`. -/
def levelFor (currentLevel bMax threshold : Nat) : Nat :=
  let product := min (currentLevel * bMax) (2 ^ 64 - 1)
  let required := (product + threshold - 1) / threshold
  (levelLadder.find? fun m => m ≥ required).getD 256

theorem hashByte_lt (hash : Hash) (i : Nat) : hashByte hash i < 256 := Nat.mod_lt _ (by decide)

theorem bucketIndexFor_lt {n} (hn : n ∈ levelLadder) (hash : Hash) : bucketIndexFor hash n < n := by
  have hb := hashByte_lt hash 1
  simp only [levelLadder, mem_cons, not_mem_nil, or_false] at hn
  unfold bucketIndexFor
  rcases hn with rfl | rfl | rfl | rfl | rfl
  · exact Nat.zero_lt_one
  · rw [if_neg (by decide), show (256 / 32 : Nat).log2 = 3 by decide]
    omega
  · rw [if_neg (by decide), show (256 / 64 : Nat).log2 = 2 by decide]
    omega
  · rw [if_neg (by decide), show (256 / 128 : Nat).log2 = 1 by decide]
    omega
  · rw [if_neg (by decide), show (256 / 256 : Nat).log2 = 0 by decide]
    omega

theorem levelFor_mem (currentLevel bMax threshold : Nat) :
    levelFor currentLevel bMax threshold ∈ levelLadder := by
  unfold levelFor
  dsimp only
  cases hf : levelLadder.find? fun m =>
    m ≥ (min (currentLevel * bMax) (2 ^ 64 - 1) + threshold - 1) / threshold with
  | none => decide
  | some m => exact mem_of_find?_eq_some hf

/-! ## Redistribution -/

/-- Inserts an entry where the search says. -/
def insertEntry (bucket : ImmutableStoreBucket) (e : ImmutableStoreEntry) : ImmutableStoreBucket :=
  let (_, insertSlot, _) := lookup bucket e.partition e.address .matchFull
  bucket.insertAt insertSlot e

/-- The bucket at `index` of the new level, from the buckets of the old one in their
order. -/
def redistribute (old : List ImmutableStoreBucket) (target index : Nat) : ImmutableStoreBucket :=
  let entries := (old.flatMap (·.entry)).filter fun e =>
    bucketIndexFor e.address.hash target = index
  entries.foldl insertEntry .empty

theorem insertEntry_spec {bucket} (h : Ordered bucket) {e}
    (hnew : ∀ d ∈ bucket.slots, d.key ≠ e.key) :
    Ordered (insertEntry bucket e)
    ∧ ∀ d, d ∈ (insertEntry bucket e).slots ↔ d = e ∨ d ∈ bucket.slots := by
  unfold insertEntry
  rcases hl : lookup bucket e.partition e.address .matchFull with ⟨slot, start, made⟩
  have hm : made ≠ .matchFull := by
    rintro rfl
    obtain ⟨d, hd, hkey⟩ := lookup_full h hl
    exact hnew d (mem_of_getElem? hd) hkey
  have hst := (lookup_spec h (by decide) hl).insertLe
  obtain ⟨ho, hsl⟩ := h.insertAt hl (lt_matchFull hm) e.data
  refine ⟨ho, fun d => ?_⟩
  rw [hsl, mem_insertIdx hst]

theorem foldl_insertEntry_spec {entries : List ImmutableStoreEntry} {bucket : ImmutableStoreBucket}
    (h : Ordered bucket) (hnew : ∀ e ∈ entries, ∀ d ∈ bucket.slots, d.key ≠ e.key)
    (hdi : entries.Pairwise fun a b => a.key ≠ b.key) :
    Ordered (entries.foldl insertEntry bucket)
    ∧ ∀ d, d ∈ (entries.foldl insertEntry bucket).slots ↔ d ∈ entries ∨ d ∈ bucket.slots := by
  induction entries generalizing bucket with
  | nil => exact ⟨h, fun d => by simp⟩
  | cons e entries ih =>
    obtain ⟨hf, hr⟩ := pairwise_cons.mp hdi
    obtain ⟨ho, hsl⟩ := insertEntry_spec h (hnew e (by simp))
    have hnew' : ∀ c ∈ entries, ∀ d ∈ (insertEntry bucket e).slots, d.key ≠ c.key := by
      intro c hc d hd
      rcases (hsl d).mp hd with rfl | hd
      · exact hf c hc
      · exact hnew c (by simp [hc]) d hd
    obtain ⟨ho', hsl'⟩ := ih ho hnew' hr
    refine ⟨ho', fun d => ?_⟩
    rw [foldl_cons, hsl', hsl, mem_cons]
    exact ⟨fun hd => by rcases hd with hd | hd | hd <;> simp [hd],
      fun hd => by rcases hd with (hd | hd) | hd <;> simp [hd]⟩

theorem redistribute_spec {old : List ImmutableStoreBucket} (ho : ∀ b ∈ old, Ordered b)
    (hdi : (old.flatMap (·.entry)).Pairwise fun a b => a.key ≠ b.key) (target index : Nat) :
    Ordered (redistribute old target index)
    ∧ ∀ e, e ∈ (redistribute old target index).slots
      ↔ (∃ b ∈ old, e ∈ b.slots) ∧ bucketIndexFor e.address.hash target = index := by
  have hp := hdi.filter fun e => bucketIndexFor e.address.hash target = index
  obtain ⟨hnew, hsl⟩ := foldl_insertEntry_spec Ordered.empty
    (fun _ _ _ hd => absurd hd not_mem_nil) hp
  refine ⟨hnew, fun e => ?_⟩
  rw [redistribute, hsl, mem_filter, mem_flatMap, decide_eq_true_eq]
  constructor
  · rintro (⟨⟨b, hb, he⟩, hi⟩ | he)
    · exact ⟨⟨b, hb, (Indexed.mem_slots (ho b hb).indexed).mpr he⟩, hi⟩
    · exact absurd he not_mem_nil
  · rintro ⟨⟨b, hb, he⟩, hi⟩
    exact Or.inl ⟨⟨b, hb, (Indexed.mem_slots (ho b hb).indexed).mp he⟩, hi⟩

end Lore.Storage
