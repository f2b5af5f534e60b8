import Lore.Storage.BucketRun
import Lore.Storage.Serve

/-!
# CopySpec — whether a copy takes a payload away

A copy gives the destination the location the source has, and the source may have none:
an exact context names an entry that holds the representation only. The destination then
loses the payload it held. `copy_takes_nothing_iff` says for which source and destination
that cannot happen.
-/

namespace Lore.Storage

open Lore.Lib FragmentFlags List
open ImmutableData (SamePayload)

/-! ## What a payload is served by -/

theorem validateFragmentPayload_congr {f g} (hp : f.sizePayload = g.sizePayload)
    (hc : f.sizeContent = g.sizeContent) (hf : f.isFragmented = g.isFragmented)
    (len : Nat) : validateFragmentPayload f len = validateFragmentPayload g len := by
  simp only [validateFragmentPayload, validateFragmentSize, hp, hc, hf]

/-- The payload an entry serves depends on its location, its sizes and on whether it is
live and a list. -/
theorem servedOf_congr {a b} (hsa : SamePayload a b) (hc : a.sizeContent = b.sizeContent)
    (hli : a.isObliterated = b.isObliterated)
    (hf : a.flags &&& payloadFragmented = b.flags &&& payloadFragmented)
    (settings : ImmutableStoreSettings) (packfiles : Packfiles) (hash : Hash) :
    servedOf settings packfiles hash a = servedOf settings packfiles hash b := by
  obtain ⟨hfi, ho, hsi⟩ := hsa
  have hl : (servedFragment settings a).isFragmented
      = (servedFragment settings b).isFragmented := by
    simp only [servedFragment, Fragment.isFragmented]
    split <;> rw [or_and_of_disjoint (by decide), or_and_of_disjoint (by decide), hf]
  have hv := @validateFragmentPayload_congr _
    _ hsi hc hl
  have hlo : loadPayload packfiles a = loadPayload packfiles b := by
    simp only [loadPayload, hfi, ho, hsi]
  simp only [servedOf, loadFound, hli, hfi, hsi, hv, hlo]

/-! ## What a copy gives the destination -/

/-- Of the flags that are not about where the payload is stored, the destination takes
over those of the source. -/
theorem mergeFromCopySource_flags_and {o} (hst : payloadStored &&& o = 0#32)
    (hd : payloadStoredDurable &&& o = 0#32) (data source : ImmutableData) (durable : Bool) :
    (data.mergeFromCopySource source durable).flags &&& o = source.flags &&& o := by
  have ha := withStored_and hst source.flags data.flags source.packFile
  cases durable with
  | false => exact ha
  | true => exact (or_and_of_disjoint hd).trans ha

theorem storedFlags_and_durable (flags : BitVec 32) (packFile : UInt32) :
    ImmutableData.storedFlags flags packFile &&& payloadStoredDurable
      = flags &&& payloadStoredDurable := by
  have hl : payloadStoredLocal &&& payloadStoredDurable = 0#32 := by decide
  have hm : payloadStored &&& ~~~payloadStoredLocal
      &&& payloadStoredDurable = payloadStoredDurable := by decide
  have hk : flags &&& payloadStored &&& ~~~payloadStoredLocal
      &&& payloadStoredDurable = flags &&& payloadStoredDurable := by
    rw [BitVec.and_assoc, BitVec.and_assoc, ← BitVec.and_assoc payloadStored, hm]
  unfold ImmutableData.storedFlags
  by_cases hf : packFile ≠ 0
  · rw [if_pos hf, or_and_of_disjoint hl, hk]
  · rw [if_neg hf, BitVec.or_zero, hk]

theorem mergeFromCopySource_durable (data source : ImmutableData) (durable : Bool)
    (h : data.flags &&& payloadStoredDurable ≠ 0#32) :
    (data.mergeFromCopySource source durable).flags &&& payloadStoredDurable
      ≠ 0#32 := by
  have ha : ((source.flags &&& ~~~payloadStored)
        ||| ImmutableData.storedFlags data.flags source.packFile)
      &&& payloadStoredDurable
      = data.flags &&& payloadStoredDurable := by
    have hm : ~~~payloadStored &&& payloadStoredDurable = 0#32 := by decide
    have hso : (source.flags &&& ~~~payloadStored)
        &&& payloadStoredDurable = 0#32 := by
      rw [BitVec.and_assoc, hm, BitVec.and_zero]
    rw [BitVec.or_comm, or_and_of_disjoint hso, storedFlags_and_durable]
  have hse : ∀ f : BitVec 32, (f ||| payloadStoredDurable)
      &&& payloadStoredDurable = payloadStoredDurable := by
    intro f
    apply BitVec.eq_of_getElem_eq
    intro i hi
    simp only [BitVec.getElem_and, BitVec.getElem_or]
    cases payloadStoredDurable[i] <;> simp
  intro hz
  cases durable with
  | false => exact h (ha.symm.trans hz)
  | true => exact absurd ((hse _).symm.trans hz) (by decide)

theorem servedOf_mergeFromCopySource (before source : ImmutableData) (durable : Bool)
    (settings : ImmutableStoreSettings) (packfiles : Packfiles) (hash : Hash) :
    servedOf settings packfiles hash (before.mergeFromCopySource source durable)
      = servedOf settings packfiles hash source := by
  have hc : (before.mergeFromCopySource source durable).sizeContent = source.sizeContent := by
    cases durable <;> rfl
  exact servedOf_congr (mergeFromCopySource_same before source durable) hc
    (isObliterated_mergeFromCopySource before source durable)
    (mergeFromCopySource_flags_and (by decide) (by decide) before source durable) _ _ _

theorem servedOf_copiedData (before source : ImmutableData) (durable : Bool) (now : UInt64)
    (settings : ImmutableStoreSettings) (packfiles : Packfiles) (hash : Hash) :
    servedOf settings packfiles hash (copiedData before source durable now)
      = servedOf settings packfiles hash source := by
  unfold copiedData
  dsimp only
  split <;> exact servedOf_mergeFromCopySource before source durable settings packfiles hash

/-! ## The copy as a whole -/

section Whole

variable (settings : ImmutableStoreSettings) (packfiles : Packfiles)

/-- A copy takes nothing away: the destination, whether or not it has an entry, and each live
association serve the payload they served, and the destination keeps a location and its durable
flag if it had them. -/
structure CopyTakesNothing (bucket after : ImmutableStoreBucket)
    (destinationPartition : Partition) (destination : Address) : Prop where
  served : ∀ e ∈ bucket.slots, e.data.isObliterated = false → ∀ payload,
    payloadServed settings packfiles bucket e.partition e.address = some payload →
      payloadServed settings packfiles after e.partition e.address = some payload
  reached : ∀ payload,
    payloadServed settings packfiles bucket destinationPartition destination = some payload →
      payloadServed settings packfiles after destinationPartition destination = some payload
  pointed : ∀ d ∈ bucket.slots, d.key = sortKey destinationPartition destination →
    d.data.packFile ≠ 0 → ∀ d' ∈ after.slots,
      d'.key = sortKey destinationPartition destination → d'.data.packFile ≠ 0
  durable : ∀ d ∈ bucket.slots, d.key = sortKey destinationPartition destination →
    d.data.flags &&& FragmentFlags.payloadStoredDurable ≠ 0#32 → ∀ d' ∈ after.slots,
      d'.key = sortKey destinationPartition destination →
        d'.data.flags &&& FragmentFlags.payloadStoredDurable ≠ 0#32

/-- The entry the copy reads from holds a payload if the destination has an entry that does, and
serves what the destination serves, with an entry or without. -/
def SourceServesDestination (bucket : ImmutableStoreBucket) (sourcePartition : Partition)
    (sourceAddress : Address) (destinationPartition : Partition) (destination : Address) : Prop :=
  ∀ source, (copySourceSlot bucket sourcePartition sourceAddress).bind bucket.at? = some source →
    (∀ d ∈ bucket.slots, d.key = sortKey destinationPartition destination →
      d.data.packFile ≠ 0 → source.data.packFile ≠ 0)
    ∧ ∀ payload,
      payloadServed settings packfiles bucket destinationPartition destination = some payload →
        payloadServed settings packfiles bucket source.partition source.address = some payload

variable {bucket after : ImmutableStoreBucket} {sourcePartition destinationPartition : Partition}
  {sourceAddress : Address} {destinationContext : Context} {durable : Bool} {now : UInt64}

section

variable (h : Ordered bucket)
include h

theorem payloadServed_kept (ha : Ordered after) {e} (he : e ∈ bucket.slots)
    (he' : e ∈ after.slots) :
    payloadServed settings packfiles after e.partition e.address
      = payloadServed settings packfiles bucket e.partition e.address := by
  rw [payloadServed_of_mem h settings packfiles he rfl,
    payloadServed_of_mem ha settings packfiles he' rfl]

theorem payloadServed_copied (ho : Ordered after) {destination source new}
    (hsou : source ∈ bucket.slots) (hh : source.address.hash = destination.hash)
    (hnew : new ∈ after.slots) (hkey : new.key = sortKey destinationPartition destination)
    (hse : servedOf settings packfiles destination.hash new.data
      = servedOf settings packfiles destination.hash source.data) :
    payloadServed settings packfiles after destinationPartition destination
      = payloadServed settings packfiles bucket source.partition source.address := by
  rw [payloadServed_of_mem ho settings packfiles hnew hkey,
    payloadServed_of_mem h settings packfiles hsou rfl, hh, hse]

theorem copyTakesNothing_new (ho : Ordered after) {destination} {source : ImmutableStoreEntry}
    (hn : ∀ d ∈ bucket.slots, d.key ≠ sortKey destinationPartition destination)
    (hk : ∀ e ∈ bucket.slots, e ∈ after.slots)
    (hse : payloadServed settings packfiles after destinationPartition destination
      = payloadServed settings packfiles bucket source.partition source.address) :
    CopyTakesNothing settings packfiles bucket after destinationPartition destination
      ↔ ∀ payload,
        payloadServed settings packfiles bucket destinationPartition destination = some payload →
          payloadServed settings packfiles bucket source.partition source.address
            = some payload := by
  rw [← hse]
  constructor
  · exact fun ht => ht.reached
  · intro hd
    refine ⟨?_, hd, fun d hd hkey => absurd hkey (hn d hd), fun d hd hkey => absurd hkey (hn d hd)⟩
    intro e he _ payload hp
    rwa [payloadServed_kept settings packfiles h ho he (hk e he)]

/-- A copy over an entry takes nothing away exactly if the source holds a payload where
the entry does and serves what it serves. -/
theorem copyTakesNothing_over (ho : Ordered after) {destination source d slot}
    (hsou : source ∈ bucket.slots) (hh : source.address.hash = destination.hash)
    (hsl : bucket.slots[slot]? = some d) (hkey : d.key = sortKey destinationPartition destination)
    (haf : after.slots = bucket.slots.modify slot fun e =>
      e.mapData fun before => copiedData before source.data durable now) :
    CopyTakesNothing settings packfiles bucket after destinationPartition destination
      ↔ (d.data.packFile ≠ 0 → source.data.packFile ≠ 0)
        ∧ ∀ payload,
          payloadServed settings packfiles bucket destinationPartition destination
            = some payload →
          payloadServed settings packfiles bucket source.partition source.address
            = some payload := by
  have hd := mem_of_getElem? hsl
  obtain ⟨ha, hpa⟩ := key_eq_iff.mp hkey
  obtain ⟨hsa, _⟩ := copiedData_same d.data source.data durable now
  have hnew : (d.mapData fun before => copiedData before source.data durable now)
      ∈ after.slots := haf ▸ mem_modify_at hsl _
  have hse := payloadServed_copied settings packfiles h ho hsou hh hnew hkey
    (servedOf_copiedData d.data source.data durable now settings packfiles destination.hash)
  have hon : ∀ d' ∈ bucket.slots, d'.key = sortKey destinationPartition destination →
      d' = d := fun d' hd' hkey' => eq_of_key h.sorted hd' hd (hkey'.trans hkey.symm)
  have hon' : ∀ d' ∈ after.slots, d'.key = sortKey destinationPartition destination →
      d' = d.mapData fun before => copiedData before source.data durable now :=
    fun d' hd' hkey' => eq_of_key ho.sorted hd' hnew (hkey'.trans hkey.symm)
  constructor
  · intro ht
    constructor
    · intro hpac
      rw [← hsa.1]
      exact ht.pointed d hd hkey hpac _ hnew hkey
    · exact hse ▸ ht.reached
  · rintro ⟨hpo, hso⟩
    refine ⟨?_, hse ▸ hso, ?_, ?_⟩
    · intro e he _ payload hp
      by_cases heq : e = d
      · subst heq
        rw [ha, hpa] at hp ⊢
        rw [hse]
        exact hso payload hp
      · have he' : e ∈ after.slots := haf ▸ mem_modify_of_ne hsl he heq _
        rwa [payloadServed_kept settings packfiles h ho he he']
    · intro d' hd' hkey' hpac d'' hd'' hkey''
      cases hon d' hd' hkey'
      rw [hon' d'' hd'' hkey'']
      show (copiedData d.data source.data durable now).packFile ≠ 0
      rw [hsa.1]
      exact hpo hpac
    · intro d' hd' hkey' hdu d'' hd'' hkey''
      cases hon d' hd' hkey'
      rw [hon' d'' hd'' hkey'']
      show (copiedData d.data source.data durable now).flags &&& _ ≠ 0#32
      unfold copiedData
      dsimp only
      split <;> exact mergeFromCopySource_durable d.data source.data durable hdu

end

/-- A copy that succeeds takes nothing away exactly if the source serves what the
destination does. -/
theorem copy_takes_nothing_iff (h : Ordered bucket)
    (hcopy : copyEntry bucket sourcePartition sourceAddress destinationPartition
      destinationContext durable now = .ok after) :
    CopyTakesNothing settings packfiles bucket after destinationPartition
        ⟨sourceAddress.hash, destinationContext⟩
      ↔ SourceServesDestination settings packfiles bucket sourcePartition sourceAddress
        destinationPartition ⟨sourceAddress.hash, destinationContext⟩ := by
  obtain ⟨slot, source, hsl, hso, hh, hp, hli, hca⟩ := copyEntry_case h hcopy
  have hr : (copySourceSlot bucket sourcePartition sourceAddress).bind bucket.at?
      = some source := by
    rw [hsl, Option.bind_some, ← Indexed.getElem?_slots h.indexed, hso]
  have hh : source.address.hash = (⟨sourceAddress.hash, destinationContext⟩ : Address).hash := hh
  cases hca with
  | added hl hm ho ha =>
    have hn : ∀ d ∈ bucket.slots,
        d.key ≠ sortKey destinationPartition ⟨sourceAddress.hash, destinationContext⟩ := by
      intro d hd hkey
      obtain ⟨_, _, hfu, _⟩ := lookup_of_mem h hd hkey
      rw [hl] at hfu
      exact hm (congrArg (·.2.2) hfu)
    have hst := (lookup_spec h (by decide) hl).insertLe
    have hk : ∀ e ∈ bucket.slots, e ∈ after.slots := by
      intro e he
      rw [ha, mem_insertIdx hst]
      exact Or.inr he
    have hnew := ha ▸ (mem_insertIdx hst).mpr (.inl rfl)
    have hse := payloadServed_copied settings packfiles h ho (mem_of_getElem? hso) hh hnew rfl
      (servedOf_mergeFromCopySource .default source.data durable settings packfiles _)
    rw [copyTakesNothing_new settings packfiles h ho hn hk hse]
    constructor
    · intro hc source' hr'
      cases hr.symm.trans hr'
      exact ⟨fun d hd hkey => absurd hkey (hn d hd), hc⟩
    · intro hc
      exact (hc source hr).2
  | overlaid hl hf hkey ho ha =>
    rw [copyTakesNothing_over settings packfiles h ho (mem_of_getElem? hso) hh hf hkey ha]
    constructor
    · rintro ⟨hpo, hc⟩ source' hr'
      cases hr.symm.trans hr'
      refine ⟨fun d' hd' hkey' => ?_, hc⟩
      cases eq_of_key h.sorted hd' (mem_of_getElem? hf) (hkey'.trans hkey.symm)
      exact hpo
    · intro hc
      exact ⟨(hc source hr).1 _ (mem_of_getElem? hf) hkey, (hc source hr).2⟩

end Whole

/-- The settings of a server: partitions are isolated. -/
def serverSettings : ImmutableStoreSettings := ⟨false, true, true, true, 256, 1000, by decide⟩

theorem copy_takes_nothing_iff_shared :
    copyEntry sharedPayload 1#128 ⟨1#256, 1#128⟩ 1#128 2#128 false 3 = .ok sharedPayload
      ∧ payloadServed serverSettings (fourBytes 1) sharedPayload 1#128 ⟨1#256, 2#128⟩
        = some [1, 2, 3, 4]
      ∧ CopyTakesNothing serverSettings (fourBytes 1) sharedPayload sharedPayload 1#128
        ⟨1#256, 2#128⟩ := by
  have ho : Ordered sharedPayload := ⟨.refl _, by decide⟩
  have hc : copyEntry sharedPayload 1#128 ⟨1#256, 1#128⟩ 1#128 2#128 false 3
    = .ok sharedPayload := by rfl
  refine ⟨hc, by decide, ?_⟩
  apply (copy_takes_nothing_iff serverSettings (fourBytes 1) ho hc).mpr
  intro source hso
  cases hso
  have hsa : payloadServed serverSettings (fourBytes 1) sharedPayload 1#128 ⟨1#256, 1#128⟩
    = payloadServed serverSettings (fourBytes 1) sharedPayload 1#128 ⟨1#256, 2#128⟩ := by decide
  exact ⟨fun _ _ _ _ => by decide, fun payload hp => hsa.trans hp⟩

/-- A payload put under two partitions, the second association obliterated, and the hash put
under another context of the second partition without a payload. -/
def barePut : List BucketAction :=
  payloadPut 1#128 ⟨1#256, 1#128⟩ false ⟨1, 0⟩
    ++ [.storeEntry 2#128 ⟨1#256, 2#128⟩ ⟨0#32, 4, 4⟩ .unwritten false 1,
      .tombstone 2#128 ⟨1#256, 2#128⟩ false,
      .storeEntry 2#128 ⟨1#256, 3#128⟩ ⟨0#32, 4, 4⟩ .absent false 1]

/-- The last put finds the tombstone first and stores an entry without a payload. A copy
from it to the first association takes that one's payload away. -/
theorem copy_takes_payload_away :
    ∃ bucket after, run bucketStep .empty barePut = some bucket
      ∧ copyEntry bucket 2#128 ⟨1#256, 3#128⟩ 1#128 1#128 false 2 = .ok after
      ∧ payloadServed clientSettings (fourBytes 1) bucket 1#128 ⟨1#256, 1#128⟩ = some [1, 2, 3, 4]
      ∧ payloadServed clientSettings (fourBytes 1) after 1#128 ⟨1#256, 1#128⟩ = none
      ∧ payloadServed serverSettings (fourBytes 1) after 1#128 ⟨1#256, 1#128⟩ = none := by
  refine ⟨_, _, rfl, rfl, ?_⟩
  decide

end Lore.Storage
