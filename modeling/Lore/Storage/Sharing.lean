import Lore.Storage.EvictSpec

/-!
# Sharing — all live associations of a hash hold one payload

`Sharing` is the invariant the copy, obliterate and eviction code rely on: two live
entries of one hash point at the same payload, and a tombstone at none. A bucket that
changes only under the conditions of `KeepsSharing` keeps it. Two kinds of store break
it. A payload written over an existing association is handed on by a sweep that starts at
the insertion slot of the search, which for a full match is not the slot of the match,
and may miss other associations. And a store without a payload takes none from a
tombstone, even beside a live association that holds it.
-/

namespace Lore.Storage

open Lore.Lib List Option FragmentFlags

namespace ImmutableData.SamePayload

theorem refl (a : ImmutableData) : SamePayload a a := ⟨rfl, rfl, rfl⟩

theorem symm {a b} (h : SamePayload a b) : SamePayload b a := ⟨h.1.symm, h.2.1.symm, h.2.2.symm⟩

theorem trans {a b c} (h : SamePayload a b) (h' : SamePayload b c) : SamePayload a c :=
  ⟨h.1.trans h'.1, h.2.1.trans h'.2.1, h.2.2.trans h'.2.2⟩

end ImmutableData.SamePayload

open ImmutableData (SamePayload)

/-- The live entries of each hash share one payload, and tombstones hold none. -/
structure Sharing (bucket : ImmutableStoreBucket) : Prop where
  ordered : Ordered bucket
  bare : ∀ e ∈ bucket.slots, e.data.isObliterated = true → e.data.packFile = 0
  shared : ∀ e ∈ bucket.slots, ∀ d ∈ bucket.slots, e.address.hash = d.address.hash →
    e.data.isObliterated = false → d.data.isObliterated = false → e.data.packFile ≠ 0 →
      SamePayload e.data d.data

theorem Sharing.empty : Sharing Indexed.empty where
  ordered := .empty
  bare _ he := nomatch he
  shared _ he := nomatch he

variable {e : ImmutableStoreEntry} {slots : List ImmutableStoreEntry}

theorem Sharing.live {bucket} (h : Sharing bucket) (he : e ∈ bucket.slots)
    (hp : e.data.packFile ≠ 0) : e.data.isObliterated = false := by
  rw [← Bool.not_eq_true]
  exact fun hobl => hp (h.bare e he hobl)

/-- The entry is a tombstone, or points where a live entry of its hash points. -/
def Backed (bucket : ImmutableStoreBucket) (e : ImmutableStoreEntry) : Prop :=
  (e.data.isObliterated = true ∧ e.data.packFile = 0)
  ∨ ∃ d ∈ bucket.slots, d.address.hash = e.address.hash ∧ SamePayload e.data d.data
    ∧ e.data.isObliterated = d.data.isObliterated

theorem Backed.of_mem {bucket} (he : e ∈ bucket.slots) : Backed bucket e :=
  .inr ⟨e, he, rfl, .refl _, rfl⟩

theorem Sharing.of_members {bucket after} (h : Sharing bucket) (ho : Ordered after)
    (hm : ∀ e ∈ after.slots, Backed bucket e) : Sharing after := by
  refine ⟨ho, ?_, ?_⟩
  · intro e he hobl
    rcases hm e he with ⟨_, hp⟩ | ⟨d, hd, _, hsa, hf⟩
    · exact hp
    · rw [hsa.1]
      exact h.bare d hd (hf ▸ hobl)
  · intro e he e' he' hh hl hl' hp
    rcases hm e he with ⟨hobl, _⟩ | ⟨d, hd, hdh, hsa, hf⟩
    · rw [hl] at hobl
      cases hobl
    · rcases hm e' he' with ⟨hobl, _⟩ | ⟨d', hd', hdh', hsa', hf'⟩
      · rw [hl'] at hobl
        cases hobl
      · have hdd := h.shared d hd d' hd' (by rw [hdh, hdh', hh]) (hf ▸ hl) (hf' ▸ hl') (hsa.1 ▸ hp)
        exact hsa.trans (hdd.trans hsa'.symm)

/-- Sharing is kept by a change of every entry that moves equal payloads of a hash
together, and gives none to an entry without. -/
theorem Sharing.of_map {bucket after} (h : Sharing bucket) (ho : Ordered after)
    {f : ImmutableStoreEntry → ImmutableStoreEntry} (ha : after.slots = bucket.slots.map f)
    (hh : ∀ e, (f e).address.hash = e.address.hash)
    (hf : ∀ e, (f e).data.isObliterated = e.data.isObliterated)
    (hb : ∀ e, e.data.packFile = 0 → (f e).data.packFile = 0)
    (hm : ∀ e ∈ bucket.slots, ∀ d ∈ bucket.slots, e.address.hash = d.address.hash →
      SamePayload e.data d.data → SamePayload (f e).data (f d).data) : Sharing after := by
  have hmem : ∀ {e}, e ∈ after.slots → ∃ d ∈ bucket.slots, f d = e := by
    intro e he
    rwa [ha, List.mem_map] at he
  refine ⟨ho, ?_, ?_⟩
  · intro e he hobl
    obtain ⟨d, hd, rfl⟩ := hmem he
    exact hb d (h.bare d hd (hf d ▸ hobl))
  · intro e he e' he' heq hl hl' hp
    obtain ⟨d, hd, rfl⟩ := hmem he
    obtain ⟨d', hd', rfl⟩ := hmem he'
    rw [hh, hh] at heq
    rw [hf] at hl hl'
    exact hm d hd d' hd' heq (h.shared d hd d' hd' heq hl hl' fun hz => hp (hb d hz))

/-! ## Entries by slot -/

theorem Sharing.of_modify {bucket after} (h : Sharing bucket) (ho : Ordered after) {slot}
    {f : ImmutableStoreEntry → ImmutableStoreEntry} (ha : after.slots = bucket.slots.modify slot f)
    (hf : ∀ d, bucket.slots[slot]? = some d → Backed bucket (f d)) : Sharing after := by
  refine h.of_members ho fun e he => ?_
  rw [ha] at he
  rcases mem_modify_exists he with hmem | ⟨d, hd, rfl⟩
  · exact .of_mem hmem
  · exact hf d hd

theorem getElem?_insertIdx_cases {start i new} (hst : start ≤ slots.length)
    (h : (slots.insertIdx start new)[i]? = some e) :
    (i = start ∧ e = new) ∨ (i ≠ start ∧ e ∈ slots) := by
  rw [getElem?_insertIdx] at h
  split at h
  case isTrue hlt => exact .inr ⟨by omega, mem_of_getElem? h⟩
  case isFalse hge =>
    split at h
    case isTrue heq =>
      rw [heq, if_pos hst] at h
      exact .inl ⟨heq, (some.inj h).symm⟩
    case isFalse hne => exact .inr ⟨hne, mem_of_getElem? h⟩

theorem ChangedAt.cases {before after} {f : ImmutableStoreEntry → ImmutableStoreEntry}
    {changed : Nat → Prop} (h : ChangedAt before after f changed) (he : e ∈ after) :
    ∃ i d, before[i]? = some d ∧ (changed i ∧ e = f d ∨ ¬ changed i ∧ e = d) := by
  obtain ⟨i, hi⟩ := mem_iff_getElem?.mp he
  by_cases hc : changed i
  · rw [h.at_changed i hc, map_eq_some_iff] at hi
    obtain ⟨d, hd, rfl⟩ := hi
    exact ⟨i, d, hd, .inl ⟨hc, rfl⟩⟩
  · rw [h.at_kept i hc] at hi
    exact ⟨i, e, hi, .inr ⟨hc, rfl⟩⟩

theorem hashAt_between {slots} (hso : slots.Pairwise fun a b => a.key < b.key) {i j k hash}
    (hi : hashAt slots i = some hash) (hk : hashAt slots k = some hash) (hij : i ≤ j)
    (hjk : j ≤ k) : hashAt slots j = some hash := by
  rw [hashAt, map_eq_some_iff] at hi hk
  obtain ⟨a, ha, hah⟩ := hi
  obtain ⟨c, hc, hch⟩ := hk
  have hclt := (List.getElem?_eq_some_iff.mp hc).1
  obtain ⟨b, hb⟩ : ∃ b, slots[j]? = some b := ⟨_, getElem?_eq_getElem (by omega)⟩
  -- seen from the last of them, the one between matches as well as the first
  have hle : matchOf c.partition c.address a ≤ matchOf c.partition c.address b :=
    matchOf_le_of_between (.inl ⟨key_le_of_le hso ha hb hij, key_le_of_le hso hb hc hjk⟩)
  have hbh := matchHash_le_matchOf.mp
    (Nat.le_trans (matchHash_le_matchOf.mpr (hah.trans hch.symm)) hle)
  rw [hashAt, hb, map_some, hbh, hch]

theorem swept_of_hash {slots} (hso : slots.Pairwise fun a b => a.key < b.key) {start i hash}
    (hst : hashAt slots start = some hash) (hi : hashAt slots i = some hash) (hne : i ≠ start) :
    Swept slots hash start i := by
  refine ⟨hne, fun j hj => ?_⟩
  rcases hj with ⟨hij, hlt⟩ | ⟨hlt, hji⟩
  · exact hashAt_between hso hi hst hij (Nat.le_of_lt hlt)
  · exact hashAt_between hso hst hi (Nat.le_of_lt hlt) hji

theorem Swept.hashAt_eq {start i hash} (h : Swept slots hash start i) :
    hashAt slots i = some hash := by
  apply h.2
  have := h.1
  omega

/-! ## Stores -/

/-- What the packstore grants of a range it hands out: it is in a packfile, and no entry
points at it. -/
def Fresh (bucket : ImmutableStoreBucket) (at_ : PackStoreRef) : Prop :=
  at_.id ≠ 0 ∧ ∀ e ∈ bucket.slots, ¬ (e.data.packFile = at_.id ∧ e.data.packOffset = at_.offset)

/-- What a store is given: a put refuses a fragment flagged as obliterated, and a written
payload is at a fresh range. -/
structure StoreGiven (bucket : ImmutableStoreBucket) (fragment : Fragment)
    (payload : StorePayload) : Prop where
  flags : flagsObliterated fragment.flags = false
  fresh : ∀ at_, payload = .written at_ → Fresh bucket at_

section Store

variable {bucket after : ImmutableStoreBucket} {partition : Partition} {address : Address}
  {fragment : Fragment} {payload : StorePayload} {force : Bool} {best : Option ImmutableData}
  {data : ImmutableData}

/-- The best match is an entry of the hash. -/
def BestOf (bucket : ImmutableStoreBucket) (hash : Hash) (best : Option ImmutableData) : Prop :=
  ∀ m, best = some m → ∃ e ∈ bucket.slots, e.address.hash = hash ∧ e.data = m

theorem bestOf_of_lookup (h : Ordered bucket) {slot start made}
    (hl : lookup bucket partition address .matchFull = (slot, start, made))
    (hb : best = if made = .matchNone then none else (bucket.slots[slot]?).map (·.data)) :
    BestOf bucket address.hash best := by
  intro m hm
  rw [hb] at hm
  obtain ⟨hne, hm⟩ := ite_none_left_eq_some.mp hm
  obtain ⟨e, he, hle⟩ := (lookup_spec h (by decide) hl).matched hne
  rw [he] at hm
  refine ⟨e, mem_of_getElem? he, matchHash_le_matchOf.mp (Nat.le_trans ?_ hle), some.inj hm⟩
  cases made <;> first | exact absurd rfl hne | decide

theorem Settled.live (h : Sharing bucket) (hgiven : StoreGiven bucket fragment payload)
    (hb : BestOf bucket address.hash best)
    (hse : Settled fragment payload force best data) : data.isObliterated = false := by
  apply hse.isLive hgiven.flags
  intro m hm hp
  obtain ⟨e, he, _, rfl⟩ := hb m hm
  exact h.live he hp

variable {e : ImmutableStoreEntry}

theorem Settled.same_at (h : Sharing bucket) (hgiven : StoreGiven bucket fragment payload)
    (hbe : BestOf bucket address.hash best) (hse : Settled fragment payload force best data)
    (hp : data.packFile ≠ 0) (he : e ∈ bucket.slots) (hh : e.address.hash = address.hash)
    (hl : e.data.isObliterated = false) (hf : e.data.packFile = data.packFile)
    (ho : e.data.packOffset = data.packOffset) : SamePayload e.data data := by
  cases hse with
  | bare _ hz => exact absurd hz hp
  | own hw hid hoff =>
    rw [hid] at hf
    rw [hoff] at ho
    exact absurd ⟨hf, ho⟩ ((hgiven.fresh _ hw).2 e he)
  | inherited hm hmp _ hsa _ =>
    obtain ⟨b, hb, hbh, rfl⟩ := hbe _ hm
    have hsh := h.shared b hb e he (by rw [hbh, hh]) (h.live hb hmp) hl hmp
    exact hsh.symm.trans hsa.symm

theorem samePayload_deduplicateEntry
    (hsa : e.data.isObliterated = false → e.data.packFile = data.packFile →
      e.data.packOffset = data.packOffset → SamePayload e.data data)
    (ha : (deduplicateEntry data e).data.isObliterated = false) :
    SamePayload (deduplicateEntry data e).data data := by
  unfold deduplicateEntry at ha ⊢
  split
  case isTrue => exact ⟨rfl, rfl, rfl⟩
  case isFalse hk =>
    rw [if_neg hk] at ha
    by_cases hf : e.data.packFile = data.packFile
    · by_cases ho : e.data.packOffset = data.packOffset
      · exact hsa ha hf ho
      · exact absurd ⟨ha, .inr ho⟩ hk
    · exact absurd ⟨ha, .inl hf⟩ hk

theorem deduplicateEntry_obliterated (hl : data.isObliterated = false)
    (h : (deduplicateEntry data e).data.isObliterated = true) : deduplicateEntry data e = e := by
  unfold deduplicateEntry at h ⊢
  split
  case isTrue hu =>
    rw [if_pos hu] at h
    have hf : (e.data.assignDeduplicatedPayload data).isObliterated = true := h
    rw [isObliterated_assignDeduplicatedPayload, hl] at hf
    cases hf
  case isFalse => rfl

/-- A bucket in which every live entry of the hash holds the stored payload, and every
other entry is one of the bucket before. -/
structure Taken (bucket after : ImmutableStoreBucket) (hash : Hash) (data : ImmutableData) :
    Prop where
  taken : ∀ e ∈ after.slots, e.address.hash = hash → e.data.isObliterated = false →
    SamePayload e.data data
  bare : ∀ e ∈ after.slots, e.data.isObliterated = true → e.data.packFile = 0
  others : ∀ e ∈ after.slots, e.address.hash ≠ hash → e ∈ bucket.slots

theorem Taken.sharing (h : Sharing bucket) (ho : Ordered after) {hash}
    (ht : Taken bucket after hash data) : Sharing after := by
  refine ⟨ho, ht.bare, ?_⟩
  intro e he d hd hh hl hl' hp
  by_cases heq : e.address.hash = hash
  · exact (ht.taken e he heq hl).trans (ht.taken d hd (hh ▸ heq) hl').symm
  · exact h.shared e (ht.others e he heq) d (ht.others d hd (hh ▸ heq)) hh hl hl' hp

section

variable (hgiven : StoreGiven bucket fragment payload)
include hgiven

/-- The other live entries of the hash are all where the sweep passes. -/
def SweepReaches (slots : List ImmutableStoreEntry) (hash : Hash) (slot start : Nat) : Prop :=
  ∀ i e, slots[i]? = some e → i ≠ slot → e.address.hash = hash → e.data.isObliterated = false →
    Swept slots hash start i

/-- A store that wrote its own entry at a slot, and whose sweep reaches the other live entries of
the hash. -/
theorem taken_written (h : Sharing bucket) (hb : BestOf bucket address.hash best)
    (hse : Settled fragment payload force best data) (hp : data.packFile ≠ 0)
    {written : List ImmutableStoreEntry} {slot start : Nat} {own : ImmutableStoreEntry}
    (hd : own.data = data) (hown : own.address.hash = address.hash)
    (hsl : written[slot]? = some own)
    (hwr : ∀ i e, written[i]? = some e → i ≠ slot → e ∈ bucket.slots)
    (hr : SweepReaches written address.hash slot start)
    (ha : ChangedAt written after.slots (deduplicateEntry data)
      (Swept written address.hash start)) :
    Taken bucket after address.hash data ∧ own ∈ after.slots := by
  have hl := hse.live h hgiven hb
  have hsa : deduplicateEntry data own = own :=
    if_neg fun hu => hu.2.elim (fun hne => hne (by rw [hd])) fun hne => hne (by rw [hd])
  -- an entry after the store is its own, one the sweep passed, or one it left
  have hca : ∀ e ∈ after.slots, e = own
      ∨ (∃ c ∈ bucket.slots, c.address.hash = address.hash ∧ e = deduplicateEntry data c)
      ∨ (e ∈ bucket.slots ∧ (e.address.hash = address.hash → e.data.isObliterated = true)) := by
    intro e he
    obtain ⟨i, c, hc, hch⟩ := ha.cases he
    by_cases hi : i = slot
    · subst hi
      cases hsl.symm.trans hc
      left
      rcases hch with ⟨_, rfl⟩ | ⟨_, rfl⟩
      · exact hsa
      · rfl
    · right
      have hmem := hwr i c hc hi
      rcases hch with ⟨hsw, rfl⟩ | ⟨hk, rfl⟩
      · have hh := hsw.hashAt_eq
        rw [hashAt, hc] at hh
        exact .inl ⟨c, hmem, some.inj hh, rfl⟩
      · refine .inr ⟨hmem, fun hh => ?_⟩
        rw [← Bool.not_eq_false]
        exact fun hl' => hk (hr i e hc hi hh hl')
  refine ⟨⟨?_, ?_, ?_⟩, ?_⟩
  · intro e he hh hl'
    rcases hca e he with rfl | ⟨c, hc, hch, rfl⟩ | ⟨_, hobl⟩
    · exact hd ▸ .refl _
    · exact samePayload_deduplicateEntry (hse.same_at h hgiven hb hp hc hch) hl'
    · rw [hl'] at hobl
      exact absurd (hobl hh) (by decide)
  · intro e he hobl
    rcases hca e he with rfl | ⟨c, hc, _, rfl⟩ | ⟨hmem, _⟩
    · rw [hd, hl] at hobl
      cases hobl
    · have hk := deduplicateEntry_obliterated hl hobl
      rw [hk] at hobl ⊢
      exact h.bare c hc hobl
    · exact h.bare e hmem hobl
  · intro e he hne
    rcases hca e he with rfl | ⟨c, _, hch, rfl⟩ | ⟨hmem, _⟩
    · exact absurd hown hne
    · rw [(deduplicateEntry_address data c).1] at hne
      exact absurd hch hne
    · exact hmem
  · apply mem_of_getElem?
    by_cases hsw : Swept written address.hash start slot
    · rw [ha.at_changed slot hsw, hsl, map_some, hsa]
    · rw [ha.at_kept slot hsw, hsl]

omit hgiven in
theorem hashAt_modify_withData (slots : List ImmutableStoreEntry) (slot j : Nat) :
    hashAt (slots.modify slot (withData data)) j = hashAt slots j := by
  rw [hashAt, hashAt, getElem?_modify]
  cases slots[j]? with
  | none => rfl
  | some e =>
    by_cases hj : slot = j
    · simp [hj, withData, ImmutableStoreEntry.mapData]
    · simp [hj]

omit hgiven in
theorem swept_modify_withData (slots : List ImmutableStoreEntry) (hash : Hash) (slot start : Nat) :
    Swept (slots.modify slot (withData data)) hash start = Swept slots hash start := by
  funext i
  simp only [Swept, hashAt_modify_withData]

/-- Every live entry of the hash points at the payload the association was stored with. -/
def PayloadHandedOn (after : ImmutableStoreBucket) (partition : Partition) (address : Address)
    (packFile : UInt32) : Prop :=
  ∃ d ∈ after.slots, d.address = address ∧ d.partition = partition ∧ d.data.packFile = packFile
    ∧ ∀ e ∈ after.slots, e.address.hash = address.hash → e.data.isObliterated = false →
      SamePayload e.data d.data

/-- The conditions on a store that keep sharing: with a payload written over an existing entry,
the sweep reaches the other live entries of the hash; without a payload, the best match has the
payload of the hash if any live entry has. -/
def StoreKeepsSharing (bucket : ImmutableStoreBucket) (partition : Partition)
    (address : Address) (payload : StorePayload) (force : Bool) : Prop :=
  let (slot, start, made) := lookup bucket partition address .matchFull
  (made = .matchFull → ∀ at_, payload = .written at_ →
    (force = true ∨ ∀ e, bucket.slots[slot]? = some e → e.data.packFile = 0) →
      SweepReaches bucket.slots address.hash slot start)
  ∧ (made ≠ .matchFull → payload = .absent →
    (∀ e, bucket.slots[slot]? = some e → e.address.hash = address.hash → e.data.packFile = 0) →
      ∀ e ∈ bucket.slots, e.address.hash = address.hash → e.data.isObliterated = false →
        e.data.packFile = 0)

omit hgiven in
theorem Settled.own_of_over {d} (hc : payload ≠ .absent) (hfr : force = true ∨ d.packFile = 0)
    (hse : Settled fragment payload force (some d) data) :
    ∃ at_, payload = .written at_ ∧ data.packFile = at_.id := by
  cases hse with
  | bare ha => exact absurd ha hc
  | own hw hid => exact ⟨_, hw, hid⟩
  | inherited hm hp hfo =>
    cases hm
    rcases hfr with hf | hz
    · rcases hfo with hnot | ha
      · rw [hf] at hnot
        cases hnot
      · exact absurd ha hc
    · exact absurd hz hp

theorem Settled.bare_of_zero (hse : Settled fragment payload force best data)
    (hp : data.packFile = 0) : payload = .absent ∧ ∀ m, best = some m → m.packFile = 0 := by
  cases hse with
  | bare ha _ hb => exact ⟨ha, hb⟩
  | own hw hid => exact absurd (hid ▸ hp) (hgiven.fresh _ hw).1
  | inherited _ hm _ hsa => exact absurd (hsa.1 ▸ hp) hm

end

section

variable (h : Sharing bucket) (hgiven : StoreGiven bucket fragment payload)
  (hkeeps : StoreKeepsSharing bucket partition address payload force)
include h hgiven hkeeps

theorem Sharing.store_over {slot start d}
    (hl : lookup bucket partition address .matchFull = (slot, start, .matchFull))
    (hsl : bucket.slots[slot]? = some d) (hkey : d.key = sortKey partition address)
    (hc : payload ≠ .absent) (hse : Settled fragment payload force (some d.data) data)
    (hf : force = true ∨ d.data.packFile = 0) (ho : Ordered after)
    (ha : SweptInto (bucket.slots.modify slot (withData data)) after.slots data address.hash
      start) : Sharing after ∧ PayloadHandedOn after partition address data.packFile := by
  obtain ⟨at_, hwr, hid⟩ := hse.own_of_over hc hf
  have hp : data.packFile ≠ 0 := by
    rw [hid]
    exact (hgiven.fresh at_ hwr).1
  rw [SweptInto, if_neg hp] at ha
  have hr : SweepReaches bucket.slots address.hash slot start := by
    unfold StoreKeepsSharing at hkeeps
    rw [hl] at hkeeps
    refine hkeeps.1 rfl at_ hwr (hf.imp id fun hz e he => ?_)
    cases hsl.symm.trans he
    exact hz
  have hdh : d.address.hash = address.hash := congrArg Address.hash (key_eq_iff.mp hkey).1
  have hb : BestOf bucket address.hash (some d.data) := fun m hm =>
    ⟨d, mem_of_getElem? hsl, hdh, some.inj hm⟩
  have hot : ∀ i e, (bucket.slots.modify slot (withData data))[i]? = some e → i ≠ slot →
      bucket.slots[i]? = some e := by
    intro i e he hne
    rcases getElem?_modify_cases he with ⟨hi, _⟩ | ⟨_, he⟩
    · exact absurd hi hne
    · exact he
  obtain ⟨ht, hen⟩ := taken_written hgiven h hb hse hp
    (show (withData data d).data = data from rfl) hdh (by rw [getElem?_modify, hsl]; simp)
    (fun i e he hne => mem_of_getElem? (hot i e he hne))
    (fun i e he hne hh hl => by
      rw [swept_modify_withData]
      exact hr i e (hot i e he hne) hne hh hl) ha
  exact ⟨ht.sharing h ho, withData data d, hen, (key_eq_iff.mp hkey).1, (key_eq_iff.mp hkey).2,
    rfl, ht.taken⟩

theorem Sharing.store_added {slot start made}
    (hl : lookup bucket partition address .matchFull = (slot, start, made))
    (hma : made ≠ .matchFull)
    (hb : best = if made = .matchNone then none else (bucket.slots[slot]?).map (·.data))
    (hse : Settled fragment payload force best data) (ho : Ordered after)
    (ha : SweptInto (bucket.slots.insertIdx start ⟨address, partition, data⟩) after.slots data
      address.hash start) :
    Sharing after
      ∧ (data.packFile ≠ 0 → PayloadHandedOn after partition address data.packFile) := by
  have hsp := lookup_spec h.ordered (by decide) hl
  have hbO := bestOf_of_lookup h.ordered hl hb
  by_cases hp : data.packFile = 0
  · rw [SweptInto, if_pos hp] at ha
    refine ⟨?_, (absurd hp)⟩
    have hme : ∀ e ∈ after.slots, e = ⟨address, partition, data⟩ ∨ e ∈ bucket.slots := by
      intro e he
      rw [ha] at he
      exact (mem_insertIdx hsp.insertLe).mp he
    -- no live entry of the hash has a payload the new one would be without
    have hn : ∀ e ∈ bucket.slots, e.address.hash = address.hash →
        e.data.isObliterated = false → e.data.packFile = 0 := by
      obtain ⟨hab, hz⟩ := hse.bare_of_zero hgiven hp
      unfold StoreKeepsSharing at hkeeps
      rw [hl] at hkeeps
      refine hkeeps.2 hma hab fun e he hh => ?_
      by_cases hm : made = .matchNone
      · have hle := hsp.best (by rw [hm]; decide) e (mem_of_getElem? he)
        rw [hm] at hle
        exact absurd (Nat.le_trans (matchHash_le_matchOf.mpr hh) hle) (by decide)
      · exact hz _ (by rw [hb, if_neg hm, he, map_some])
    refine ⟨ho, ?_, ?_⟩
    · intro e he hobl
      rcases hme e he with rfl | hmem
      · exact hp
      · exact h.bare e hmem hobl
    · intro e he d hd hh hle hld hpe
      rcases hme e he with rfl | hmem
      · exact absurd hp hpe
      · rcases hme d hd with rfl | hmem'
        · exact absurd (hn e hmem hh hle) hpe
        · exact h.shared e hmem d hmem' hh hle hld hpe
  · rw [SweptInto, if_neg hp] at ha
    have hst : (bucket.slots.insertIdx start ⟨address, partition, data⟩)[start]?
        = some ⟨address, partition, data⟩ := by
      rw [getElem?_insertIdx_self, if_pos hsp.insertLe]
    obtain ⟨ho', hslo⟩ := h.ordered.insertAt hl (lt_matchFull hma) data
    have hso := ho'.sorted
    rw [hslo] at hso
    -- its slot is next to the other entries of the hash, so the sweep passes them all
    obtain ⟨ht, hen⟩ := taken_written hgiven h hbO hse hp
      (show (⟨address, partition, data⟩ : ImmutableStoreEntry).data = data from rfl) rfl hst
      (fun i e he hne =>
        ((getElem?_insertIdx_cases hsp.insertLe he).resolve_left fun hi => hne hi.1).2)
      (fun i e he hne hh _ => swept_of_hash hso (by rw [hashAt, hst, map_some])
        (by rw [hashAt, he, map_some, hh]) hne) ha
    exact ⟨ht.sharing h ho, fun _ => ⟨_, hen, rfl, rfl, rfl, ht.taken⟩⟩

/-- A store under its conditions keeps sharing, and one that stores a payload hands it to
every live entry of the hash. -/
theorem Sharing.store {outcome}
    (hca : StoreEntryCase bucket partition address fragment payload force outcome after) :
    Sharing after ∧ ∀ flags packFile, outcome = .stored flags packFile → packFile ≠ 0 →
      PayloadHandedOn after partition address packFile := by
  cases hca with
  | needs => exact ⟨h, fun _ _ hst => nomatch hst⟩
  | kept hsl hkey hli ho ha =>
    refine ⟨h.of_modify ho ha fun d hd => .inr ?_, fun _ _ hst => nomatch hst⟩
    refine ⟨d, mem_of_getElem? hd, rfl, ⟨rfl, rfl, rfl⟩, ?_⟩
    exact flagsObliterated_withStored _ _ _
  | overlaid hl hsl hkey hc hse hf ho ha =>
    obtain ⟨hsh, hh⟩ := h.store_over hgiven hkeeps hl hsl hkey hc hse hf ho ha
    refine ⟨hsh, fun _ packFile hst _ => ?_⟩
    cases hst
    exact hh
  | added hl hm hb hse ho ha =>
    obtain ⟨hsh, hh⟩ := h.store_added hgiven hkeeps hl hm hb hse ho ha
    refine ⟨hsh, fun _ packFile hst hp => ?_⟩
    cases hst
    exact hh hp

end

end Store

/-! ## Copies, tombstones, moves -/

theorem or_and_of_disjoint {f m o} (h : m &&& o = 0#32) : (f ||| m) &&& o = f &&& o := by
  apply BitVec.eq_of_getElem_eq
  intro i hi
  have hbit : (m &&& o)[i] = (0#32)[i] := by rw [h]
  simp only [BitVec.getElem_and, BitVec.getElem_or] at hbit ⊢
  revert hbit
  cases m[i] <;> cases o[i] <;> simp

theorem isObliterated_mergeFromCopySource (data source : ImmutableData) (durable : Bool) :
    (data.mergeFromCopySource source durable).isObliterated = source.isObliterated := by
  have ha := isObliterated_assignDeduplicatedPayload
    { data with sizeContent := source.sizeContent } source
  unfold ImmutableData.mergeFromCopySource
  cases durable with
  | false => exact ha
  | true =>
    rw [← ha]
    simp only [ImmutableData.isObliterated, if_true]
    rw [or_and_of_disjoint (by decide)]

theorem mergeFromCopySource_same (data source : ImmutableData) (durable : Bool) :
    SamePayload (data.mergeFromCopySource source durable) source := by
  cases durable <;> exact ⟨rfl, rfl, rfl⟩

theorem copiedData_same (before source : ImmutableData) (durable : Bool) (now : UInt64) :
    SamePayload (copiedData before source durable now) source
    ∧ (copiedData before source durable now).isObliterated = source.isObliterated := by
  have hsa := mergeFromCopySource_same before source durable
  have hf := isObliterated_mergeFromCopySource before source durable
  unfold copiedData
  dsimp only
  split
  · exact ⟨hsa, hf⟩
  · exact ⟨hsa, hf⟩

section Others

variable {bucket after : ImmutableStoreBucket}

section

variable (h : Sharing bucket)
include h

theorem Sharing.copy
    {sourcePartition destinationPartition sourceAddress destinationContext durable now}
    (hco : copyEntry bucket sourcePartition sourceAddress destinationPartition
      destinationContext durable now = .ok after) : Sharing after := by
  obtain ⟨_, source, _, hso, hh, _, hli, hc⟩ := copyEntry_case h.ordered hco
  have hmem := mem_of_getElem? hso
  cases hc with
  | @overlaid _ _ dest _ hl hsl hkey ho ha =>
    refine h.of_modify ho ha fun d hd => .inr ?_
    cases hsl.symm.trans hd
    obtain ⟨hsa, hf⟩ := copiedData_same dest.data source.data durable now
    refine ⟨source, hmem, ?_, hsa, hf⟩
    exact hh.trans (congrArg Address.hash (key_eq_iff.mp hkey).1).symm
  | added hl hm ho ha =>
    refine h.of_members ho fun e he => ?_
    rw [ha] at he
    have hst := (lookup_spec h.ordered (by decide) hl).insertLe
    rcases (mem_insertIdx hst).mp he with rfl | hk
    · exact .inr ⟨source, hmem, hh, mergeFromCopySource_same _ _ _,
        isObliterated_mergeFromCopySource _ _ _⟩
    · exact .of_mem hk

theorem Sharing.tombstone {partition address compactionStopped result}
    (ht : tombstoneEntry bucket partition address compactionStopped = .ok (result, after)) :
    Sharing after := by
  obtain ⟨slot, e, _, _, hc, _⟩ := tombstoneEntry_case h.ordered ht
  cases hc with
  | already | waits => exact h
  | entombed hl ho hr ha =>
    exact h.of_modify ho ha fun _ _ => .inl ⟨ImmutableData.isObliterated_tombstone, rfl⟩

theorem Sharing.evictUpTo (cutoff : UInt64) (protect : Bool) :
    Sharing (evictUpTo bucket cutoff protect) := by
  refine h.of_members (evictUpTo_ordered h.ordered cutoff protect) fun e he => ?_
  rw [slots_evictUpTo] at he
  exact .of_mem (mem_of_mem_filter he)

theorem Sharing.stamp (slot : Nat) (now : UInt64) : Sharing (stampEntry bucket slot now) := by
  refine h.of_modify (stampEntry_ordered h.ordered slot now)
    (Indexed.slots_modifyAt h.ordered.indexed slot _) fun d hd => .inr ?_
  refine ⟨d, mem_of_getElem? hd, rfl, ?_, ?_⟩ <;>
    (simp only [ImmutableStoreEntry.mapData]; split)
  · exact .refl _
  · exact ⟨rfl, rfl, rfl⟩
  · rfl
  · rfl

end

theorem isObliterated_clearPayload (data : ImmutableData) :
    data.clearPayload.isObliterated = data.isObliterated := by
  have hm := @and_of_masked payloadStoredLocal payloadObliterated
    data.flags 0#32 (by decide)
  rw [BitVec.zero_and, BitVec.or_zero] at hm
  show ((data.flags &&& ~~~payloadStoredLocal) &&& payloadObliterated != 0#32) = _
  rw [hm]
  rfl

theorem Sharing.evictAccessedBy (h : Sharing bucket) (cutoff : UInt64) (protect : Bool) :
    Sharing (evictAccessedBy bucket cutoff protect) := by
  refine h.of_map (evictAccessedBy_ordered h.ordered cutoff protect)
    (slots_evictAccessedBy bucket cutoff protect) ?_ ?_ ?_ ?_
  · intro e
    split <;> rfl
  · intro e
    split
    · exact isObliterated_clearPayload e.data
    · rfl
  · intro e hz
    split
    · rfl
    · exact hz
  · intro e he d hd hh hsa
    obtain ⟨hf, ho, hsi⟩ := hsa
    -- the two lose their payload together or not at all
    rw [losesPayload_congr h.ordered he hd hh hf ho]
    split
    · exact ⟨rfl, rfl, hsi⟩
    · exact ⟨hf, ho, hsi⟩

theorem Sharing.repoint (h : Sharing bucket) {packfile} (hp : packfile ≠ 0)
    (copies : List PayloadCopy) : Sharing (repointEntries bucket packfile copies) := by
  refine h.of_map (repointEntries_ordered h.ordered packfile copies)
    (Indexed.slots_mapEntries bucket _) ?_ ?_ ?_ ?_
  · exact fun _ => rfl
  · intro e
    simp only [ImmutableStoreEntry.mapData]
    split
    · rfl
    · split
      · split <;> rfl
      · rfl
  · intro e hz
    simp [ImmutableStoreEntry.mapData, hz, hp.symm]
  · intro e _ d _ _ hsa
    obtain ⟨hf, ho, hsi⟩ := hsa
    simp only [ImmutableStoreEntry.mapData, hf, ho, hsi]
    split
    · exact ⟨hf, ho, hsi⟩
    · split
      · split
        · exact ⟨rfl, rfl, rfl⟩
        · exact ⟨hf, ho, hsi⟩
      · exact ⟨hf, ho, hsi⟩

end Others

end Lore.Storage
