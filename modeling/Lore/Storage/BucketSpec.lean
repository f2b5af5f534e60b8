import Lore.Storage.BucketOps

/-!
# BucketSpec — what the bucket operations do to the slots

Every operation is given by what it does to the entries in sorted order: it keeps the
order, and it changes the data of named slots only. The sweep of `storeEntry` is given by
the slots it reaches.
-/

namespace Lore.Storage

open Lore.Lib List Option

/-! ## Operations that keep the order -/

variable {f : ImmutableStoreEntry → ImmutableStoreEntry} {bucket : ImmutableStoreBucket}

theorem pairwise_key_map {slots : List ImmutableStoreEntry} (hf : ∀ e, (f e).key = e.key)
    (h : slots.Pairwise fun a b => a.key < b.key) :
    (slots.map f).Pairwise fun a b => a.key < b.key := by
  rw [pairwise_map]
  simpa only [hf] using h

theorem pairwise_key_modify {slots : List ImmutableStoreEntry} (hf : ∀ e, (f e).key = e.key)
    (slot : Nat) (h : slots.Pairwise fun a b => a.key < b.key) :
    (slots.modify slot f).Pairwise fun a b => a.key < b.key := by
  have hk : (slots.modify slot f).map (·.key) = slots.map (·.key) := by
    ext i : 1
    simp only [getElem?_map, getElem?_modify]
    cases slots[i]? with
    | none => rfl
    | some e =>
      by_cases hi : slot = i
      · simp [hi, hf]
      · simp [hi]
  have hm := pairwise_map.mpr h
  rw [← hk] at hm
  exact pairwise_map.mp hm

theorem lt_matchFull {made : StoreMatch} (h : made ≠ .matchFull) : made < .matchFull := by
  cases made <;> first | exact absurd rfl h | decide

section

variable (h : Ordered bucket)
include h

theorem Ordered.modifyAt (slot : Nat) (hf : ∀ e, (f e).key = e.key) :
    Ordered (bucket.modifyAt slot f) := by
  refine ⟨Indexed.modifyAt_wellIndexed h.indexed slot f, ?_⟩
  rw [Indexed.slots_modifyAt h.indexed]
  exact pairwise_key_modify hf slot h.sorted

theorem Ordered.mapEntries (hf : ∀ e, (f e).key = e.key) : Ordered (bucket.mapEntries f) := by
  refine ⟨Indexed.mapEntries_wellIndexed h.indexed f, ?_⟩
  rw [Indexed.slots_mapEntries]
  exact pairwise_key_map hf h.sorted

theorem Ordered.ofSublist {kept} (hk : kept.Sublist bucket.slots) : Ordered (.ofList kept) := by
  refine ⟨Indexed.ofList_wellIndexed kept, ?_⟩
  rw [Indexed.slots_ofList]
  exact h.sorted.sublist hk

/-- A new entry at the slot a search answered that fell short of its request. -/
theorem Ordered.insertAt {partition address request slot insertSlot made}
    (hl : lookup bucket partition address request = (slot, insertSlot, made))
    (hlt : made < request) (data : ImmutableData) :
    Ordered (bucket.insertAt insertSlot ⟨address, partition, data⟩)
      ∧ (bucket.insertAt insertSlot ⟨address, partition, data⟩).slots
        = bucket.slots.insertIdx insertSlot ⟨address, partition, data⟩ := by
  have hne : request ≠ .matchNone := by
    rintro rfl
    exact absurd hlt (Nat.not_lt_zero _)
  have hsp := lookup_spec h hne hl
  have hle : insertSlot ≤ bucket.entry.length := by
    rw [← Indexed.length_slots h.indexed]
    exact hsp.insertLe
  have hsl := Indexed.slots_insertAt h.indexed hle (⟨address, partition, data⟩ :
    ImmutableStoreEntry)
  refine ⟨⟨Indexed.insertAt_wellIndexed h.indexed hle _, ?_⟩, hsl⟩
  rw [hsl, insertIdx_eq_take_cons_drop hsp.insertLe, pairwise_append, pairwise_cons]
  have hb : ∀ e ∈ bucket.slots.take insertSlot, e.key < sortKey partition address := by
    intro e he
    obtain ⟨i, hi⟩ := mem_iff_getElem?.mp he
    rw [getElem?_take] at hi
    obtain ⟨_, hi⟩ := ite_none_right_eq_some.mp hi
    exact hsp.before i e hi (by assumption)
  have ha : ∀ e ∈ bucket.slots.drop insertSlot, sortKey partition address < e.key := by
    intro e he
    obtain ⟨i, hi⟩ := mem_iff_getElem?.mp he
    rw [getElem?_drop] at hi
    exact hsp.after hlt _ e hi (Nat.le_add_right _ _)
  refine ⟨h.sorted.sublist (take_sublist _ _), ⟨ha, h.sorted.sublist (drop_sublist _ _)⟩, ?_⟩
  intro e he d hd
  rcases mem_cons.mp hd with rfl | hd
  · exact hb e he
  · exact Nat.lt_trans (hb e he) (ha d hd)

end

/-! ## The sweep -/

/-- The hash of the entry at a slot. -/
def hashAt (slots : List ImmutableStoreEntry) (slot : Nat) : Option Hash :=
  slots[slot]?.map (·.address.hash)

/-- The sweep outwards from `start` reaches `slot`: every entry from next to `start` up to
it is of the hash. -/
def Swept (slots : List ImmutableStoreEntry) (hash : Hash) (start slot : Nat) : Prop :=
  slot ≠ start ∧ ∀ j, (slot ≤ j ∧ j < start ∨ start < j ∧ j ≤ slot) → hashAt slots j = some hash

/-- `after` is `before` with `f` applied at the slots `changed` holds of. -/
structure ChangedAt (before after : List ImmutableStoreEntry)
    (f : ImmutableStoreEntry → ImmutableStoreEntry) (changed : Nat → Prop) : Prop where
  at_changed : ∀ i, changed i → after[i]? = before[i]?.map f
  at_kept : ∀ i, ¬ changed i → after[i]? = before[i]?

theorem ChangedAt.modify {slots after slot} {later changed : Nat → Prop}
    (h : ChangedAt (slots.modify slot f) after f later) (hnot : ¬ later slot)
    (hiff : ∀ i, changed i ↔ i = slot ∨ later i) : ChangedAt slots after f changed where
  at_changed i hi := by
    rcases (hiff i).mp hi with rfl | hl
    · rw [h.at_kept i hnot]
      simp
    · have hne : slot ≠ i := fun heq => hnot (heq ▸ hl)
      rw [h.at_changed i hl]
      simp [hne]
  at_kept i hi := by
    obtain ⟨hne, hk⟩ := not_or.mp (mt (hiff i).mpr hi)
    rw [h.at_kept i hk]
    simp [Ne.symm hne]

theorem deduplicateEntry_address (data : ImmutableData) (e : ImmutableStoreEntry) :
    (deduplicateEntry data e).address = e.address
      ∧ (deduplicateEntry data e).partition = e.partition := by
  unfold deduplicateEntry
  split <;> exact ⟨rfl, rfl⟩

theorem deduplicateEntry_key (data : ImmutableData) (e : ImmutableStoreEntry) :
    (deduplicateEntry data e).key = e.key := by
  rw [ImmutableStoreEntry.key, ImmutableStoreEntry.key, (deduplicateEntry_address data e).1,
    (deduplicateEntry_address data e).2]

theorem hashAt_modify (slots : List ImmutableStoreEntry) (data : ImmutableData) (slot j : Nat) :
    hashAt (slots.modify slot (deduplicateEntry data)) j = hashAt slots j := by
  rw [hashAt, hashAt, getElem?_modify]
  cases slots[j]? with
  | none => rfl
  | some e =>
    by_cases hj : slot = j
    · simp [hj, deduplicateEntry_address]
    · simp [hj]

section Sweep

variable {bucket : ImmutableStoreBucket} {hash : Hash} {data : ImmutableData}

theorem updateSlot_spec (h : Ordered bucket) (slot : Nat) :
    (hashAt bucket.slots slot ≠ some hash ∧ updateSlot bucket hash data slot = none)
    ∨ (hashAt bucket.slots slot = some hash
      ∧ ∃ next, updateSlot bucket hash data slot = some next ∧ Ordered next
        ∧ next.slots = bucket.slots.modify slot (deduplicateEntry data)) := by
  unfold updateSlot
  rw [hashAt, ← Indexed.getElem?_slots h.indexed]
  cases bucket.slots[slot]? with
  | none => exact .inl ⟨by simp, rfl⟩
  | some e =>
    by_cases hh : e.address.hash = hash
    · right
      refine ⟨by rw [map_some, hh], _, if_neg (not_not.mpr hh), ?_, ?_⟩
      · exact h.modifyAt slot (deduplicateEntry_key data)
      · exact Indexed.slots_modifyAt h.indexed slot _
    · left
      refine ⟨fun heq => hh (some.inj heq), if_pos hh⟩

theorem sweepDown_spec (h : Ordered bucket) (n : Nat) :
    Ordered (sweepDown hash data n bucket)
    ∧ ChangedAt bucket.slots (sweepDown hash data n bucket).slots (deduplicateEntry data)
      fun i => i < n ∧ ∀ j, i ≤ j → j < n → hashAt bucket.slots j = some hash := by
  induction n generalizing bucket with
  | zero => exact ⟨h, ⟨fun i hi => absurd hi.1 (Nat.not_lt_zero i), fun _ _ => rfl⟩⟩
  | succ n ih =>
    rw [sweepDown]
    rcases @updateSlot_spec bucket hash data h n with ⟨hne, hno⟩ | ⟨heq, next, hn, hord, hsl⟩
    · -- the slot is of another hash, so nothing below it is reached either
      rw [hno]
      refine ⟨h, ⟨fun i hi => ?_, fun _ _ => rfl⟩⟩
      exact absurd (hi.2 n (Nat.le_of_lt_succ hi.1) (Nat.lt_succ_self n)) hne
    · rw [hn]
      obtain ⟨hord', hc⟩ := ih hord
      refine ⟨hord', ?_⟩
      simp only [hsl, hashAt_modify] at hc
      refine hc.modify (fun h => Nat.lt_irrefl n h.1) fun i => ?_
      constructor
      · intro ⟨hlt, hrun⟩
        by_cases hi : i = n
        · exact .inl hi
        · exact .inr ⟨by omega, fun j hij hj => hrun j hij (by omega)⟩
      · intro hi
        refine ⟨by omega, fun j hij hj => ?_⟩
        by_cases hj' : j = n
        · rw [hj']
          exact heq
        · exact (hi.resolve_left (by omega)).2 j hij (by omega)

theorem sweepUp_spec (h : Ordered bucket) (slot left : Nat) :
    Ordered (sweepUp hash data slot left bucket)
    ∧ ChangedAt bucket.slots (sweepUp hash data slot left bucket).slots (deduplicateEntry data)
      fun i => slot < i ∧ i ≤ slot + left
        ∧ ∀ j, slot < j → j ≤ i → hashAt bucket.slots j = some hash := by
  induction left generalizing bucket slot with
  | zero => exact ⟨h, ⟨fun i hi => absurd hi.1 (by omega), fun _ _ => rfl⟩⟩
  | succ left ih =>
    rw [sweepUp]
    rcases @updateSlot_spec bucket hash data h _ with
      ⟨hne, hno⟩ | ⟨heq, next, hn, hord, hsl⟩
    · rw [hno]
      refine ⟨h, ⟨fun i hi => ?_, fun _ _ => rfl⟩⟩
      exact absurd (hi.2.2 (slot + 1) (Nat.lt_succ_self slot) hi.1) hne
    · rw [hn]
      obtain ⟨hord', hc⟩ := ih hord (slot + 1)
      refine ⟨hord', ?_⟩
      simp only [hsl, hashAt_modify] at hc
      refine hc.modify (fun h => Nat.lt_irrefl _ h.1) fun i => ?_
      constructor
      · intro ⟨hlt, hle, hrun⟩
        by_cases hi : i = slot + 1
        · exact .inl hi
        · exact .inr ⟨by omega, by omega, fun j hj hji => hrun j (by omega) hji⟩
      · intro hi
        refine ⟨by omega, by omega, fun j hj hji => ?_⟩
        by_cases hj' : j = slot + 1
        · rw [hj']
          exact heq
        · exact (hi.resolve_left (by omega)).2.2 j (by omega) hji

theorem ChangedAt.hashAt_eq {before after} {changed : Nat → Prop}
    (h : ChangedAt before after (deduplicateEntry data) changed) (j : Nat) :
    hashAt after j = hashAt before j := by
  rw [hashAt, hashAt]
  by_cases hj : changed j
  · rw [h.at_changed j hj]
    cases before[j]? with
    | none => rfl
    | some e => simp [deduplicateEntry_address]
  · rw [h.at_kept j hj]

theorem sweep_spec (h : Ordered bucket) (start : Nat) :
    Ordered (sweep bucket hash data start)
    ∧ ChangedAt bucket.slots (sweep bucket hash data start).slots (deduplicateEntry data)
      (Swept bucket.slots hash start) := by
  obtain ⟨hd, hb⟩ := @sweepDown_spec bucket hash data h start
  obtain ⟨hup, ha⟩ := @sweepUp_spec _ hash data hd start _
  simp only [hb.hashAt_eq] at ha
  refine ⟨hup, ?_⟩
  have hl : (sweepDown hash data start bucket).sortedIndex.length
      = (sweepDown hash data start bucket).slots.length := by
    rw [hd.indexed.length_eq, Indexed.length_slots hd.indexed]
  constructor
  · intro i ⟨hne, hrun⟩
    by_cases hlt : i < start
    · have hnot : ¬ (start < i) := by omega
      rw [sweep, ha.at_kept i fun hi => hnot hi.1,
        hb.at_changed i ⟨hlt, fun j hij hj => hrun j (.inl ⟨hij, hj⟩)⟩]
    · have hi := hrun i (.inr ⟨by omega, Nat.le_refl i⟩)
      have hr : i < (sweepDown hash data start bucket).slots.length := by
        rw [← hb.hashAt_eq, hashAt, map_eq_some_iff] at hi
        obtain ⟨e, he, _⟩ := hi
        exact (List.getElem?_eq_some_iff.mp he).1
      rw [sweep, ha.at_changed i ⟨by omega, by omega,
        fun j hj hji => hrun j (.inr ⟨hj, hji⟩)⟩, hb.at_kept i fun hi => by omega]
  · intro i hnot
    have hnU : ¬ (start < i ∧ i ≤ start
        + ((sweepDown hash data start bucket).sortedIndex.length - 1 - start)
        ∧ ∀ j, start < j → j ≤ i → hashAt bucket.slots j = some hash) := by
      intro ⟨hlt, _, hrun⟩
      refine hnot ⟨by omega, fun j hj => hrun j ?_ ?_⟩ <;> omega
    have hnD : ¬ (i < start ∧ ∀ j, i ≤ j → j < start → hashAt bucket.slots j = some hash) := by
      intro ⟨hlt, hrun⟩
      refine hnot ⟨by omega, fun j hj => hrun j ?_ ?_⟩ <;> omega
    rw [sweep, ha.at_kept i hnU, hb.at_kept i hnD]

end Sweep

end Lore.Storage
