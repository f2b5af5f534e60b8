import Lore.Storage.Evolves
import Lore.Storage.LocalStore

/-!
# LocalStoreSpec — what a step of a group can do

`groupStep_case` is the inversion of `groupStep`: a bucket read, a bucket changed in
place, a fan-out, a flush of one bucket, a commit of the group or a reload. The invariant
`GroupWell` says that buckets and files are in order and every entry is where the level
of its side puts it.
-/

namespace Lore.Storage

open Lore.Lib List Option Function ImmutableStoreGroup

/-! ## Evolution by the operations of a group -/

section Buckets

variable {bucket : ImmutableStoreBucket} {renews adds : Nat → Prop}

section

variable (h : Ordered bucket)
include h

theorem untombstoneEntry_evolves {partition address original}
    (hli : original.isObliterated = false) (hr : renews (sortKey partition address)) :
    Ordered (untombstoneEntry bucket partition address original)
    ∧ Evolves bucket.slots (untombstoneEntry bucket partition address original).slots renews
      adds := by
  unfold untombstoneEntry
  rcases hl : lookup bucket partition address .matchFull with ⟨slot, start, made⟩
  dsimp only
  split
  case isTrue => exact ⟨h, .refl _ _ _⟩
  case isFalse hf =>
    rw [not_not.mp hf] at hl
    obtain ⟨e, hsl, hkey⟩ := lookup_full h hl
    refine ⟨h.modifyAt slot fun _ => rfl, ?_⟩
    rw [Indexed.slots_modifyAt h.indexed]
    refine .modify hsl rfl (fun _ => .inl (hkey ▸ hr)) fun hobl => ?_
    simp only [ImmutableStoreEntry.mapData] at hobl ⊢
    split at hobl
    · rw [hli] at hobl
      cases hobl
    case isFalse ho =>
      rw [if_neg ho]
      exact .inr rfl

theorem healPayload_evolves (hp : PureTombstones bucket.slots) (hash : Hash)
    {failed} (hf : failed.packFile ≠ 0) :
    Ordered (healPayload bucket hash failed)
    ∧ Evolves bucket.slots (healPayload bucket hash failed).slots renews adds := by
  refine ⟨healPayload_ordered h hash failed, ?_⟩
  rw [healPayload, Indexed.slots_ofList]
  apply Evolves.filter
  intro e he hobl _
  have hz : e.data.packFile ≠ failed.packFile := by
    rw [hp e he hobl]
    exact hf.symm
  simp [hz]

theorem healFragment_evolves (hash : Hash) (failed : List ImmutableData) :
    Ordered (healFragment bucket hash failed)
    ∧ Evolves bucket.slots (healFragment bucket hash failed).slots renews adds := by
  refine ⟨healFragment_ordered h hash failed, ?_⟩
  rw [healFragment, Indexed.slots_ofList]
  apply Evolves.filter
  intro e _ hobl _
  simp [hobl]

theorem clearLostPayloads_evolves (hp : PureTombstones bucket.slots) (opened : List UInt32) :
    Ordered (clearLostPayloads opened bucket)
    ∧ Evolves bucket.slots (clearLostPayloads opened bucket).slots renews adds := by
  refine ⟨h.mapEntries fun _ => rfl, ?_⟩
  rw [clearLostPayloads, Indexed.slots_mapEntries]
  apply Evolves.map
  · exact fun _ => rfl
  · intro e he hobl
    have hz : e.data.packFile = 0 := by
      rw [hp e he hobl]
      rfl
    simp only [ImmutableStoreEntry.mapData, if_pos hz]
  · intro e
    simp only [ImmutableStoreEntry.mapData]
    split
    · rfl
    · split
      · exact isObliterated_clearPayload e.data
      · rfl

end

end Buckets

/-! ## Keys a step of a group touches -/

/-- The keys at which a store with a payload or a copy may replace a tombstone. -/
def GroupAction.renews : GroupAction → Nat → Prop
  | .onBucket _ action, key => action.renews key
  | _, _ => False

/-- The keys at which the step may take a tombstone away without naming its association in
a store or a copy: all that a capacity eviction without protection reaches, and that of an
obliteration undone. -/
def GroupAction.disturbs : GroupAction → Nat → Prop
  | .onBucket _ action, _ => action.sweepsTombstones
  | .untombstone partition address _, key => key = sortKey partition address
  | _, _ => False

/-- The keys at which the step may add an entry. -/
def GroupAction.adds : GroupAction → Nat → Prop
  | .onBucket _ action, key => action.adds key
  | _, _ => False

theorem GroupAction.adds_hash {action : GroupAction} {e : ImmutableStoreEntry}
    (h : action.adds e.key) : action.hash = some e.address.hash := by
  cases action with
  | onBucket index action =>
    cases action with
    | storeEntry partition address =>
      have hkey := (key_eq_iff.mp (show e.key = sortKey partition address from h)).1
      rw [hkey]
      rfl
    | copy sourcePartition sourceAddress destinationPartition destinationContext =>
      have hkey := (key_eq_iff.mp (show e.key = sortKey destinationPartition
        ⟨sourceAddress.hash, destinationContext⟩ from h)).1
      rw [hkey]
      rfl
    | tombstone | evictUpTo | evictAccessedBy | repoint | stamp => exact absurd h id
  | load | untombstone | healPayload | healFragment | fanOut | flushBucket | commit | reload =>
    exact absurd h id

/-! ## The invariant -/

/-- The buckets and files of a group are in order, tombstones are bare, every entry is in
the bucket its level gives it, and a bucket not read yet can be read at the level in
memory. -/
structure GroupWell (group : ImmutableStoreGroup) : Prop where
  level : group.bucketCount ∈ levelLadder
  committed : group.committedLevel = 0 ∨ group.committedLevel ∈ levelLadder
  grown : group.committedLevel ≤ group.bucketCount
  ordered : ∀ i, Ordered (group.slot i).bucket
  pure : ∀ i, PureTombstones (group.slot i).bucket.slots
  placed : ∀ i, ∀ e ∈ (group.slot i).bucket.slots,
    bucketIndexFor e.address.hash group.bucketCount = i
  fileOrdered : ∀ i, Ordered (group.file i)
  filePure : ∀ i, PureTombstones (group.file i).slots
  filed : ∀ i, ∀ e ∈ (group.file i).slots,
    bucketIndexFor e.address.hash group.committedLevel = i
  unwritten : group.committedLevel = 0 → ∀ i, (group.file i).slots = []
  readable : ∀ i < group.bucketCount, (group.slot i).deserialized = false →
    group.committedLevel = group.bucketCount ∨ (group.file i).slots = []

theorem levelLadder_pos {n} (hn : n ∈ levelLadder) : 0 < n := by
  revert hn
  simp only [levelLadder, mem_cons, not_mem_nil, or_false]
  omega

theorem levelLadder_le {n} (hn : n ∈ levelLadder) : n ≤ fanOutLevelMax := by
  revert hn
  simp only [levelLadder, fanOutLevelMax, mem_cons, not_mem_nil, or_false]
  omega

section Well

variable {group : ImmutableStoreGroup}

theorem GroupWell.file_empty (h : GroupWell group) {i} (hi : group.committedLevel ≤ i) :
    (group.file i).slots = [] := by
  rcases h.committed with hz | hl
  · exact h.unwritten hz i
  · apply eq_nil_iff_forall_not_mem.mpr
    intro e he
    have hin := h.filed i e he
    have hlt := bucketIndexFor_lt hl e.address.hash
    omega

theorem GroupWell.slot_empty (h : GroupWell group) {i} (hi : group.bucketCount ≤ i)
    (e : ImmutableStoreEntry) : e ∉ (group.slot i).bucket.slots := by
  intro he
  have hin := h.placed i e he
  have hlt := bucketIndexFor_lt h.level e.address.hash
  omega

theorem GroupWell.new (settings : ImmutableStoreSettings) : GroupWell (.new settings) where
  level := settings.ladder
  committed := .inl rfl
  grown := Nat.zero_le _
  ordered _ := .empty
  pure _ _ he := absurd he not_mem_nil
  placed _ _ he := absurd he not_mem_nil
  fileOrdered _ := .empty
  filePure _ _ he := absurd he not_mem_nil
  filed _ _ he := absurd he not_mem_nil
  unwritten _ _ := rfl
  readable _ _ _ := .inr rfl

section

variable (h : GroupWell group)
include h

theorem GroupWell.readFile_evolves (index : Nat)
    (lost : Option (List UInt32)) (renews adds : Nat → Prop) :
    Ordered (group.readFile index lost)
    ∧ Evolves (group.file index).slots (group.readFile index lost).slots renews adds := by
  cases lost with
  | none => exact ⟨h.fileOrdered index, .refl _ _ _⟩
  | some opened => exact clearLostPayloads_evolves (h.fileOrdered index) (h.filePure index) opened

theorem GroupWell.update {index slot} (hl : slot.deserialized = true)
    (ho : Ordered slot.bucket) (hpu : PureTombstones slot.bucket.slots)
    (hp : ∀ e ∈ slot.bucket.slots, bucketIndexFor e.address.hash group.bucketCount = index) :
    GroupWell { group with slot := update group.slot index slot } where
  __ := h
  ordered := (forall_update_iff group.slot fun _ slot => Ordered slot.bucket).mpr
    ⟨ho, fun i _ => h.ordered i⟩
  pure := (forall_update_iff group.slot fun _ slot => PureTombstones slot.bucket.slots).mpr
    ⟨hpu, fun i _ => h.pure i⟩
  placed := (forall_update_iff group.slot fun i slot => ∀ e ∈ slot.bucket.slots,
    bucketIndexFor e.address.hash group.bucketCount = i).mpr ⟨hp, fun i _ => h.placed i⟩
  readable i hlt := by
    by_cases hi : i = index
    · subst hi
      simp [hl]
    · simpa [hi] using h.readable i hlt

theorem GroupWell.deserialize {index} (hi : index < group.bucketCount)
    (hu : (group.slot index).deserialized = false) (lost : Option (List UInt32))
    (upgraded : Bool) : GroupWell (group.deserialize index lost upgraded) := by
  obtain ⟨ho, hev⟩ := h.readFile_evolves index lost (fun _ => False) (fun _ => False)
  refine h.update rfl ho ((h.filePure index).evolves hev) fun e he => ?_
  rcases hev.origins e he with ⟨d, hd, hkey⟩ | ha
  · rcases h.readable index hi hu with hl | hem
    · rw [← (key_eq_iff.mp hkey).1, ← hl]
      exact h.filed index d hd
    · rw [hem] at hd
      exact absurd hd not_mem_nil
  · exact absurd ha id

omit h in
theorem flushBucket_bucket (index i : Nat) :
    ((group.flushBucket index).slot i).bucket = (group.slot i).bucket := by
  refine update_related (fun a b : BucketSlot => b.bucket = a.bucket) (fun _ => rfl) ?_ i
  rfl

theorem GroupWell.flushBucket {index} (hl : group.committedLevel = group.bucketCount) :
    GroupWell (group.flushBucket index) where
  __ := h
  ordered i := by
    rw [flushBucket_bucket]
    exact h.ordered i
  pure i := by
    rw [flushBucket_bucket]
    exact h.pure i
  placed i := by
    rw [flushBucket_bucket]
    exact h.placed i
  fileOrdered := (forall_update_iff group.file fun _ file => Ordered file).mpr
    ⟨h.ordered index, fun i _ => h.fileOrdered i⟩
  filePure := (forall_update_iff group.file fun _ file => PureTombstones file.slots).mpr
    ⟨h.pure index, fun i _ => h.filePure i⟩
  filed := (forall_update_iff group.file fun i file => ∀ e ∈ file.slots,
    bucketIndexFor e.address.hash group.committedLevel = i).mpr
      ⟨hl ▸ h.placed index, fun i _ => h.filed i⟩
  unwritten hz := by
    have hpos := levelLadder_pos h.level
    rw [← hl] at hpos
    exact absurd hz (Nat.ne_of_gt hpos)
  readable _ _ _ := .inl hl

/-- A file of the group once the level in memory is committed: the bucket, or the file as
it was, which then holds nothing. -/
theorem GroupWell.commit_file (i : Nat) :
    group.commit.file i = (group.slot i).bucket
    ∨ group.commit.file i = group.file i ∧ (group.file i).slots = [] := by
  simp only [ImmutableStoreGroup.commit]
  split
  case isTrue => exact .inl rfl
  case isFalse hk =>
    refine .inr ⟨rfl, ?_⟩
    apply h.file_empty
    -- every file of the level on disk is written
    refine Nat.le_of_not_lt fun hlt => hk ⟨?_, .inl hlt⟩
    exact Nat.lt_of_lt_of_le hlt h.grown

theorem GroupWell.commit : GroupWell group.commit := by
  have hb : ∀ i, (group.commit.slot i).bucket = (group.slot i).bucket := by
    intro i
    simp only [ImmutableStoreGroup.commit]
    split <;> rfl
  refine ⟨h.level, .inr h.level, Nat.le_refl _, fun i => ?_, fun i => ?_, fun i => ?_,
    fun i => ?_, fun i => ?_, fun i => ?_, fun hz => ?_, fun _ _ _ => .inl rfl⟩
  · rw [hb]
    exact h.ordered i
  · rw [hb]
    exact h.pure i
  · rw [hb]
    exact h.placed i
  · rcases h.commit_file i with hf | ⟨hf, _⟩ <;> rw [hf]
    · exact h.ordered i
    · exact h.fileOrdered i
  · rcases h.commit_file i with hf | ⟨hf, _⟩ <;> rw [hf]
    · exact h.pure i
    · exact h.filePure i
  · rcases h.commit_file i with hf | ⟨hf, hem⟩ <;> rw [hf]
    · exact h.placed i
    · rw [hem]
      exact fun _ he => absurd he not_mem_nil
  · exact absurd hz (Nat.ne_of_gt (levelLadder_pos h.level))

theorem GroupWell.invalidate (settings : ImmutableStoreSettings) :
    GroupWell (group.invalidate settings) := by
  have hl : (group.invalidate settings).bucketCount ∈ levelLadder ∧ (group.committedLevel = 0
        ∨ group.committedLevel = (group.invalidate settings).bucketCount) := by
    simp only [ImmutableStoreGroup.invalidate]
    split
    case isTrue hz => exact ⟨settings.ladder, .inl hz⟩
    case isFalse hw => exact ⟨h.committed.resolve_left hw, .inr rfl⟩
  refine ⟨hl.1, h.committed, ?_, fun _ => .empty, fun _ _ he => absurd he not_mem_nil,
    fun _ _ he => absurd he not_mem_nil, h.fileOrdered, h.filePure, h.filed, h.unwritten,
    fun i _ _ => ?_⟩
  · rcases hl.2 with hz | hsa
    · exact hz ▸ Nat.zero_le _
    · exact Nat.le_of_eq hsa
  · rcases hl.2 with hz | hsa
    · exact .inr (h.unwritten hz i)
    · exact .inl hsa

end

end Well

/-- The step changed one loaded bucket in place. One that leaves it unmarked made no
tombstone. -/
structure ChangedBucket (group : ImmutableStoreGroup) (action : GroupAction) (index : Nat)
    (bucket : ImmutableStoreBucket) (marks : Bool) : Prop where
  inLevel : index < group.bucketCount
  loaded : (group.slot index).deserialized = true
  named : ∀ hash, action.hash = some hash → bucketIndexFor hash group.bucketCount = index
  indexed : ∀ i inner, action = .onBucket i inner → i = index
  unmarked : marks = false → ∀ e ∈ bucket.slots, e.data.isObliterated = true →
    e ∈ (group.slot index).bucket.slots
  ordered : Ordered bucket
  evolves : Evolves (group.slot index).bucket.slots bucket.slots
    (fun key => action.renews key ∨ action.disturbs key) action.adds

/-- Everything a step of a group can do. -/
inductive GroupCase (settings : ImmutableStoreSettings) (group : ImmutableStoreGroup) :
    GroupAction → ImmutableStoreGroup → Prop where
  | loaded {index : Nat} {lost : Option (List UInt32)} {upgraded : Bool}
      (hindex : index < group.bucketCount) (hunread : (group.slot index).deserialized = false) :
      GroupCase settings group (.load index lost upgraded)
        (group.deserialize index lost upgraded)
  | changed {action : GroupAction} {index : Nat} {bucket : ImmutableStoreBucket} {marks : Bool}
      (h : ChangedBucket group action index bucket marks) :
      GroupCase settings group action (group.setBucket index bucket marks)
  | fannedOut {target : Nat} (hloaded : ∀ i < group.bucketCount, (group.slot i).deserialized = true)
      (htarget : target ∈ levelLadder) (hgrows : group.bucketCount < target) :
      GroupCase settings group .fanOut (group.fanOut target)
  | flushed {index : Nat} (hindex : index < group.bucketCount)
      (hloaded : (group.slot index).deserialized = true)
      (hlevel : group.committedLevel = group.bucketCount) :
      GroupCase settings group (.flushBucket index) (group.flushBucket index)
  | committed (hlevel : group.committedLevel ≠ group.bucketCount) :
      GroupCase settings group .commit group.commit
  | reloaded (hclean : ∀ i < fanOutLevelMax, (group.slot i).dirty = false) :
      GroupCase settings group .reload (group.invalidate settings)

theorem ImmutableStoreGroup.ready_iff {group : ImmutableStoreGroup} {index : Nat}
    {hash : Option Hash} :
    group.ready index hash = true ↔ index < group.bucketCount
      ∧ (group.slot index).deserialized = true
      ∧ ∀ h, hash = some h → bucketIndexFor h group.bucketCount = index := by
  simp only [ready, Bool.and_eq_true, and_assoc]
  cases hash <;> simp

theorem ImmutableStoreGroup.fanOutTarget_spec {group : ImmutableStoreGroup}
    {threshold target : Nat} (h : group.fanOutTarget threshold = some target) :
    target ∈ levelLadder ∧ group.bucketCount < target := by
  obtain ⟨_, h⟩ := ite_none_left_eq_some.mp h
  obtain ⟨_, h⟩ := ite_none_left_eq_some.mp h
  obtain ⟨hg, h⟩ := ite_none_left_eq_some.mp h
  cases h
  exact ⟨levelFor_mem _ _ _, Nat.lt_of_not_le hg⟩

theorem groupStep_case {settings : ImmutableStoreSettings} {group after : ImmutableStoreGroup}
    (h : GroupWell group) {action : GroupAction}
    (hst : groupStep settings group action = some after) :
    GroupCase settings group action after := by
  cases action with
  | load index lost upgraded =>
    obtain ⟨hcan, rfl⟩ := guarded hst
    exact .loaded hcan.1 hcan.2
  | onBucket index action =>
    obtain ⟨hcan, hst⟩ := ite_none_right_eq_some.mp hst
    obtain ⟨bucket, hb, rfl⟩ := map_eq_some_iff.mp hst
    obtain ⟨hi, hl, hn⟩ := ready_iff.mp hcan.1
    obtain ⟨ho, hev⟩ := bucketStep_evolves (h.ordered index) (h.pure index) hb
    refine .changed ⟨hi, hl, hn, ?_, ?_, ho, hev⟩
    · intro i inner heq
      cases heq
      rfl
    · intro hm e he hobl
      cases action with
      | stamp slot now =>
        cases hb
        exact stampEntry_marked (h.ordered index) slot now he hobl
      | _ => cases hm
  | untombstone partition address original =>
    obtain ⟨hcan, rfl⟩ := guarded hst
    obtain ⟨hi, hl, hn⟩ := ready_iff.mp hcan.1
    obtain ⟨ho, hev⟩ := @untombstoneEntry_evolves _
      (fun key => False ∨ key = sortKey partition address) (fun _ => False) (h.ordered _)
      partition address original hcan.2 (.inr rfl)
    exact .changed ⟨hi, hl, hn, (fun _ _ heq => nomatch heq), (fun hm => nomatch hm), ho, hev⟩
  | healPayload index hash failed =>
    obtain ⟨hcan, rfl⟩ := guarded hst
    obtain ⟨hi, hl, hn⟩ := ready_iff.mp hcan.1
    obtain ⟨ho, hev⟩ := healPayload_evolves (h.ordered index) (h.pure index) hash hcan.2
    exact .changed ⟨hi, hl, hn, (fun _ _ heq => nomatch heq), (fun hm => nomatch hm), ho, hev⟩
  | healFragment hash failed =>
    obtain ⟨hcan, rfl⟩ := guarded hst
    obtain ⟨hi, hl, hn⟩ := ready_iff.mp hcan
    obtain ⟨ho, hev⟩ := healFragment_evolves (h.ordered _) hash failed
    exact .changed ⟨hi, hl, hn, (fun _ _ heq => nomatch heq), (fun hm => nomatch hm), ho, hev⟩
  | fanOut =>
    obtain ⟨hl, hst⟩ := ite_none_right_eq_some.mp hst
    obtain ⟨target, ht, rfl⟩ := map_eq_some_iff.mp hst
    obtain ⟨hla, hg⟩ := fanOutTarget_spec ht
    exact .fannedOut hl hla hg
  | flushBucket index =>
    obtain ⟨hcan, rfl⟩ := guarded hst
    obtain ⟨hi, hl, _⟩ := ready_iff.mp hcan.1
    exact .flushed hi hl hcan.2
  | commit =>
    obtain ⟨hle, rfl⟩ := guarded hst
    exact .committed hle
  | reload =>
    simp only [groupStep] at hst
    obtain ⟨hc, rfl⟩ := guarded hst
    exact .reloaded hc

/-! ## Fan-out -/

section FanOut

variable {group : ImmutableStoreGroup}

theorem GroupWell.keys_distinct (h : GroupWell group) :
    (((range group.bucketCount).map fun i => (group.slot i).bucket).flatMap
      (·.entry)).Pairwise fun a b => a.key ≠ b.key := by
  rw [flatMap_map, pairwise_flatMap]
  constructor
  · intro i _
    have hso := (h.ordered i).sorted.imp Nat.ne_of_lt
    exact ((Indexed.slots_perm (h.ordered i).indexed).pairwise_iff fun hne => hne.symm).mp hso
  · apply pairwise_lt_range.imp
    intro i j hij a ha b hb hkey
    have hia := h.placed i a ((Indexed.mem_slots (h.ordered i).indexed).mpr ha)
    have hjb := h.placed j b ((Indexed.mem_slots (h.ordered j).indexed).mpr hb)
    rw [(key_eq_iff.mp hkey).1] at hia
    omega

theorem GroupWell.mem_fanOut (h : GroupWell group) {target i} (hi : i < target)
    (e : ImmutableStoreEntry) :
    Ordered ((group.fanOut target).slot i).bucket
    ∧ (e ∈ ((group.fanOut target).slot i).bucket.slots
      ↔ (∃ j < group.bucketCount, e ∈ (group.slot j).bucket.slots)
        ∧ bucketIndexFor e.address.hash target = i) := by
  have hold : ∀ b ∈ (range group.bucketCount).map fun i => (group.slot i).bucket,
      Ordered b := by
    intro b hb
    obtain ⟨j, _, rfl⟩ := mem_map.mp hb
    exact h.ordered j
  obtain ⟨ho, hsl⟩ := redistribute_spec hold h.keys_distinct target i
  simp only [ImmutableStoreGroup.fanOut, if_pos hi]
  refine ⟨ho, ?_⟩
  rw [hsl]
  simp

theorem GroupWell.fanOut (h : GroupWell group) {target} (ht : target ∈ levelLadder)
    (hg : group.bucketCount < target) : GroupWell (group.fanOut target) := by
  have hb : ∀ {i}, ¬ i < target → (group.fanOut target).slot i = group.slot i := by
    intro i hi
    simp only [ImmutableStoreGroup.fanOut, if_neg hi]
  refine ⟨ht, h.committed, Nat.le_trans h.grown (Nat.le_of_lt hg), fun i => ?_,
    fun i e he hobl => ?_, fun i e he => ?_, h.fileOrdered, h.filePure, h.filed, h.unwritten,
    fun i hi hu => ?_⟩
  · by_cases hi : i < target
    · exact (h.mem_fanOut hi ⟨⟨0, 0⟩, 0, .default⟩).1
    · rw [hb hi]
      exact h.ordered i
  · by_cases hi : i < target
    · obtain ⟨⟨j, _, hj⟩, _⟩ := (h.mem_fanOut hi e).2.mp he
      exact h.pure j e hj hobl
    · rw [hb hi] at he
      exact h.pure i e he hobl
  · by_cases hi : i < target
    · exact ((h.mem_fanOut hi e).2.mp he).2
    · rw [hb hi] at he
      exact absurd he (h.slot_empty (by omega) e)
  · have hi : i < target := hi
    simp [ImmutableStoreGroup.fanOut, hi] at hu

end FanOut

theorem GroupWell.step {settings : ImmutableStoreSettings} {group after : ImmutableStoreGroup}
    (h : GroupWell group) {action : GroupAction}
    (hca : GroupCase settings group action after) : GroupWell after := by
  cases hca with
  | loaded hi hu => exact h.deserialize hi hu _ _
  | @changed _ index bucket marks hc =>
    refine h.update rfl hc.ordered ((h.pure index).evolves hc.evolves) ?_
    intro e he
    rcases hc.evolves.origins e he with ⟨d, hd, hkey⟩ | ha
    · rw [← (key_eq_iff.mp hkey).1]
      exact h.placed index d hd
    · exact hc.named _ (GroupAction.adds_hash ha)
  | fannedOut _ ht hg => exact h.fanOut ht hg
  | flushed _ _ hl => exact h.flushBucket hl
  | committed => exact h.commit
  | reloaded => exact h.invalidate settings

end Lore.Storage
