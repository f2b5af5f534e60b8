import Lore.Storage.Obliterated

/-!
# Isolation — what a partition is served in a store that isolates partitions

All partitions share the buckets and the payload of a hash; what keeps them apart is that
a `get` serves the very association it names. So a partition is served a payload only
through an entry of its own, and the question is how such an entry comes to be. A store
without a payload makes one for any hash, with the payload another partition brought, or
is given that payload by a later store's sweep. Where a partition stores without a payload
only hashes it holds already, it is served only payloads of hashes it stored one of itself, from a
range that was written for that hash, whatever the others do.
-/

namespace Lore.Storage

open Lore.Lib List Function ImmutableStoreGroup Option FragmentFlags

/-! ## The operations of a partition -/

/-- The operation names the partition. -/
def BucketAction.names (partition : Partition) : BucketAction → Bool
  | .storeEntry partition' .. => partition' = partition
  | .copy sourcePartition _ destinationPartition _ _ _ =>
      sourcePartition = partition || destinationPartition = partition
  | .tombstone partition' .. => partition' = partition
  | .evictUpTo .. | .evictAccessedBy .. | .repoint .. | .stamp .. => false

@[inherit_doc BucketAction.names]
def GroupAction.names (partition : Partition) : GroupAction → Bool
  | .onBucket _ action => action.names partition
  | .untombstone partition' .. => partition' = partition
  | _ => false

/-- A put of the partition that carries a payload of the hash and goes through. -/
def PutsPayload (partition : Partition) (hash : Hash) (store : LocalImmutableStore)
    (step : Nat × GroupAction) : Prop :=
  ∃ index address fragment payload force now outcome after,
    step.2 = .onBucket index (.storeEntry partition address fragment payload force now)
    ∧ address.hash = hash ∧ payload ≠ .absent
    ∧ storeEntry ((store step.1).slot index).bucket partition address fragment payload force now
      = .ok (outcome, after)
    ∧ outcome ≠ .needsPayload

/-- The step of the run is such a put. -/
def PutAt (settings : ImmutableStoreSettings) (actions : List (Nat × GroupAction))
    (partition : Partition) (hash : Hash) (step : Nat × GroupAction) : Prop :=
  ∃ before rest store, actions = before ++ step :: rest
    ∧ run (storeStep settings) (.new settings) before = some store
    ∧ PutsPayload partition hash store step

/-- The range was written for the hash: by a store of the hash, or by a compaction that copied
one written for it there. -/
inductive WrittenFor (actions : List (Nat × GroupAction)) (hash : Hash) :
    PackStoreRef → UInt32 → Prop where
  | stored {index : Nat} {partition : Partition} {address : Address} {fragment : Fragment}
      {at_ : PackStoreRef} {force : Bool} {now : UInt64}
      (hmem : (groupIndex hash, .onBucket index
        (.storeEntry partition address fragment (.written at_) force now)) ∈ actions)
      (hhash : address.hash = hash) : WrittenFor actions hash at_ fragment.sizePayload
  | copied {index : Nat} {packfile : UInt32} {copies : List PayloadCopy} {c : PayloadCopy}
      (hmem : (groupIndex hash, .onBucket index (.repoint packfile copies)) ∈ actions)
      (hcopy : c ∈ copies) (hsource : WrittenFor actions hash ⟨packfile, c.offset⟩ c.size) :
      WrittenFor actions hash c.copy c.size

/-- The packfiles hold the bytes at the range. -/
def HoldsAt (packfiles : Packfiles) (at_ : PackStoreRef) (size : UInt32) (bytes : Bytes) : Prop :=
  size = 0 ∧ bytes = [] ∨ ∃ buffer, packfiles at_.id = some buffer
    ∧ at_.offset.toNat + size.toNat ≤ buffer.length
    ∧ bytes = (buffer.drop at_.offset.toNat).take size.toNat

/-- A copy into the partition from another one. -/
def CopiesInto (partition : Partition) (step : Nat × GroupAction) : Prop :=
  ∃ index sourcePartition sourceAddress destinationContext durable now,
    step.2 = .onBucket index (.copy sourcePartition sourceAddress partition destinationContext
      durable now)
    ∧ sourcePartition ≠ partition

/-- A store of the partition without a payload is of a hash the partition has an entry
of. -/
def HoldsHash (partition : Partition) (store : LocalImmutableStore) (step : Nat × GroupAction) :
    Prop :=
  match step.2 with
  | .onBucket index (.storeEntry partition' address _ .absent _ _) =>
      partition' = partition → ∃ e ∈ ((store step.1).slot index).bucket.slots,
        e.partition = partition ∧ e.address.hash = address.hash
  | _ => True

/-- What an `untombstone` gives back stood at the association earlier in the run: it is the data
the obliteration's own `tombstone` replaced. -/
def RestoresReplaced (settings : ImmutableStoreSettings) (actions : List (Nat × GroupAction)) :
    Prop :=
  ∀ i g partition address original,
    actions[i]? = some (g, .untombstone partition address original) →
    ∃ n ≤ i, ∃ store index, run (storeStep settings) (.new settings) (actions.take n) = some store
      ∧ ∃ e ∈ ((store g).slot index).bucket.slots,
        e.key = sortKey partition address ∧ e.data = original

/-! ## Every entry of a group -/

/-- Every entry of the group, in memory and on disk, meets `Q`. -/
structure Everywhere (Q : ImmutableStoreEntry → Prop) (group : ImmutableStoreGroup) : Prop where
  inBucket : ∀ i, ∀ e ∈ (group.slot i).bucket.slots, Q e
  inFile : ∀ i, ∀ e ∈ (group.file i).slots, Q e

/-- The bucket an action makes of a loaded one. -/
inductive BucketChange (group : ImmutableStoreGroup) :
    GroupAction → Nat → ImmutableStoreBucket → Prop where
  | onBucket {index : Nat} {action : BucketAction} {bucket : ImmutableStoreBucket}
      (h : bucketStep (group.slot index).bucket action = some bucket) :
      BucketChange group (.onBucket index action) index bucket
  | untombstone {index : Nat} {partition : Partition} {address : Address}
      {original : ImmutableData} :
      BucketChange group (.untombstone partition address original) index
        (untombstoneEntry (group.slot index).bucket partition address original)
  | healPayload {index : Nat} {hash : Hash} {failed : ImmutableData} :
      BucketChange group (.healPayload index hash failed) index
        (Storage.healPayload (group.slot index).bucket hash failed)
  | healFragment {index : Nat} {hash : Hash} {failed : List ImmutableData} :
      BucketChange group (.healFragment hash failed) index
        (Storage.healFragment (group.slot index).bucket hash failed)

section Steps

variable {settings : ImmutableStoreSettings} {group after : ImmutableStoreGroup}
  {action : GroupAction} {partition : Partition} {Q : ImmutableStoreEntry → Prop}

theorem Everywhere.update (h : Everywhere Q group) {index : Nat} {slot : BucketSlot}
    (hb : ∀ e ∈ slot.bucket.slots, Q e) :
    Everywhere Q { group with slot := Function.update group.slot index slot } :=
  ⟨(forall_update_iff group.slot fun _ slot => ∀ e ∈ slot.bucket.slots, Q e).mpr
    ⟨hb, fun i _ => h.inBucket i⟩, h.inFile⟩

theorem Everywhere.readFile (h : Everywhere Q group)
    (hlost : ∀ e, Q e → Q (e.mapData .clearPayload)) (index : Nat) (lost : Option (List UInt32)) :
    ∀ e ∈ (group.readFile index lost).slots, Q e := by
  intro e he
  cases lost with
  | none => exact h.inFile index e he
  | some opened =>
    rw [ImmutableStoreGroup.readFile, clearLostPayloads, Indexed.slots_mapEntries] at he
    obtain ⟨d, hd, rfl⟩ := mem_map.mp he
    have hq := h.inFile index d hd
    simp only [ImmutableStoreEntry.mapData]
    split
    · exact hq
    · split
      · exact hlost d hq
      · exact hq

theorem Everywhere.step (hw : GroupWell group) (h : Everywhere Q group)
    (hlost : ∀ e, Q e → Q (e.mapData .clearPayload))
    (hbucket : ∀ index bucket, BucketChange group action index bucket → ∀ e ∈ bucket.slots, Q e)
    (hst : groupStep settings group action = some after) : Everywhere Q after := by
  cases action with
  | load index lost upgraded =>
    obtain ⟨-, rfl⟩ := guarded hst
    exact h.update (h.readFile hlost index lost)
  | onBucket index inner =>
    obtain ⟨-, hst⟩ := ite_none_right_eq_some.mp hst
    obtain ⟨bucket, hb, rfl⟩ := map_eq_some_iff.mp hst
    exact h.update (hbucket index bucket (.onBucket hb))
  | untombstone partition address original =>
    obtain ⟨-, rfl⟩ := guarded hst
    exact h.update (hbucket _ _ .untombstone)
  | healPayload index hash failed =>
    obtain ⟨-, rfl⟩ := guarded hst
    exact h.update (hbucket _ _ .healPayload)
  | healFragment hash failed =>
    obtain ⟨-, rfl⟩ := guarded hst
    exact h.update (hbucket _ _ .healFragment)
  | fanOut =>
    obtain ⟨-, hst⟩ := ite_none_right_eq_some.mp hst
    obtain ⟨target, -, rfl⟩ := map_eq_some_iff.mp hst
    refine ⟨fun i e he => ?_, h.inFile⟩
    by_cases hi : i < target
    · obtain ⟨⟨j, -, hj⟩, -⟩ := (hw.mem_fanOut hi e).2.mp he
      exact h.inBucket j e hj
    · simp only [fanOut, if_neg hi] at he
      exact h.inBucket i e he
  | flushBucket index =>
    obtain ⟨-, rfl⟩ := guarded hst
    constructor
    · intro i e he
      rw [flushBucket_bucket] at he
      exact h.inBucket i e he
    · exact (forall_update_iff group.file fun _ file => ∀ e ∈ file.slots, Q e).mpr
        ⟨h.inBucket index, fun i _ => h.inFile i⟩
  | commit =>
    obtain ⟨hl, rfl⟩ := guarded hst
    constructor
    · intro i e he
      have hb : (group.commit.slot i).bucket = (group.slot i).bucket := by
        simp only [commit]
        split <;> rfl
      rw [hb] at he
      exact h.inBucket i e he
    · intro i e he
      rcases hw.commit_file i with hf | ⟨hf, -⟩ <;> rw [hf] at he
      · exact h.inBucket i e he
      · exact h.inFile i e he
  | reload =>
    simp only [groupStep] at hst
    obtain ⟨-, rfl⟩ := guarded hst
    exact ⟨fun _ _ he => absurd he not_mem_nil, h.inFile⟩

/-- An entry after the change has the key of one before it, or one the action adds. -/
theorem BucketChange.origins {index bucket} (hw : GroupWell group)
    (hc : BucketChange group action index bucket) : ∀ e ∈ bucket.slots,
    (∃ d ∈ (group.slot index).bucket.slots, d.key = e.key) ∨ action.adds e.key := by
  cases hc with
  | onBucket hst => exact (bucketStep_evolves (hw.ordered index) (hw.pure index) hst).2.origins
  | untombstone =>
    intro e he
    unfold untombstoneEntry at he
    dsimp only at he
    split at he
    · exact .inl ⟨e, he, rfl⟩
    · rw [Indexed.slots_modifyAt (hw.ordered index).indexed] at he
      rcases mem_modify_exists he with hk | ⟨d, hd, rfl⟩
      · exact .inl ⟨e, hk, rfl⟩
      · exact .inl ⟨d, mem_of_getElem? hd, rfl⟩
  | healPayload =>
    intro e he
    rw [Storage.healPayload, Indexed.slots_ofList] at he
    exact .inl ⟨e, mem_of_mem_filter he, rfl⟩
  | healFragment =>
    intro e he
    rw [Storage.healFragment, Indexed.slots_ofList] at he
    exact .inl ⟨e, mem_of_mem_filter he, rfl⟩

/-! ## The entries of a partition -/

/-- An entry of the partition is of a hash `allowed` holds of. -/
def AllowedIn (partition : Partition) (allowed : Hash → Prop) (e : ImmutableStoreEntry) : Prop :=
  e.partition = partition → allowed e.address.hash

variable {allowed : Hash → Prop}

theorem AllowedIn.of_key {d e : ImmutableStoreEntry} (h : AllowedIn partition allowed d)
    (hkey : d.key = e.key) : AllowedIn partition allowed e := by
  obtain ⟨haddress, hsame⟩ := key_eq_iff.mp hkey
  intro hp
  rw [← haddress]
  exact h (hsame.trans hp)

theorem allowedIn_of_sortKey {partition' : Partition} {address : Address} {e : ImmutableStoreEntry}
    (hkey : e.key = sortKey partition' address)
    (h : partition' = partition → allowed address.hash) : AllowedIn partition allowed e := by
  obtain ⟨haddress, hsame⟩ := key_eq_iff.mp hkey
  intro hp
  rw [haddress]
  exact h (hsame.symm.trans hp)

theorem allowedIn_change {store : LocalImmutableStore} {g index : Nat} {bucket}
    (hw : GroupWell (store g))
    (h : ∀ e ∈ ((store g).slot index).bucket.slots, AllowedIn partition allowed e)
    (hputs : ∀ hash, PutsPayload partition hash store (g, action) → allowed hash)
    (hcopies : ¬ CopiesInto partition (g, action)) (hheld : HoldsHash partition store (g, action))
    (hc : BucketChange (store g) action index bucket) :
    ∀ e ∈ bucket.slots, AllowedIn partition allowed e := by
  intro e he
  rcases hc.origins hw e he with ⟨d, hd, hkey⟩ | hadd
  · exact (h d hd).of_key hkey
  cases hc with
  | @onBucket _ inner _ hst =>
    cases inner with
    | storeEntry partition' address fragment payload force now =>
      obtain ⟨-, hst⟩ := ite_none_right_eq_some.mp hst
      split at hst
      case h_1 outcome stored hstored =>
        by_cases hneeds : outcome = .needsPayload
        · -- the store asked for its payload and left the bucket as it was
          cases storeEntry_case (hw.ordered index) hstored with
          | needs =>
            cases hst
            exact h e he
          | _ => cases hneeds
        · refine allowedIn_of_sortKey hadd ?_
          rintro rfl
          cases payload with
          | absent =>
            obtain ⟨d, hd, hdp, hdh⟩ := hheld rfl
            rw [← hdh]
            exact h d hd hdp
          | unwritten | written at_ =>
            exact hputs _ ⟨index, address, fragment, _, force, now, outcome, stored, rfl, rfl,
              nofun, hstored, hneeds⟩
      case h_2 =>
        cases hst
        exact h e he
    | copy sourcePartition sourceAddress destinationPartition destinationContext durable now =>
      simp only [bucketStep] at hst
      split at hst
      case h_1 copied hco =>
        obtain ⟨_, d, _, hd, hdh, hdp, _, _⟩ := copyEntry_case (hw.ordered index) hco
        refine allowedIn_of_sortKey hadd ?_
        rintro rfl
        have hsame : sourcePartition = destinationPartition := by
          by_contra hne
          exact hcopies ⟨index, _, _, _, _, _, rfl, hne⟩
        have hal := h d (mem_of_getElem? hd) (hdp.trans hsame)
        rwa [hdh] at hal
      case h_2 =>
        cases hst
        exact h e he
    | tombstone | evictUpTo | evictAccessedBy | repoint | stamp => exact absurd hadd id
  | untombstone | healPayload | healFragment => exact absurd hadd id

/-! ## Where the payloads are -/

/-- The entry holds no payload, or holds one at a range written for its hash. -/
def BackedBy (written : Hash → PackStoreRef → UInt32 → Prop) (e : ImmutableStoreEntry) : Prop :=
  e.data.packFile ≠ 0 → written e.address.hash e.data.ref e.data.sizePayload

variable {written : Hash → PackStoreRef → UInt32 → Prop} {bucket changed : ImmutableStoreBucket}

theorem BackedBy.of_same {d e : ImmutableStoreEntry} (h : BackedBy written d)
    (hh : e.address.hash = d.address.hash) (hs : ImmutableData.SamePayload e.data d.data) :
    BackedBy written e := by
  intro hp
  rw [hh, ImmutableData.ref, hs.1, hs.2.1, hs.2.2]
  exact h (hs.1 ▸ hp)

theorem BackedBy.clear (e : ImmutableStoreEntry) : BackedBy written (e.mapData .clearPayload) :=
  fun hp => absurd rfl hp

/-- The payload an entry is stored with is one the store wrote, or that of the match. -/
theorem Settled.backed {fragment payload force best data hash}
    (h : Settled fragment payload force best data)
    (hbest : ∀ m, best = some m → m.packFile ≠ 0 → written hash m.ref m.sizePayload)
    (hown : ∀ at_, payload = .written at_ → written hash at_ fragment.sizePayload)
    (hp : data.packFile ≠ 0) : written hash data.ref data.sizePayload := by
  cases h with
  | bare _ hz => exact absurd hz hp
  | @inherited m hm hpm _ hsame =>
    rw [ImmutableData.ref, hsame.1, hsame.2.1, hsame.2.2]
    exact hbest m hm hpm
  | @own at_ hpay hpack hoff hsize =>
    rw [ImmutableData.ref, hpack, hoff, hsize]
    exact hown at_ hpay

theorem backed_swept {before after : List ImmutableStoreEntry} {data hash start}
    (h : ∀ e ∈ before, BackedBy written e)
    (hdata : data.packFile ≠ 0 → written hash data.ref data.sizePayload)
    (hsw : SweptInto before after data hash start) : ∀ e ∈ after, BackedBy written e := by
  intro e he
  unfold SweptInto at hsw
  split at hsw
  · rw [hsw] at he
    exact h e he
  next hp =>
    obtain ⟨i, d, hd, ⟨hswept, rfl⟩ | ⟨-, rfl⟩⟩ := hsw.cases he
    · have hh := hswept.hashAt_eq
      rw [hashAt, hd, map_some, some.injEq] at hh
      unfold deduplicateEntry
      split
      · intro _
        exact (congrArg (fun hash => written hash data.ref data.sizePayload) hh).mpr (hdata hp)
      · exact h d (mem_of_getElem? hd)
    · exact h e (mem_of_getElem? hd)

theorem storeEntry_backed (ho : Ordered bucket) (h : ∀ e ∈ bucket.slots, BackedBy written e)
    {partition address fragment payload force outcome}
    (hown : ∀ at_, payload = .written at_ → written address.hash at_ fragment.sizePayload)
    (hca : StoreEntryCase bucket partition address fragment payload force outcome changed) :
    ∀ e ∈ changed.slots, BackedBy written e := by
  cases hca with
  | needs => exact h
  | kept hsl _ _ _ ha =>
    intro e he
    rw [ha] at he
    rcases mem_modify_cases hsl he with hk | rfl
    · exact h e hk
    · exact (h _ (mem_of_getElem? hsl)).of_same rfl ⟨rfl, rfl, rfl⟩
  | @overlaid _ _ d data _ _ _ hsl hkey _ hse _ _ ha =>
    have hh : d.address.hash = address.hash := by rw [(key_eq_iff.mp hkey).1]
    have hdata : data.packFile ≠ 0 → written address.hash data.ref data.sizePayload := by
      refine hse.backed (fun m hm hp => ?_) hown
      cases hm
      rw [← hh]
      exact h d (mem_of_getElem? hsl) hp
    refine backed_swept (fun e he => ?_) hdata ha
    rcases mem_modify_cases hsl he with hk | rfl
    · exact h e hk
    · intro hp
      exact hh ▸ hdata hp
  | @added _ _ _ _ data _ _ hl _ hb hse _ ha =>
    have hdata : data.packFile ≠ 0 → written address.hash data.ref data.sizePayload := by
      refine hse.backed (fun m hm hp => ?_) hown
      obtain ⟨d, hd, hdh, rfl⟩ := bestOf_of_lookup ho hl hb _ hm
      rw [← hdh]
      exact h d hd hp
    refine backed_swept (fun e he => ?_) hdata ha
    rcases (mem_insertIdx (lookup_spec ho (by decide) hl).insertLe).mp he with rfl | hk
    · exact hdata
    · exact h e hk

theorem copyEntry_backed (ho : Ordered bucket) (h : ∀ e ∈ bucket.slots, BackedBy written e)
    {sourcePartition destinationPartition sourceAddress destinationContext durable now}
    (hco : copyEntry bucket sourcePartition sourceAddress destinationPartition
      destinationContext durable now = .ok changed) :
    ∀ e ∈ changed.slots, BackedBy written e := by
  obtain ⟨_, source, _, hso, hh, _, _, hca⟩ := copyEntry_case ho hco
  have hsource := h source (mem_of_getElem? hso)
  intro e he
  cases hca with
  | @overlaid _ _ d _ _ hsl hkey _ ha =>
    rw [ha] at he
    rcases mem_modify_cases hsl he with hk | rfl
    · exact h e hk
    · refine hsource.of_same ?_ (copiedData_same d.data source.data durable now).1
      exact (congrArg Address.hash (key_eq_iff.mp hkey).1).trans hh.symm
  | added hl _ _ ha =>
    rw [ha] at he
    rcases (mem_insertIdx (lookup_spec ho (by decide) hl).insertLe).mp he with rfl | hk
    · exact hsource.of_same hh.symm (mergeFromCopySource_same _ source.data durable)
    · exact h e hk

/-- Compaction moves a payload to a range written for the hash its old one was. -/
theorem repointEntries_backed (h : ∀ e ∈ bucket.slots, BackedBy written e)
    {packfile : UInt32} {copies : List PayloadCopy} (hpack : packfile ≠ 0)
    (hcopies : ∀ e ∈ bucket.slots, ∀ c ∈ copies,
      written e.address.hash ⟨packfile, c.offset⟩ c.size → written e.address.hash c.copy c.size) :
    ∀ e ∈ (repointEntries bucket packfile copies).slots, BackedBy written e := by
  intro e he
  rw [repointEntries, Indexed.slots_mapEntries] at he
  obtain ⟨d, hd, rfl⟩ := mem_map.mp he
  have hq := h d hd
  simp only [ImmutableStoreEntry.mapData]
  split
  · exact hq
  next hin =>
    split
    next c hc =>
      split
      next hsize =>
        -- the entry is at the range the copy was made of
        have hoff : c.offset = d.data.packOffset := by simpa using find?_some hc
        have hfile : d.data.packFile = packfile := not_not.mp hin
        have hold : written d.address.hash ⟨packfile, c.offset⟩ c.size := by
          rw [hoff, hsize, ← hfile]
          exact hq (hfile ▸ hpack)
        intro _
        have hnew := hcopies d hd c (mem_of_find?_eq_some hc) hold
        rw [hsize] at hnew
        exact hnew
      · exact hq
    · exact hq

theorem backed_change {index} (hw : GroupWell group)
    (h : ∀ e ∈ (group.slot index).bucket.slots, BackedBy written e)
    (hstores : ∀ partition address fragment at_ force now,
      action = .onBucket index (.storeEntry partition address fragment (.written at_) force now) →
      written address.hash at_ fragment.sizePayload)
    (hcopies : ∀ packfile copies, action = .onBucket index (.repoint packfile copies) →
      ∀ e ∈ (group.slot index).bucket.slots, ∀ c ∈ copies,
      written e.address.hash ⟨packfile, c.offset⟩ c.size → written e.address.hash c.copy c.size)
    (hback : ∀ partition address original, action = .untombstone partition address original →
      BackedBy written ⟨address, partition, original⟩)
    (hc : BucketChange group action index changed) : ∀ e ∈ changed.slots, BackedBy written e := by
  have ho := hw.ordered index
  cases hc with
  | @onBucket _ inner _ hst =>
    cases inner with
    | storeEntry partition address fragment payload force now =>
      obtain ⟨-, hst⟩ := ite_none_right_eq_some.mp hst
      split at hst
      case h_1 outcome stored hstored =>
        cases hst
        refine storeEntry_backed ho h (fun at_ hpay => ?_) (storeEntry_case ho hstored)
        exact hstores partition address fragment at_ force now (by rw [hpay])
      case h_2 =>
        cases hst
        exact h
    | copy sourcePartition sourceAddress destinationPartition destinationContext durable now =>
      simp only [bucketStep] at hst
      split at hst
      case h_1 copied hco =>
        cases hst
        exact copyEntry_backed ho h hco
      case h_2 =>
        cases hst
        exact h
    | tombstone partition address compactionStopped =>
      simp only [bucketStep] at hst
      split at hst
      case h_1 result entombed ht =>
        cases hst
        obtain ⟨slot, d, hsl, -, hca, -⟩ := tombstoneEntry_case ho ht
        cases hca with
        | already | waits => exact h
        | entombed _ _ _ ha =>
          intro e he
          rw [ha] at he
          rcases mem_modify_cases hsl he with hk | rfl
          · exact h e hk
          · exact fun hp => absurd rfl hp
      case h_2 =>
        cases hst
        exact h
    | evictUpTo cutoff protect =>
      cases hst
      intro e he
      rw [slots_evictUpTo] at he
      exact h e (mem_of_mem_filter he)
    | evictAccessedBy cutoff protect =>
      cases hst
      intro e he
      rw [slots_evictAccessedBy] at he
      obtain ⟨d, hd, rfl⟩ := mem_map.mp he
      split
      · exact .clear d
      · exact h d hd
    | repoint packfile copies =>
      obtain ⟨hp, rfl⟩ := guarded hst
      exact repointEntries_backed h hp (hcopies packfile copies rfl)
    | stamp slot now =>
      cases hst
      intro e he
      rw [stampEntry, Indexed.slots_modifyAt ho.indexed] at he
      rcases mem_modify_exists he with hk | ⟨d, hd, rfl⟩
      · exact h e hk
      · have hq := h d (mem_of_getElem? hd)
        simp only [ImmutableStoreEntry.mapData]
        split
        · exact hq
        · exact hq
  | @untombstone _ partition address original =>
    intro e he
    unfold untombstoneEntry at he
    rcases hl : lookup (group.slot index).bucket partition address .matchFull with
      ⟨slot, start, made⟩
    rw [hl] at he
    dsimp only at he
    split at he
    · exact h e he
    next hfull =>
      rw [not_not.mp hfull] at hl
      obtain ⟨d, hsl, hkey⟩ := lookup_full ho hl
      have haddress := (key_eq_iff.mp hkey).1
      rw [Indexed.slots_modifyAt ho.indexed] at he
      rcases mem_modify_cases hsl he with hk | rfl
      · exact h e hk
      · simp only [ImmutableStoreEntry.mapData]
        split
        · have hq := hback partition address original rfl
          intro hp
          exact (congrArg (fun a : Address => written a.hash _ _) haddress).mpr (hq hp)
        · exact h d (mem_of_getElem? hsl)
  | healPayload =>
    intro e he
    rw [Storage.healPayload, Indexed.slots_ofList] at he
    exact h e (mem_of_mem_filter he)
  | healFragment =>
    intro e he
    rw [Storage.healFragment, Indexed.slots_ofList] at he
    exact h e (mem_of_mem_filter he)

end Steps

/-! ## The store -/

/-- The store is in order, and every entry is in the group of its hash, of a hash its partition put
a payload of if the partition is the one given, and at a range written for its hash. -/
structure Isolated (settings : ImmutableStoreSettings) (actions : List (Nat × GroupAction))
    (partition : Partition) (store : LocalImmutableStore) : Prop where
  well : StoreWell store
  grouped : ∀ g, Everywhere (fun e => groupIndex e.address.hash = g) (store g)
  allowed : ∀ g, Everywhere
    (AllowedIn partition fun hash => ∃ step, PutAt settings actions partition hash step) (store g)
  backed : ∀ g, Everywhere (BackedBy (WrittenFor actions)) (store g)

section Store

variable {settings : ImmutableStoreSettings} {actions : List (Nat × GroupAction)}
  {partition : Partition} {store after : LocalImmutableStore}

theorem Isolated.new : Isolated settings actions partition (.new settings) where
  well := .new settings
  grouped _ := ⟨fun _ _ he => absurd he not_mem_nil, fun _ _ he => absurd he not_mem_nil⟩
  allowed _ := ⟨fun _ _ he => absurd he not_mem_nil, fun _ _ he => absurd he not_mem_nil⟩
  backed _ := ⟨fun _ _ he => absurd he not_mem_nil, fun _ _ he => absurd he not_mem_nil⟩

theorem everywhere_update {Q : Nat → ImmutableStoreEntry → Prop} {index group}
    (h : ∀ g, Everywhere (Q g) (store g)) (hnew : Everywhere (Q index) group) :
    ∀ g, Everywhere (Q g) (update store index group g) :=
  (forall_update_iff store fun g group => Everywhere (Q g) group).mpr ⟨hnew, fun g _ => h g⟩

theorem Isolated.step {before g action rest} (h : Isolated settings actions partition store)
    (hsplit : actions = before ++ (g, action) :: rest)
    (hbefore : run (storeStep settings) (.new settings) before = some store)
    (hcopies : ¬ CopiesInto partition (g, action)) (hheld : HoldsHash partition store (g, action))
    (hback : ∀ partition address original, action = .untombstone partition address original →
      BackedBy (WrittenFor actions) ⟨address, partition, original⟩)
    (hst : storeStep settings store (g, action) = some after) :
    Isolated settings actions partition after := by
  obtain ⟨group, hgr, rfl, hnamed⟩ := storeStep_case hst
  have hw := h.well.well g
  have hmem : (g, action) ∈ actions := by
    rw [hsplit]
    simp
  refine ⟨h.well.step hst, everywhere_update h.grouped ?_,
    everywhere_update (Q := fun _ => _) h.allowed ?_,
    everywhere_update (Q := fun _ => _) h.backed ?_⟩
  · refine (h.grouped g).step hw (fun _ he => he) (fun index bucket hc e he => ?_) hgr
    rcases hc.origins hw e he with ⟨d, hd, hkey⟩ | hadd
    · rw [← (key_eq_iff.mp hkey).1]
      exact (h.grouped g).inBucket index d hd
    · exact hnamed _ (GroupAction.adds_hash hadd)
  · refine (h.allowed g).step hw (fun _ he => he) (fun index bucket hc => ?_) hgr
    refine allowedIn_change hw ((h.allowed g).inBucket index) (fun hash hput => ?_) hcopies hheld hc
    exact ⟨_, before, rest, store, hsplit, hbefore, hput⟩
  · refine (h.backed g).step hw (fun e _ => .clear e) (fun index bucket hc => ?_) hgr
    refine backed_change hw ((h.backed g).inBucket index) ?_ ?_ hback hc
    · rintro p address fragment at_ force now rfl
      have hg := hnamed address.hash rfl
      subst hg
      exact .stored hmem rfl
    · rintro packfile copies rfl e he c hcopy hold
      have hg := (h.grouped g).inBucket index e he
      subst hg
      exact .copied hmem hcopy hold

theorem isolated_of_run (hcopies : ∀ step ∈ actions, ¬ CopiesInto partition step)
    (hheld : StepsMeet (storeStep settings) (HoldsHash partition) (.new settings) actions)
    (hrestores : RestoresReplaced settings actions)
    (hrun : run (storeStep settings) (.new settings) actions = some store) :
    Isolated settings actions partition store := by
  refine run_strong (storeStep settings) (Isolated settings actions partition) ?_ .new hrun
  rintro before ⟨g, action⟩ rest s t hsplit hbefore hall hst
  have hheld' : HoldsHash partition s (g, action) := by
    rw [hsplit] at hheld
    exact hheld.at _ hbefore
  refine (hall before s prefix_rfl hbefore).step hsplit hbefore ?_ hheld' ?_ hst
  · exact hcopies _ (by rw [hsplit]; simp)
  · -- the data given back stood at the association in an earlier state
    rintro p address original rfl
    obtain ⟨n, hn, mid, index, hmid, e, he, hkey, rfl⟩ :=
      hrestores before.length g p address original (by simp [hsplit])
    rw [hsplit, take_append_of_le_length hn] at hmid
    have hq := ((hall _ mid ( take_prefix n before) hmid).backed g).inBucket index e he
    exact hq.of_same (by rw [(key_eq_iff.mp hkey).1]) ⟨rfl, rfl, rfl⟩

end Store


/-! ## Reads -/

/-- A store that isolates partitions serves an association through its own entry. -/
theorem entry_of_payloadServed {settings} (hi : settings.isolatePartitions = true)
    {packfiles bucket} (h : Ordered bucket) {partition address payload}
    (hse : payloadServed settings packfiles bucket partition address = some payload) :
    ∃ e ∈ bucket.slots, e.key = sortKey partition address := by
  have hsc : settings.readScope = .matchFull := by
    rw [ImmutableStoreSettings.readScope, if_pos hi]
  have hf : (find bucket partition address).matching = .matchFull := by
    by_contra hne
    have hlt : (find bucket partition address).matching < .matchFull := by
      revert hne
      cases (find bucket partition address).matching <;> decide
    simp only [payloadServed, get, hsc, hlt, or_true] at hse
    cases hse
  rcases hl : lookup bucket partition address .matchFull with ⟨slot, start, made⟩
  have hm : made = .matchFull := by
    simp only [find, hl] at hf
    split at hf
    · cases hf
    · exact hf
  rw [hm] at hl
  obtain ⟨e, he, hkey⟩ := lookup_full h hl
  exact ⟨e, mem_of_getElem? he, hkey⟩

theorem servedOf_holdsAt {settings packfiles hash data payload}
    (h : servedOf settings packfiles hash data = some payload) :
    data.packFile ≠ 0 ∧ HoldsAt packfiles data.ref data.sizePayload payload := by
  unfold servedOf at h
  split_ifs at h
  split at h
  next served hload =>
    cases h
    unfold loadFound at hload
    dsimp only at hload
    split_ifs at hload with hpack
    refine ⟨hpack, ?_⟩
    split at hload
    · cases hload
    split at hload
    · cases hload
    next read hread =>
      split at hload
      · cases hload
      cases hload
      simp only [loadPayload] at hread
      split_ifs at hread with hsize
      · cases hread
        exact .inl ⟨UInt32.toNat_inj.mp hsize, rfl⟩
      split at hread
      · cases hread
      next buffer hbuffer =>
        split_ifs at hread with hbound
        cases hread
        exact .inr ⟨buffer, hbuffer, Nat.le_of_not_lt hbound, rfl⟩
  · cases h

/-- In a store that isolates partitions, a partition that stores without a payload only
hashes it holds, and copies from no other, is served a payload only from a range that was written
for its hash, and only of a hash it put a payload of. The put is among its own operations, which
another run may have in common while the other partitions do anything else. -/
theorem partition_served_own_puts {settings : ImmutableStoreSettings}
    (hisolates : settings.isolatePartitions = true) {partition : Partition}
    {actions actions' : List (Nat × GroupAction)} {store : LocalImmutableStore}
    (hrun : run (storeStep settings) (.new settings) actions = some store)
    (hsame : actions.filter (fun step => step.2.names partition)
      = actions'.filter fun step => step.2.names partition)
    (hcopies : ∀ step ∈ actions, ¬ CopiesInto partition step)
    (hheld : StepsMeet (storeStep settings) (HoldsHash partition) (.new settings) actions)
    (hrestores : RestoresReplaced settings actions)
    {address : Address} {bucket : ImmutableStoreBucket}
    (hreads : ReadsFrom store address.hash bucket) {packfiles : Packfiles} {payload : Bytes}
    (hserved : payloadServed settings packfiles bucket partition address = some payload) :
    (∃ at_ size, WrittenFor actions address.hash at_ size ∧ HoldsAt packfiles at_ size payload)
    ∧ ∃ step ∈ actions', PutAt settings actions partition address.hash step := by
  have h := isolated_of_run hcopies hheld hrestores hrun
  have hg := h.well.well (groupIndex address.hash)
  -- the entry the payload is served from
  obtain ⟨e, hkey, hse, hallowed, hbacked⟩ : ∃ e : ImmutableStoreEntry,
      e.key = sortKey partition address
      ∧ servedOf settings packfiles address.hash e.data = some payload
      ∧ AllowedIn partition (fun hash => ∃ step, PutAt settings actions partition hash step) e
      ∧ BackedBy (WrittenFor actions) e := by
    cases hreads with
    | loaded hl =>
      obtain ⟨e, he, hkey⟩ := entry_of_payloadServed hisolates (hg.ordered _) hserved
      rw [payloadServed_of_mem (hg.ordered _) settings packfiles he hkey] at hserved
      exact ⟨e, hkey, hserved, (h.allowed _).inBucket _ e he, (h.backed _).inBucket _ e he⟩
    | file lost hu =>
      have ho := (hg.readFile_evolves (bucketIndexFor address.hash
        (store (groupIndex address.hash)).bucketCount) lost (fun _ => False) fun _ => False).1
      obtain ⟨e, he, hkey⟩ := entry_of_payloadServed hisolates ho hserved
      rw [payloadServed_of_mem ho settings packfiles he hkey] at hserved
      exact ⟨e, hkey, hserved, (h.allowed _).readFile (fun _ he => he) _ lost e he,
        (h.backed _).readFile (fun e _ => .clear e) _ lost e he⟩
  obtain ⟨haddress, hp⟩ := key_eq_iff.mp hkey
  obtain ⟨hpack, hholds⟩ := servedOf_holdsAt hse
  constructor
  · have hw := hbacked hpack
    rw [haddress] at hw
    exact ⟨_, _, hw, hholds⟩
  · have hput := hallowed hp
    rw [haddress] at hput
    obtain ⟨step, hput⟩ := hput
    refine ⟨step, ?_, hput⟩
    -- an own put of the run is one of the other run
    obtain ⟨before, rest, s, hsplit, -, _, _, _, _, _, _, _, _, hac, -⟩ := hput
    have hn : step.2.names partition = true := by
      rw [hac]
      simp [GroupAction.names, BucketAction.names]
    have hf : step ∈ actions'.filter fun step => step.2.names partition := by
      rw [← hsame]
      refine mem_filter.mpr ⟨?_, hn⟩
      rw [hsplit]
      simp
    exact mem_of_mem_filter hf

/-- The settings of a server: partitions are isolated. -/
def isolating : ImmutableStoreSettings := ⟨false, true, true, true, 1, 1000, one_mem_levelLadder⟩

/-- A put of partition 1 that carries a payload. -/
def payloadOfOne : List (Nat × GroupAction) :=
  [(0, .onBucket 0 (.storeEntry 1#128 ⟨1#256, 1#128⟩ ⟨0#32, 4, 4⟩ .unwritten false 1)),
    (0, .onBucket 0 (.storeEntry 1#128 ⟨1#256, 1#128⟩ ⟨0#32, 4, 4⟩ (.written ⟨1, 0⟩) false 1))]

/-- A put of partition 2 that carries none. -/
def bareOfTwo : List (Nat × GroupAction) :=
  [(0, .onBucket 0 (.storeEntry 2#128 ⟨1#256, 2#128⟩ ⟨0#32, 4, 4⟩ .absent false 1))]

/-- The data of the entry that put leaves. -/
def storedByOne : ImmutableData := ⟨payloadStoredLocal, 4, 4, 0, 1, 1⟩

/-- A run in which an obliteration of partition 1 is undone, the partition stores its hash under a
second context without a payload, and a compaction moves the payload to packfile 2. -/
def ownBarePut : List (Nat × GroupAction) :=
  [(0, .load 0 none false)] ++ payloadOfOne
    ++ [(0, .onBucket 0 (.tombstone 1#128 ⟨1#256, 1#128⟩ true)),
      (0, .untombstone 1#128 ⟨1#256, 1#128⟩ storedByOne),
      (0, .onBucket 0 (.storeEntry 1#128 ⟨1#256, 3#128⟩ ⟨0#32, 4, 4⟩ .absent false 1)),
      (0, .onBucket 0 (.repoint 1 [⟨0, 4, ⟨2, 0⟩⟩]))]

/-- The operations of partition 1, after another partition's. -/
def othersFirst : List (Nat × GroupAction) :=
  [(0, .load 0 none false)] ++ bareOfTwo ++ ownBarePut.filter fun step => step.2.names 1#128

theorem partition_served_own_puts_context :
    ∃ store bucket, run (storeStep isolating) (.new isolating) ownBarePut = some store
      ∧ ReadsFrom store 1#256 bucket
      ∧ payloadServed isolating (fourBytes 2) bucket 1#128 ⟨1#256, 3#128⟩ = some [1, 2, 3, 4]
      ∧ (∃ at_ size, WrittenFor ownBarePut 1#256 at_ size
        ∧ HoldsAt (fourBytes 2) at_ size [1, 2, 3, 4])
      ∧ ∃ step ∈ othersFirst, PutAt isolating ownBarePut 1#128 1#256 step := by
  obtain ⟨store, bucket, hrun, hr, hse⟩ : ∃ store bucket,
      run (storeStep isolating) (.new isolating) ownBarePut = some store
      ∧ ReadsFrom store 1#256 bucket
      ∧ payloadServed isolating (fourBytes 2) bucket 1#128 ⟨1#256, 3#128⟩
        = some [1, 2, 3, 4] := ⟨_, _, rfl, .loaded rfl, by decide⟩
  have hc : ∀ step ∈ ownBarePut, ¬ CopiesInto 1#128 step := by
    rintro step hst ⟨index, _, _, _, _, _, ha, _⟩
    simp only [ownBarePut, payloadOfOne, cons_append, nil_append, mem_cons,
      not_mem_nil, or_false] at hst
    rcases hst with rfl | rfl | rfl | rfl | rfl | rfl | rfl <;> cases ha
  have hh : StepsMeet (storeStep isolating) (HoldsHash 1#128) (.new isolating) ownBarePut := by
    refine ⟨trivial, fun s hs => ⟨trivial, fun t ht => ⟨trivial, fun u hu => ⟨trivial,
      fun v hv => ⟨trivial, fun w hw => ⟨?_, fun _ _ => ⟨trivial, fun _ _ => trivial⟩⟩⟩⟩⟩⟩⟩
    have hall : run (storeStep isolating) (.new isolating) (ownBarePut.take 5) = some w := by
      simp only [ownBarePut, payloadOfOne, cons_append, nil_append, take, run, hs, ht, hu, hv, hw,
        Option.bind_some]
    cases hall
    intro _
    decide
  have hback : RestoresReplaced isolating ownBarePut := by
    intro i g partition address original hi
    -- the fifth step alone is an `untombstone`
    rcases i with _ | _ | _ | _ | _ | _ | _ | i <;> cases hi
    exact ⟨3, by omega, _, 0, rfl, ⟨⟨1#256, 1#128⟩, 1#128, storedByOne⟩, by decide, rfl, rfl⟩
  have hsa : ownBarePut.filter (fun step => step.2.names 1#128)
    = othersFirst.filter fun step => step.2.names 1#128 := by rfl
  exact ⟨store, bucket, hrun, hr, hse,
    partition_served_own_puts rfl hrun hsa hc hh hback hr hse⟩

/-- In either order of the two puts, partition 2 is served the payload only partition 1
brought. -/
theorem bare_put_serves_other_partition :
    (∃ store bucket, run (storeStep isolating) (.new isolating)
        ((0, .load 0 none false) :: payloadOfOne ++ bareOfTwo) = some store
      ∧ ReadsFrom store 1#256 bucket
      ∧ payloadServed isolating (fourBytes 1) bucket 2#128 ⟨1#256, 2#128⟩
        = some [1, 2, 3, 4])
    ∧ (∃ store bucket, run (storeStep isolating) (.new isolating)
        ((0, .load 0 none false) :: bareOfTwo ++ payloadOfOne) = some store
      ∧ ReadsFrom store 1#256 bucket
      ∧ payloadServed isolating (fourBytes 1) bucket 2#128 ⟨1#256, 2#128⟩
        = some [1, 2, 3, 4])
    ∧ ∀ step ∈ (0, .load 0 none false) :: payloadOfOne ++ bareOfTwo, ∀ store,
      ¬ PutsPayload 2#128 1#256 store step := by
  refine ⟨⟨_, _, rfl, .loaded rfl, by decide⟩, ⟨_, _, rfl, .loaded rfl, by decide⟩, ?_⟩
  rintro step hst store ⟨index, address, fragment, payload, force, now, _, _, ha, _, hc, -⟩
  simp only [payloadOfOne, bareOfTwo, cons_append, nil_append, mem_cons,
    not_mem_nil, or_false] at hst
  rcases hst with rfl | rfl | rfl | rfl
  · cases ha
  · cases ha
  · cases ha
  · cases ha
    exact hc rfl

end Lore.Storage
