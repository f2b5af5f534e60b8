import Lore.Storage.BucketSpec

/-!
# StoreEntrySpec — the outcomes of `storeEntry`

`storeEntry_case` says everything a store can do to a bucket: nothing, a change of the
stored flags, a payload written over the association's entry, or a new entry. Where the
entry's payload comes from is `Settled`.
-/

namespace Lore.Storage

open Lore.Lib FragmentFlags Option

/-! ## Flags -/

theorem and_of_masked {m o f g} (hm : m &&& o = 0#32) :
    ((f &&& ~~~m) ||| (g &&& m)) &&& o = f &&& o := by
  apply BitVec.eq_of_getElem_eq
  intro i hi
  have hbit : (m &&& o)[i] = (0#32)[i] := by rw [hm]
  simp only [BitVec.getElem_and, BitVec.getElem_or, BitVec.getElem_not]
    at hbit ⊢
  revert hbit
  cases m[i] <;> cases o[i] <;> simp

theorem storedFlags_and_stored (flags : BitVec 32) (packFile : UInt32) :
    ImmutableData.storedFlags flags packFile &&& payloadStored
      = ImmutableData.storedFlags flags packFile := by
  unfold ImmutableData.storedFlags
  apply BitVec.eq_of_getElem_eq
  intro i hi
  by_cases hp : packFile ≠ 0
  · have hl : (payloadStoredLocal &&& payloadStored)[i]
        = payloadStoredLocal[i] := by
      rw [show payloadStoredLocal &&& payloadStored = payloadStoredLocal from by decide]
    rw [if_pos hp]
    simp only [BitVec.getElem_and, BitVec.getElem_or] at hl ⊢
    revert hl
    cases payloadStored[i] <;> cases payloadStoredLocal[i] <;> simp
  · rw [if_neg hp]
    simp only [BitVec.getElem_and, BitVec.getElem_or]
    cases payloadStored[i] <;> simp

theorem withStored_and {o} (ho : payloadStored &&& o = 0#32)
    (flags stored : BitVec 32) (packFile : UInt32) :
    ((flags &&& ~~~payloadStored)
      ||| ImmutableData.storedFlags stored packFile) &&& o = flags &&& o := by
  rw [← storedFlags_and_stored]
  exact and_of_masked ho

/-- Whether flags say that a payload was obliterated. -/
def flagsObliterated (flags : BitVec 32) : Bool :=
  flags &&& FragmentFlags.payloadObliterated != 0#32

theorem flagsObliterated_withStored (flags stored : BitVec 32) (packFile : UInt32) :
    flagsObliterated ((flags &&& ~~~payloadStored)
      ||| ImmutableData.storedFlags stored packFile) = flagsObliterated flags := by
  rw [flagsObliterated, flagsObliterated, withStored_and (by decide)]

theorem isObliterated_assignDeduplicatedPayload (data deduplicated : ImmutableData) :
    (data.assignDeduplicatedPayload deduplicated).isObliterated = deduplicated.isObliterated :=
  flagsObliterated_withStored _ _ _

/-! ## Where the payload of an entry comes from -/

/-- The data an entry is stored with, by the payload it takes: none, that of the best
match, or the one the store wrote. -/
inductive Settled (fragment : Fragment) (payload : StorePayload) (force : Bool)
    (best : Option ImmutableData) (data : ImmutableData) : Prop where
  | bare (hpayload : payload = .absent) (hpack : data.packFile = 0)
      (hbest : ∀ m, best = some m → m.packFile = 0)
      (hflags : data.isObliterated = flagsObliterated fragment.flags)
  | inherited {m : ImmutableData} (hbest : best = some m) (hpack : m.packFile ≠ 0)
      (hforce : force = false ∨ payload = .absent) (hsame : ImmutableData.SamePayload data m)
      (hflags : data.isObliterated = m.isObliterated)
  | own {at_ : PackStoreRef} (hpayload : payload = .written at_) (hpack : data.packFile = at_.id)
      (hoffset : data.packOffset = at_.offset) (hsize : data.sizePayload = fragment.sizePayload)
      (hbest : force = true ∨ ∀ m, best = some m → m.packFile = 0)
      (hflags : data.isObliterated = flagsObliterated fragment.flags)

variable {payload : StorePayload} {matchedPartition : Bool} {p q : Placement}

theorem Settled.isLive {fragment force best data} (hfr : flagsObliterated fragment.flags = false)
    (hl : ∀ m, best = some m → m.packFile ≠ 0 → m.isObliterated = false)
    (hse : Settled fragment payload force best data) : data.isObliterated = false := by
  cases hse with
  | bare _ _ _ hf | own _ _ _ _ _ hf => rw [hf, hfr]
  | inherited hm hp _ _ hf => rw [hf, hl _ hm hp]

theorem carried_eq_false : payload.carried = false ↔ payload = .absent := by
  cases payload <;> simp [StorePayload.carried]

theorem locate_own (hp : p.packFile = 0) (h : locate matchedPartition payload p = some q) :
    payload = .absent ∧ q = p
    ∨ ∃ at_, payload = .written at_
      ∧ q = { p with packFile := at_.id, packOffset := at_.offset } := by
  cases payload with
  | absent =>
    simp only [locate] at h
    split at h <;> simp_all
  | unwritten => simp [locate, StorePayload.carried, hp] at h
  | written at_ =>
    right
    refine ⟨at_, rfl, ?_⟩
    simp [locate, StorePayload.carried, hp] at h
    exact h.symm

theorem locate_inherited (hp : p.packFile ≠ 0) (h : locate matchedPartition payload p = some q) :
    q = p := by
  unfold locate at h
  split at h
  · split at h <;> exact (some.inj h).symm
  · exact (some.inj h).symm

theorem locate_none (h : locate matchedPartition payload p = none) : payload = .unwritten := by
  cases payload with
  | unwritten => rfl
  | absent =>
    unfold locate at h
    split at h <;> cases h
  | written at_ =>
    unfold locate at h
    split at h
    · split at h
      · split at h <;> cases h
      · cases h
    · cases h

theorem isObliterated_data (p : Placement) (sizeContent now : UInt64) :
    (p.data sizeContent now).isObliterated = flagsObliterated p.flags :=
  flagsObliterated_withStored _ _ _

theorem settled_of_locate_plain {fragment force sizeContent now}
    (h : locate matchedPartition payload ⟨fragment.flags, fragment.sizePayload, 0, 0⟩ = some q) :
    Settled fragment payload force none (q.data sizeContent now) := by
  rcases locate_own rfl h with ⟨ha, rfl⟩ | ⟨at_, hw, rfl⟩
  · exact .bare ha rfl (fun m hm => nomatch hm) (isObliterated_data _ _ _)
  · exact .own hw rfl rfl rfl (.inr fun m hm => nomatch hm) (isObliterated_data _ _ _)

theorem settled_of_locate_inherit {fragment payload force m matchedPartition q sizeContent now}
    (h : locate matchedPartition payload (inherit fragment force payload.carried m) = some q) :
    Settled fragment payload force (some m) (q.data sizeContent now) := by
  by_cases hr : (!force || !payload.carried) = true
  · rw [inherit, if_pos hr] at h
    by_cases hp : m.packFile = 0
    · rw [if_neg (not_not.mpr hp)] at h
      have hbe : ∀ d, some m = some d → d.packFile = 0 := fun d hd => some.inj hd ▸ hp
      rcases locate_own hp h with ⟨ha, rfl⟩ | ⟨at_, hw, rfl⟩
      · exact .bare ha hp hbe (isObliterated_data _ _ _)
      · exact .own hw rfl rfl rfl (.inr hbe) (isObliterated_data _ _ _)
    · rw [if_pos hp] at h
      have hq := locate_inherited hp h
      have hf : force = false ∨ payload = .absent := by
        rw [← carried_eq_false]
        simpa using hr
      refine .inherited rfl hp hf ?_ ?_
      · rw [hq]
        exact ⟨rfl, rfl, rfl⟩
      · rw [isObliterated_data, hq, flagsObliterated, and_of_masked (by decide)]
        rfl
  · rw [inherit, if_neg hr] at h
    have hb : force = true ∧ payload.carried = true := by simpa using hr
    rcases locate_own rfl h with ⟨ha, rfl⟩ | ⟨at_, hw, rfl⟩
    · rw [ha] at hb
      exact absurd hb.2 (by decide)
    · exact .own hw rfl rfl rfl (.inl hb.1) (isObliterated_data _ _ _)

/-! ## The outcomes -/

/-- The stored flags of an entry replaced. -/
def withStored (stored : BitVec 32) (e : ImmutableStoreEntry) : ImmutableStoreEntry :=
  e.mapData fun data =>
    { data with flags := (data.flags &&& ~~~FragmentFlags.payloadStored) ||| stored }

/-- The data of an entry replaced. -/
def withData (data : ImmutableData) (e : ImmutableStoreEntry) : ImmutableStoreEntry :=
  e.mapData fun _ => data

/-- The entries a store leaves: those it wrote, swept over where it holds a payload. -/
def SweptInto (written after : List ImmutableStoreEntry) (data : ImmutableData) (hash : Hash)
    (start : Nat) : Prop :=
  if data.packFile = 0 then after = written
  else ChangedAt written after (deduplicateEntry data) (Swept written hash start)

/-- Everything `storeEntry` can do to a bucket. -/
inductive StoreEntryCase (bucket : ImmutableStoreBucket) (partition : Partition)
    (address : Address) (fragment : Fragment) (payload : StorePayload) (force : Bool) :
    StoreOutcome → ImmutableStoreBucket → Prop where
  | needs (hpayload : payload = .unwritten) :
      StoreEntryCase bucket partition address fragment payload force .needsPayload bucket
  | kept {slot : Nat} {e : ImmutableStoreEntry} {changed : Option (BitVec 32)}
      {flags : BitVec 32} {after : ImmutableStoreBucket}
      (hslot : bucket.slots[slot]? = some e) (hkey : e.key = sortKey partition address)
      (hlive : payload = .absent ∧ e.data.isObliterated = false ∨ e.data.packFile ≠ 0)
      (hordered : Ordered after)
      (hafter : after.slots = bucket.slots.modify slot
        (withStored (ImmutableData.storedFlags flags e.data.packFile))) :
      StoreEntryCase bucket partition address fragment payload force (.kept changed) after
  | overlaid {slot start : Nat} {e : ImmutableStoreEntry} {data : ImmutableData}
      {flags : BitVec 32} {after : ImmutableStoreBucket}
      (hlookup : lookup bucket partition address .matchFull = (slot, start, .matchFull))
      (hslot : bucket.slots[slot]? = some e) (hkey : e.key = sortKey partition address)
      (hcarried : payload ≠ .absent)
      (hsettled : Settled fragment payload force (some e.data) data)
      (hfresh : force = true ∨ e.data.packFile = 0) (hordered : Ordered after)
      (hafter : if data.packFile = 0 then after.slots = bucket.slots.modify slot (withData data)
        else ChangedAt (bucket.slots.modify slot (withData data)) after.slots
          (deduplicateEntry data)
          (Swept (bucket.slots.modify slot (withData data)) address.hash start)) :
      StoreEntryCase bucket partition address fragment payload force
        (.stored flags data.packFile) after
  | added {slot start : Nat} {made : StoreMatch} {best : Option ImmutableData}
      {data : ImmutableData} {flags : BitVec 32} {after : ImmutableStoreBucket}
      (hlookup : lookup bucket partition address .matchFull = (slot, start, made))
      (hmade : made ≠ .matchFull)
      (hbest : best = if made = .matchNone then none else (bucket.slots[slot]?).map (·.data))
      (hsettled : Settled fragment payload force best data) (hordered : Ordered after)
      (hafter : if data.packFile = 0 then
          after.slots = bucket.slots.insertIdx start ⟨address, partition, data⟩
        else ChangedAt (bucket.slots.insertIdx start ⟨address, partition, data⟩) after.slots
          (deduplicateEntry data)
          (Swept (bucket.slots.insertIdx start ⟨address, partition, data⟩) address.hash start)) :
      StoreEntryCase bucket partition address fragment payload force
        (.stored flags data.packFile) after

theorem withData_key (data : ImmutableData) (e : ImmutableStoreEntry) :
    (withData data e).key = e.key := rfl

theorem withStored_key (stored : BitVec 32) (e : ImmutableStoreEntry) :
    (withStored stored e).key = e.key := rfl

section Cases

variable {bucket : ImmutableStoreBucket} {partition : Partition} {address : Address}
  {fragment : Fragment} {payload : StorePayload} {force : Bool} {now : UInt64}
  {slot start : Nat} {made : StoreMatch}

theorem lookup_full (h : Ordered bucket)
    (hl : lookup bucket partition address .matchFull = (slot, start, .matchFull)) :
    ∃ e, bucket.slots[slot]? = some e ∧ e.key = sortKey partition address := by
  obtain ⟨e, he, hf⟩ := (lookup_spec h (by decide) hl).matched (by decide)
  refine ⟨e, he, matchOf_eq_full.mp ?_⟩
  revert hf
  cases matchOf partition address e <;> decide

variable {outcome : StoreOutcome} {after : ImmutableStoreBucket}

theorem storeAt_cases {p}
    (hst : storeAt bucket partition address fragment payload now (slot, start, made) p
      = (outcome, after))
    (ho : ∀ data, Ordered (writeEntry bucket partition address slot start made data)) :
    (payload = .unwritten ∧ outcome = .needsPayload ∧ after = bucket) ∨
      ∃ matched q data, locate matched payload p = some q ∧
        q.data fragment.sizeContent now = data ∧ outcome = .stored q.flags data.packFile ∧
        Ordered after ∧ SweptInto (writeEntry bucket partition address slot start made data).slots
          after.slots data address.hash start := by
  unfold storeAt at hst
  dsimp only at hst
  split at hst
  case h_1 hl =>
    cases hst
    exact .inl ⟨locate_none hl, rfl, rfl⟩
  case h_2 q hl =>
    cases hst
    refine .inr ⟨_, q, _, hl, rfl, rfl, ?_⟩
    unfold SweptInto
    by_cases hp : (q.data fragment.sizeContent now).packFile = 0
    · rw [if_pos hp, if_neg (not_not.mpr hp)]
      exact ⟨ho _, rfl⟩
    · rw [if_neg hp, if_pos hp]
      exact sweep_spec (ho _) start

theorem storeAt_over (h : Ordered bucket)
    (hlo : lookup bucket partition address .matchFull = (slot, start, .matchFull)) {e}
    (hsl : bucket.slots[slot]? = some e) (hkey : e.key = sortKey partition address)
    (hc : payload ≠ .absent) (hf : force = true ∨ e.data.packFile = 0)
    (hst : storeAt bucket partition address fragment payload now (slot, start, .matchFull)
      (inherit fragment force payload.carried e.data) = (outcome, after)) :
    StoreEntryCase bucket partition address fragment payload force outcome after := by
  rcases storeAt_cases hst (fun data => h.modifyAt slot (withData_key data)) with
    ⟨hp, rfl, rfl⟩ | ⟨_, q, _, hl, rfl, rfl, ho, hsw⟩
  · exact .needs hp
  · rw [writeEntry, if_pos rfl, Indexed.slots_modifyAt h.indexed] at hsw
    exact .overlaid hlo hsl hkey hc (settled_of_locate_inherit hl) hf ho hsw

theorem storeAt_added (h : Ordered bucket)
    (hlo : lookup bucket partition address .matchFull = (slot, start, made))
    (hm : made ≠ .matchFull) {best p}
    (hb : best = if made = .matchNone then none else (bucket.slots[slot]?).map (·.data))
    (hp : ∀ matchedPartition q, locate matchedPartition payload p = some q →
      Settled fragment payload force best (q.data fragment.sizeContent now))
    (hst : storeAt bucket partition address fragment payload now (slot, start, made) p
      = (outcome, after)) :
    StoreEntryCase bucket partition address fragment payload force outcome after := by
  have hw : ∀ data, writeEntry bucket partition address slot start made data
      = bucket.insertAt start ⟨address, partition, data⟩ := fun _ => if_neg hm
  rcases storeAt_cases hst (fun data => hw data ▸ (h.insertAt hlo (lt_matchFull hm) data).1) with
    ⟨hp, rfl, rfl⟩ | ⟨_, q, _, hl, rfl, rfl, ho, hsw⟩
  · exact .needs hp
  · rw [hw, (h.insertAt hlo (lt_matchFull hm) _).2] at hsw
    exact .added hlo hm hb (hp _ q hl) ho hsw

theorem split_mask (f m : BitVec 32) : (f &&& ~~~m) ||| (f &&& m) = f := by
  apply BitVec.eq_of_getElem_eq
  intro i hi
  simp only [BitVec.getElem_and, BitVec.getElem_or, BitVec.getElem_not]
  cases m[i] <;> simp

theorem modify_of_fixed {slots : List ImmutableStoreEntry} {e : ImmutableStoreEntry}
    {f : ImmutableStoreEntry → ImmutableStoreEntry} (hsl : slots[slot]? = some e)
    (hf : f e = e) : slots.modify slot f = slots := by
  ext i : 1
  rw [List.getElem?_modify]
  by_cases hi : slot = i
  · rw [← hi, hsl]
    simp [hf]
  · simp [hi]

theorem keepEntry_case (h : Ordered bucket) {e : ImmutableStoreEntry}
    (hsl : bucket.slots[slot]? = some e) (hkey : e.key = sortKey partition address)
    (hl : payload = .absent ∧ e.data.isObliterated = false ∨ e.data.packFile ≠ 0)
    (hke : keepEntry bucket slot fragment e.data = (outcome, after)) :
    StoreEntryCase bucket partition address fragment payload force outcome after := by
  unfold keepEntry at hke
  by_cases hst : ImmutableData.storedFlags fragment.flags e.data.packFile
      ≠ e.data.flags &&& payloadStored
  · simp only [if_pos hst] at hke
    cases hke
    exact .kept hsl hkey hl
      (h.modifyAt slot (withStored_key (ImmutableData.storedFlags fragment.flags e.data.packFile)))
      (Indexed.slots_modifyAt h.indexed slot _)
  · simp only [if_neg hst] at hke
    cases hke
    have hsa : withStored (ImmutableData.storedFlags fragment.flags e.data.packFile) e = e := by
      rw [withStored, ImmutableStoreEntry.mapData, not_not.mp hst, split_mask]
    refine @StoreEntryCase.kept _ _ _ _ _ _ slot e _ fragment.flags _ hsl hkey hl h ?_
    exact (modify_of_fixed hsl hsa).symm

theorem storeEntry_case (h : Ordered bucket)
    (hst : storeEntry bucket partition address fragment payload force now = .ok (outcome, after)) :
    StoreEntryCase bucket partition address fragment payload force outcome after := by
  unfold storeEntry at hst
  rcases hl : lookup bucket partition address .matchFull with ⟨slot, start, made⟩
  rw [hl] at hst
  dsimp only at hst
  by_cases hn : made = .matchNone
  · rw [if_neg (not_not.mpr hn)] at hst
    have hm : made ≠ .matchFull := by
      rw [hn]
      decide
    exact storeAt_added h hl hm (by rw [if_pos hn]) (fun _ q hq => settled_of_locate_plain hq)
      (Except.ok.inj hst)
  · obtain ⟨e, he, _⟩ := (lookup_spec h (by decide) hl).matched hn
    rw [if_pos hn, ← Indexed.getElem?_slots h.indexed, he] at hst
    dsimp only at hst
    split at hst
    case isTrue => cases hst
    case isFalse hr =>
      split at hst
      case isTrue => cases hst
      case isFalse =>
        by_cases hfu : made = .matchFull
        · subst hfu
          obtain ⟨d, hd, hkey⟩ := lookup_full h hl
          cases he.symm.trans hd
          split at hst
          case isTrue hk =>
            have hli : payload = .absent ∧ e.data.isObliterated = false
                ∨ e.data.packFile ≠ 0 := by
              rcases hk.2 with ⟨_, hp⟩ | hc
              · exact .inr hp
              · refine .inl ⟨carried_eq_false.mp hc, ?_⟩
                rw [← Bool.not_eq_true]
                exact fun hobl => hr ⟨rfl, hc, hobl⟩
            exact keepEntry_case h he hkey hli (Except.ok.inj hst)
          case isFalse hsto =>
            have hc : payload ≠ .absent := fun hab =>
              hsto ⟨rfl, .inr (carried_eq_false.mpr hab)⟩
            have hfr : force = true ∨ e.data.packFile = 0 := by
              by_cases hf : force = true
              · exact .inl hf
              · refine .inr (not_not.mp fun hp => hsto ⟨rfl, .inl ⟨?_, hp⟩⟩)
                simpa using hf
            exact storeAt_over h hl he hkey hc hfr (Except.ok.inj hst)
        · rw [if_neg fun hk => hfu hk.1] at hst
          exact storeAt_added h hl hfu (by rw [if_neg hn, he, map_some])
            (fun _ q hq => settled_of_locate_inherit hq) (Except.ok.inj hst)

end Cases

end Lore.Storage
