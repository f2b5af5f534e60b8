import Lore.Lib.Gather
import Lore.Storage.BucketOpsSpec

/-!
# EvictSpec — eviction takes a payload from all its entries or from none

`visitPayloads` gathers the payloads of a hash while it passes the hash's entries, which
are next to each other, and so visits each payload of the bucket once. A payload it reports as
evictable is held by evictable entries only, so `evictAccessedBy` clears every entry that holds
an evicted payload.
-/

namespace Lore.Storage

open Lore.Lib List

/-- How the entries that hold a payload make up the payloads of a bucket. -/
def payloadGathering (protect : Bool) :
    Gathering ImmutableStoreEntry BucketPayload (Hash × UInt32 × UInt32) where
  keyOf e := (e.address.hash, e.data.packFile, e.data.packOffset)
  key p := (p.hash, p.packFile, p.packOffset)
  fresh e := ⟨e.address.hash, e.data.packFile, e.data.packOffset, e.data.sizePayload,
    evictable e.data protect, e.data.lastAccess⟩
  merge p e := { p with
    evictable := p.evictable && evictable e.data protect
    lastAccess := max p.lastAccess e.data.lastAccess }
  key_fresh _ := rfl
  key_merge _ _ := rfl

theorem gatherPayload_eq {protect e run} (h : ∀ p ∈ run, p.hash = e.address.hash) :
    gatherPayload protect e run = (payloadGathering protect).add e run
    ∧ ∀ p ∈ gatherPayload protect e run, p.hash = e.address.hash := by
  induction run with
  | nil => exact ⟨rfl, fun p hp => mem_singleton.mp hp ▸ rfl⟩
  | cons p run ih =>
    obtain ⟨hp, hrun⟩ := forall_mem_cons.mp h
    obtain ⟨heq, hall⟩ := ih hrun
    unfold gatherPayload Gathering.add
    simp only [payloadGathering, Prod.mk.injEq, hp, true_and]
    split
    · exact ⟨rfl, forall_mem_cons.mpr ⟨rfl, hrun⟩⟩
    · exact ⟨congrArg _ heq, forall_mem_cons.mpr ⟨hp, hall⟩⟩

/-- Gathering hash by hash, over entries sorted by hash, misses no payload gathered before:
those in `done` are of smaller hashes than the entries left. -/
theorem visitPayloads_from {protect slots} (hso : slots.Pairwise fun a b => a.key < b.key)
    {hash run} (done : List BucketPayload) (hrun : ∀ p ∈ run, hash = some p.hash)
    (hle : ∀ h, hash = some h → ∀ e ∈ slots, h.toNat ≤ e.address.hash.toNat)
    (hlt : ∀ p ∈ done, ∀ e ∈ slots, p.hash.toNat < e.address.hash.toNat) :
    done ++ visitPayloads protect slots hash run
      = (payloadGathering protect).all (slots.filter (·.data.packFile ≠ 0)) (done ++ run) := by
  induction slots generalizing hash run done with
  | nil => rfl
  | cons e slots ih =>
    obtain ⟨he, hsl⟩ := pairwise_cons.mp hso
    have hn : ∀ d ∈ slots, e.address.hash.toNat ≤ d.address.hash.toNat := by
      intro d hd
      rw [← @sortKey_div_hash _, ← @sortKey_div_hash _]
      exact Nat.div_le_div_right (Nat.le_of_lt (he d hd))
    unfold visitPayloads
    split
    case isTrue hz =>
      rw [filter_cons_of_neg (by simpa using hz)]
      exact ih hsl done hrun (fun h hh d hd => hle h hh d (mem_cons_of_mem e hd))
        fun p hp d hd => hlt p hp d (mem_cons_of_mem e hd)
    case isFalse hz =>
      have hne : ∀ p ∈ done, (payloadGathering protect).key p ≠ (payloadGathering protect).keyOf e :=
        fun p hp heq => Nat.ne_of_lt (hlt p hp e mem_cons_self) (congrArg (·.1.toNat) heq)
      rw [filter_cons_of_pos (by simpa using hz), Gathering.all]
      split
      case isTrue hch =>
        -- the hash changes: what was gathered is of a smaller one
        have hg : ∀ p ∈ run, p.hash.toNat < e.address.hash.toNat := by
          intro p hp
          refine Nat.lt_of_le_of_ne (hle _ (hrun p hp) e mem_cons_self) fun heq => hch ?_
          rw [hrun p hp, BitVec.toNat_inj.mp heq]
        have hdone : ∀ p ∈ done ++ run, p.hash.toNat < e.address.hash.toNat := fun p hp =>
          (mem_append.mp hp).elim (fun hp => hlt p hp e mem_cons_self) (hg p)
        rw [← append_nil (done ++ run), Gathering.add_append, ← append_assoc]
        · refine ih hsl (done ++ run) (fun p hp => mem_singleton.mp hp ▸ rfl)
            (fun h hh d hd => Option.some.inj hh ▸ hn d hd)
            fun p hp d hd => Nat.lt_of_lt_of_le (hdone p hp) (hn d hd)
        · exact fun p hp heq => Nat.ne_of_lt (hdone p hp) (congrArg (·.1.toNat) heq)
      case isFalse hsa =>
        have hha := not_not.mp hsa
        obtain ⟨heq, hall⟩ := @gatherPayload_eq protect e run fun p hp =>
          Option.some.inj ((hrun p hp).symm.trans hha)
        rw [Gathering.add_append _ _ hne, ← heq]
        exact ih hsl done (fun p hp => hha.trans (congrArg some (hall p hp).symm))
          (fun h hh d hd => hle h hh d (mem_cons_of_mem e hd))
          fun p hp d hd => hlt p hp d (mem_cons_of_mem e hd)

theorem visitPayloads_eq {bucket} (h : Ordered bucket) (protect : Bool) :
    visitPayloads protect bucket.slots none []
      = (payloadGathering protect).all (bucket.slots.filter (·.data.packFile ≠ 0)) [] :=
  visitPayloads_from h.sorted [] nofun nofun nofun

/-- The entry holds the payload. -/
def BucketPayload.HeldBy (p : BucketPayload) (e : ImmutableStoreEntry) : Prop :=
  e.data.packFile ≠ 0 ∧ p.hash = e.address.hash ∧ p.packFile = e.data.packFile
    ∧ p.packOffset = e.data.packOffset
deriving Decidable

theorem max_spec (a b : UInt64) : a ≤ max a b ∧ b ≤ max a b ∧ (max a b = a ∨ max a b = b) := by
  show a ≤ (if a ≤ b then b else a) ∧ b ≤ (if a ≤ b then b else a) ∧ (_ = a ∨ _ = b)
  split
  case isTrue h => exact ⟨h, UInt64.le_refl b, .inr (if_pos h)⟩
  case isFalse h => exact ⟨UInt64.le_refl a, (UInt64.le_total a b).resolve_left h, .inl (if_neg h)⟩

theorem foldl_merge {protect} (holders : List ImmutableStoreEntry) (p : BucketPayload) :
    let q := holders.foldl (payloadGathering protect).merge p
    q.size = p.size
    ∧ (q.evictable = true ↔ p.evictable = true ∧ ∀ e ∈ holders, evictable e.data protect = true)
    ∧ p.lastAccess ≤ q.lastAccess ∧ (∀ e ∈ holders, e.data.lastAccess ≤ q.lastAccess)
    ∧ (q.lastAccess = p.lastAccess ∨ ∃ e ∈ holders, e.data.lastAccess = q.lastAccess) := by
  induction holders generalizing p with
  | nil => simp
  | cons e holders ih =>
    obtain ⟨hsize, hev, hle, hall, hex⟩ := ih ((payloadGathering protect).merge p e)
    obtain ⟨hl, hr, hm⟩ := max_spec p.lastAccess e.data.lastAccess
    refine ⟨hsize, ?_, UInt64.le_trans hl hle,
      forall_mem_cons.mpr ⟨UInt64.le_trans hr hle, hall⟩, ?_⟩
    · rw [foldl_cons, hev, forall_mem_cons, ← and_assoc]
      simp [payloadGathering]
    · rcases hex with heq | ⟨d, hd, heq⟩
      · rw [foldl_cons, heq]
        exact hm.imp_right fun hm => ⟨e, mem_cons_self, hm.symm⟩
      · exact .inr ⟨d, mem_cons_of_mem e hd, heq⟩

/-- The payloads are those of the entries, each once: of the size an entry that holds it has,
evictable where all of them are, and last accessed when the newest of them was. -/
structure PayloadsOf (protect : Bool) (slots : List ImmutableStoreEntry)
    (payloads : List BucketPayload) : Prop where
  distinct : (payloads.map fun p => (p.hash, p.packFile, p.packOffset)).Nodup
  covers : ∀ e ∈ slots, e.data.packFile ≠ 0 → ∃ p ∈ payloads, p.HeldBy e
  size : ∀ p ∈ payloads, ∃ e ∈ slots, p.HeldBy e ∧ e.data.sizePayload = p.size
  evictable : ∀ p ∈ payloads, p.evictable = true ↔
    ∀ e ∈ slots, p.HeldBy e → Storage.evictable e.data protect = true
  newest : ∀ p ∈ payloads, (∀ e ∈ slots, p.HeldBy e → e.data.lastAccess ≤ p.lastAccess)
    ∧ ∃ e ∈ slots, p.HeldBy e ∧ e.data.lastAccess = p.lastAccess

theorem visitPayloads_spec {bucket} (h : Ordered bucket) (protect : Bool) :
    PayloadsOf protect bucket.slots (visitPayloads protect bucket.slots none []) := by
  rw [visitPayloads_eq h]
  -- a payload is folded from the entries that hold it
  have hfold : ∀ p ∈ (payloadGathering protect).all (bucket.slots.filter (·.data.packFile ≠ 0)) [],
      ∃ first rest, (∀ e, e ∈ bucket.slots ∧ p.HeldBy e ↔ e ∈ first :: rest)
        ∧ rest.foldl (payloadGathering protect).merge ((payloadGathering protect).fresh first)
          = p := by
    intro p hp
    obtain ⟨first, rest, hh, hf⟩ := Gathering.exists_of_mem_all _ hp
    refine ⟨first, rest, fun e => ?_, hf⟩
    rw [← hh, mem_filter, mem_filter, and_assoc, decide_eq_true_iff, decide_eq_true_iff, eq_comm]
    simp [payloadGathering, BucketPayload.HeldBy]
  refine ⟨Gathering.nodup_all (payloadGathering protect), fun e he hz => ?_, fun p hp => ?_,
    fun p hp => ?_, fun p hp => ?_⟩
  · have hmem : e ∈ bucket.slots.filter (·.data.packFile ≠ 0) :=
      mem_filter.mpr ⟨he, decide_eq_true hz⟩
    obtain ⟨p, hp, hk⟩ := (payloadGathering protect).exists_mem_all hmem
    exact ⟨p, hp, hz, by simpa [payloadGathering] using hk⟩
  · obtain ⟨first, rest, hall, hf⟩ := hfold p hp
    obtain ⟨hfirst, hheld⟩ := (hall first).mpr mem_cons_self
    obtain ⟨hsize, -⟩ := foldl_merge rest ((payloadGathering protect).fresh first)
    exact ⟨first, hfirst, hheld, hf ▸ hsize.symm⟩
  · obtain ⟨first, rest, hall, hf⟩ := hfold p hp
    simp only [← and_imp, hall]
    rw [← hf, (foldl_merge rest _).2.1]
    exact (@forall_mem_cons _ (Storage.evictable ·.data protect = true) first rest).symm
  · obtain ⟨first, rest, hall, hf⟩ := hfold p hp
    obtain ⟨-, -, hle, hrest, hex⟩ := foldl_merge rest ((payloadGathering protect).fresh first)
    rw [hf] at hle hrest hex
    simp only [← and_imp, ← and_assoc, hall]
    refine ⟨forall_mem_cons.mpr ⟨hle, hrest⟩, ?_⟩
    rcases hex with heq | ⟨d, hd, heq⟩
    · exact ⟨first, mem_cons_self, heq.symm⟩
    · exact ⟨d, mem_cons_of_mem first hd, heq⟩

theorem slots_evictAccessedBy (bucket : ImmutableStoreBucket) (cutoff : UInt64) (protect : Bool) :
    (evictAccessedBy bucket cutoff protect).slots
      = bucket.slots.map fun e => if losesPayload bucket cutoff protect e then
          e.mapData .clearPayload else e := Indexed.slots_mapEntries bucket _

/-- An entry loses its payload where that is an evicted one: all that hold it may be evicted. -/
theorem losesPayload_iff {bucket} (h : Ordered bucket) {cutoff protect e} (he : e ∈ bucket.slots) :
    losesPayload bucket cutoff protect e = true ↔ ∃ p ∈ visitPayloads protect bucket.slots none [],
      p.accessedBy cutoff = true ∧ p.HeldBy e := by
  unfold losesPayload
  simp only [Bool.and_eq_true, decide_eq_true_eq, any_eq_true, mem_filter]
  constructor
  · rintro ⟨⟨hpa, -⟩, p, ⟨hp, hev⟩, ⟨hh, hf⟩, ho⟩
    exact ⟨p, hp, hev, hpa, hh, hf, ho⟩
  · rintro ⟨p, hp, hev, hpa, hh, hf, ho⟩
    have hall := ((visitPayloads_spec h protect).evictable p hp).mp (Bool.and_eq_true_iff.mp hev).1
    exact ⟨⟨hpa, hall e he ⟨hpa, hh, hf, ho⟩⟩, p, ⟨hp, hev⟩, ⟨hh, hf⟩, ho⟩

theorem losesPayload_congr {bucket} (h : Ordered bucket) {cutoff protect e d}
    (he : e ∈ bucket.slots) (hd : d ∈ bucket.slots) (hha : e.address.hash = d.address.hash)
    (hf : e.data.packFile = d.data.packFile) (ho : e.data.packOffset = d.data.packOffset) :
    losesPayload bucket cutoff protect e = losesPayload bucket cutoff protect d := by
  rw [Bool.eq_iff_iff, losesPayload_iff h he, losesPayload_iff h hd]
  simp only [BucketPayload.HeldBy, hha, hf, ho]

end Lore.Storage
