import Lore.Storage.BucketRun

/-!
# Eviction — size eviction brings a bucket below its share

The candidates of a bucket are its payloads that eviction may take. Taken oldest first, they give
the cutoff up to which evicting brings the bucket below its share; `evictAccessedBy` then takes
those up to the cutoff and no others.
-/

namespace Lore.Storage

open Lore.Lib List

/-- `eviction_candidates`: the bytes of every payload the bucket stores, and the size and newest
last access of each that eviction may take. -/
def evictionCandidates (bucket : ImmutableStoreBucket) (protectLocalFragment : Bool) :
    Nat × List (UInt32 × UInt64) :=
  let payloads := visitPayloads protectLocalFragment bucket.slots none []
  ((payloads.map (·.size.toNat)).sum,
    (payloads.filter (·.evictable)).map fun payload => (payload.size, payload.lastAccess))

/-- `eviction_cutoff`, over the candidates sorted oldest first. -/
def evictionCutoff (storedSize share : Nat) :
    (candidates : List (UInt32 × UInt64)) → (evictedSize : Nat) → UInt64
  | [], _ => 0xffffffffffffffff
  | (size, lastAccess) :: candidates, evictedSize =>
    if storedSize - (evictedSize + size.toNat) < share then lastAccess
    else evictionCutoff storedSize share candidates (evictedSize + size.toNat)

/-- What size eviction took from a bucket. -/
structure BucketEviction where
  entries : Nat
  payloads : Nat
  bytes : Nat
deriving DecidableEq, Repr

/-- What `evict_accessed_by` reports. -/
def bucketEviction (bucket : ImmutableStoreBucket) (cutoff : UInt64)
    (protectLocalFragment : Bool) : BucketEviction :=
  let evicted := (visitPayloads protectLocalFragment bucket.slots none []).filter
    (·.accessedBy cutoff)
  { entries := bucket.entry.countP (losesPayload bucket cutoff protectLocalFragment)
    payloads := evicted.length
    bytes := (evicted.map (·.size.toNat)).sum }

theorem filter_map_ite {α : Type} {f : α → α} {c p : α → Bool} (h : ∀ a, p (f a) = false)
    (l : List α) : (l.map fun a => if c a then f a else a).filter p
      = l.filter fun a => !c a && p a := by
  induction l with
  | nil => rfl
  | cons a l ih => cases hc : c a <;> simp [filter_cons, hc, h, ih]

theorem visitPayloads_evictAccessedBy {bucket} (h : Ordered bucket) (cutoff : UInt64)
    (protect : Bool) :
    visitPayloads protect (evictAccessedBy bucket cutoff protect).slots none []
      = (visitPayloads protect bucket.slots none []).filter (!·.accessedBy cutoff) := by
  let g := payloadGathering protect
  let held := visitPayloads protect bucket.slots none []
  let keeps (k : Hash × UInt32 × UInt32) : Bool := !held.any fun p => p.accessedBy cutoff && g.key p = k
  have hkeeps : ∀ p ∈ held, keeps (g.key p) = !p.accessedBy cutoff := by
    intro p hp
    refine congrArg not (Bool.eq_iff_iff.mpr (any_eq_true.trans ⟨?_, fun hev => ⟨p, hp, by simp [hev]⟩⟩))
    rintro ⟨q, hq, hev⟩
    rw [Bool.and_eq_true, decide_eq_true_iff] at hev
    exact inj_on_of_nodup_map (visitPayloads_spec h protect).distinct hq hp hev.2 ▸ hev.1
  -- the entries left with a payload are those of the keys kept
  have hslots : (evictAccessedBy bucket cutoff protect).slots.filter (·.data.packFile ≠ 0)
      = (bucket.slots.filter (·.data.packFile ≠ 0)).filter (keeps <| g.keyOf ·) := by
    rw [slots_evictAccessedBy, filter_map_ite (fun _ => rfl), filter_filter]
    refine filter_congr fun e he => ?_
    by_cases hz : e.data.packFile = 0
    · simp [hz]
    · refine congrArg (!· && _) (Bool.eq_iff_iff.mpr ((losesPayload_iff h he).trans ?_))
      simp [BucketPayload.HeldBy, BucketPayload.accessedBy, hz, held, g, payloadGathering]
  rw [visitPayloads_eq (evictAccessedBy_ordered h cutoff protect), hslots, ← filter_nil,
    ← g.filter_all, ← visitPayloads_eq h]
  exact filter_congr hkeeps

/-- All candidates are up to the cutoff, or those that are bring the bucket below its share. -/
theorem evictionCutoff_spec {storedSize share : Nat} {candidates : List (UInt32 × UInt64)}
    (h : candidates.Pairwise (·.2 ≤ ·.2)) (evictedSize : Nat) :
    let cutoff := evictionCutoff storedSize share candidates evictedSize
    (∀ access, (∀ c ∈ candidates, access ≤ c.2) → access ≤ cutoff)
    ∧ ((∀ c ∈ candidates, c.2 ≤ cutoff) ∨ storedSize
      - (evictedSize + ((candidates.filter (·.2 ≤ cutoff)).map (·.1.toNat)).sum) < share) := by
  induction candidates generalizing evictedSize with
  | nil => exact ⟨fun access _ => UInt64.le_iff_toNat_le.mpr (Nat.le_pred_of_lt access.toNat_lt), .inl nofun⟩
  | cons c candidates ih =>
    obtain ⟨hc, hrest⟩ := pairwise_cons.mp h
    obtain ⟨hle, hor⟩ := ih hrest (evictedSize + c.1.toNat)
    unfold evictionCutoff
    split
    case isTrue hlt =>
      refine ⟨fun access ha => ha c mem_cons_self, .inr ?_⟩
      rw [filter_cons_of_pos (by simp), map_cons, sum_cons]
      omega
    case isFalse hge =>
      refine ⟨fun access ha => hle access fun d hd => ha d (mem_cons_of_mem c hd), ?_⟩
      rw [filter_cons_of_pos (by simpa using hle c.2 hc), map_cons, sum_cons, ← Nat.add_assoc]
      exact hor.imp_left fun hall => forall_mem_cons.mpr ⟨hle c.2 hc, hall⟩

/-- Size eviction of a bucket: what it holds then is below its share, or eviction may take none of
it; a protected payload stays with all its entries; what was evicted was last accessed before all
that may yet be; the entries that held it lost it; and the report counts it. -/
theorem eviction_meets_target {bucket} (h : Ordered bucket) (protect : Bool) (share : Nat)
    {candidates} (hperm : candidates.Perm (evictionCandidates bucket protect).2)
    (hold : candidates.Pairwise (·.2 ≤ ·.2)) :
    let cutoff := evictionCutoff (evictionCandidates bucket protect).1 share candidates 0
    let after := evictAccessedBy bucket cutoff protect
    let held := visitPayloads protect bucket.slots none []
    let left := visitPayloads protect after.slots none []
    let evicted := held.filter (· ∉ left)
    (PayloadsOf protect bucket.slots held ∧ PayloadsOf protect after.slots left)
    ∧ ((left.map (·.size.toNat)).sum < share ∨ ∀ p ∈ left, p.evictable = false)
    ∧ (∀ e ∈ bucket.slots, evictable e.data protect = false → ∀ p : BucketPayload, p.HeldBy e →
      ∀ d ∈ bucket.slots, p.HeldBy d → d ∈ after.slots)
    ∧ (∀ p ∈ evicted, ∀ q ∈ left, q.evictable = true → p.lastAccess < q.lastAccess)
    ∧ after.slots = bucket.slots.map (fun e =>
      if evicted.any (·.HeldBy e) then e.mapData .clearPayload else e)
    ∧ (bucketEviction bucket cutoff protect).payloads = evicted.length
    ∧ (bucketEviction bucket cutoff protect).bytes = (evicted.map (·.size.toNat)).sum := by
  intro cutoff after held left evicted
  have hleft : left = held.filter (!·.accessedBy cutoff) := visitPayloads_evictAccessedBy h cutoff protect
  have hheld := visitPayloads_spec h protect
  have hafter := visitPayloads_spec (evictAccessedBy_ordered h cutoff protect) protect
  have hevicted : evicted = held.filter (·.accessedBy cutoff) :=
    filter_congr fun p hp => by simp [hleft, hp]
  refine ⟨⟨hheld, hafter⟩, ?_, ?_, ?_, ?_, ?_⟩
  · obtain ⟨-, hall | hlt⟩ :=
      @evictionCutoff_spec (evictionCandidates bucket protect).1 share candidates hold 0
    · refine .inr fun p hp => Bool.eq_false_iff.mpr fun hev => ?_
      rw [hleft, mem_filter] at hp
      have hc : p.lastAccess ≤ cutoff := hall (p.size, p.lastAccess) (hperm.mem_iff.mpr
        (mem_map_of_mem (mem_filter.mpr ⟨hp.1, hev⟩)))
      simp [BucketPayload.accessedBy, hev, hc] at hp
    · have hsum := ((filter_append_perm (·.accessedBy cutoff) held).map (·.size.toNat)).sum_nat
      rw [map_append, sum_append, ← hleft, Nat.add_comm] at hsum
      refine .inl (Nat.lt_of_le_of_lt (Nat.le_of_eq (Nat.eq_sub_of_add_eq hsum)) ?_)
      rw [Nat.zero_add, ((hperm.filter _).map _).sum_nat, evictionCandidates, filter_map,
        filter_filter, map_map] at hlt
      simp only [Bool.and_comm] at hlt
      exact hlt
  · intro e he hpr p hpe d hd hpd
    have hsame : losesPayload bucket cutoff protect d = losesPayload bucket cutoff protect e :=
      losesPayload_congr h hd he (hpd.2.1.symm.trans hpe.2.1) (hpd.2.2.1.symm.trans hpe.2.2.1)
        (hpd.2.2.2.symm.trans hpe.2.2.2)
    have hkept : losesPayload bucket cutoff protect e = false := by simp [losesPayload, hpr]
    rw [slots_evictAccessedBy]
    exact mem_map.mpr ⟨d, hd, by rw [hsame, hkept]; rfl⟩
  · intro p hp q hq hev
    rw [hevicted, mem_filter] at hp
    rw [hleft, mem_filter] at hq
    have hlt : cutoff < q.lastAccess := by simpa [BucketPayload.accessedBy, hev] using hq.2
    exact UInt64.lt_of_le_of_lt (of_decide_eq_true (Bool.and_eq_true_iff.mp hp.2).2) hlt
  · rw [slots_evictAccessedBy]
    refine map_congr_left fun e he => ?_
    have hl : losesPayload bucket cutoff protect e = evicted.any (·.HeldBy e) := by
      rw [Bool.eq_iff_iff, losesPayload_iff h he, hevicted]
      simp [held]
    rw [hl]
  · rw [hevicted]
    exact ⟨rfl, rfl⟩

/-- Of the three payloads one is protected, by the entry of the second partition, though the oldest;
of the others the older one goes. -/
theorem eviction_meets_target_fiveEntries :
    let cutoff := evictionCutoff (evictionCandidates fiveEntries true).1 13 [(4, 3), (8, 7)] 0
    let left := visitPayloads true (evictAccessedBy fiveEntries cutoff true).slots none []
    PayloadsOf true (evictAccessedBy fiveEntries cutoff true).slots left
    ∧ (left.map (·.size.toNat)).sum < 13 ∧ left.length = 2
    ∧ (bucketEviction fiveEntries cutoff true).bytes = 4 := by
  have h := eviction_meets_target fiveEntries_ordered true 13 (.refl [(4, 3), (8, 7)]) (by decide)
  obtain ⟨⟨-, hleft⟩, hshare, -, -, -, -, hbytes⟩ := h
  refine ⟨hleft, hshare.resolve_right (by decide), by decide, hbytes.trans (by decide)⟩

end Lore.Storage
