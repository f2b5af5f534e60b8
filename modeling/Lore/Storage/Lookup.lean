import Lore.Lib.Indexed
import Lore.Storage.BucketEntry

/-!
# Lookup — the binary search of a bucket

The entries of a bucket sort by hash, then partition, then context. `lookup` searches for
one association and remembers the best partial match it passes: an entry of the hash, or
of the hash in the partition. It returns the slot of the match, the slot an entry of the
association would be inserted at, and how strong the match is.
-/

namespace Lore.Storage

open Lore.Lib List

/-- `StoreMatch`, weakest first. -/
inductive StoreMatch where
  | matchNone
  | matchHash
  | matchPartition
  | matchFull
deriving DecidableEq, Repr

/-- The discriminant, which the derived order compares. -/
def StoreMatch.rank : StoreMatch → Nat
  | .matchNone => 0
  | .matchHash => 1
  | .matchPartition => 2
  | .matchFull => 3

instance : LE StoreMatch := ⟨fun a b => a.rank ≤ b.rank⟩
instance : LT StoreMatch := ⟨fun a b => a.rank < b.rank⟩
instance (a b : StoreMatch) : Decidable (a ≤ b) := inferInstanceAs (Decidable (a.rank ≤ b.rank))
instance (a b : StoreMatch) : Decidable (a < b) := inferInstanceAs (Decidable (a.rank < b.rank))

theorem StoreMatch.le_iff {a b : StoreMatch} : a ≤ b ↔ a.rank ≤ b.rank := Iff.rfl

/-- `ImmutableStoreBucket`: its entries and its sorted index. -/
abbrev ImmutableStoreBucket := Indexed ImmutableStoreEntry

/-- Byte order of identifiers, which is their order as numbers. -/
def cmp {n : Nat} (a b : BitVec n) : Ordering := compare a.toNat b.toNat

/-- What one probed entry tells the search: it is done, or it goes on from this entry in
the direction of the order. -/
inductive Probe where
  | found (made : StoreMatch) (slot : Nat)
  | next (order : Ordering) (made : StoreMatch) (slot : Nat)
deriving DecidableEq, Repr

/-- The body of the search loop at one slot. -/
def probe (partition : Partition) (address : Address) (request : StoreMatch)
    (entry : ImmutableStoreEntry) (slot : Nat) (made : StoreMatch) (matchSlot : Nat) : Probe :=
  match cmp address.hash entry.address.hash with
  | .eq =>
    if made = .matchNone ∧ request = .matchHash then .found .matchHash slot
    else
      let (made, matchSlot) :=
        if made = .matchNone then (StoreMatch.matchHash, slot) else (made, matchSlot)
      match cmp partition entry.partition with
      | .eq =>
        if made = .matchHash ∧ request = .matchPartition then .found .matchPartition slot
        else
          let (made, matchSlot) :=
            if made = .matchHash then (StoreMatch.matchPartition, slot) else (made, matchSlot)
          match cmp address.context entry.address.context with
          | .eq => .found .matchFull slot
          | order => .next order made matchSlot
      | order => .next order made matchSlot
  | order => .next order made matchSlot

/-- The search loop over the slots from `start` to `stop`. The fuel bounds the slots left
to search. -/
def lookupFrom (bucket : ImmutableStoreBucket) (partition : Partition) (address : Address)
    (request : StoreMatch) :
    (fuel start stop : Nat) → StoreMatch → Nat → Nat × Nat × StoreMatch
  | 0, start, _, made, matchSlot => (matchSlot, start, made)
  | fuel + 1, start, stop, made, matchSlot =>
    if start < stop then
      let slot := (start + stop) / 2
      match bucket.at? slot with
      | none => (matchSlot, start, made)
      | some entry =>
        match probe partition address request entry slot made matchSlot with
        | .found made slot => (slot, start, made)
        | .next order made matchSlot =>
          if order = .lt then
            lookupFrom bucket partition address request fuel start slot made matchSlot
          else
            lookupFrom bucket partition address request fuel (slot + 1) stop made matchSlot
    else (matchSlot, start, made)

/-- `lookup`: the slot matched, the slot to insert at, and the match made. -/
def lookup (bucket : ImmutableStoreBucket) (partition : Partition) (address : Address)
    (request : StoreMatch) : Nat × Nat × StoreMatch :=
  let count := bucket.entry.length
  lookupFrom bucket partition address request count 0 count .matchNone 0

/-! ## The order of a bucket -/

/-- Hash, partition and context as one number, in the order entries sort by. -/
def sortKey (partition : Partition) (address : Address) : Nat :=
  (address.hash.toNat * 2 ^ 128 + partition.toNat) * 2 ^ 128 + address.context.toNat

/-- The key of an entry. -/
def ImmutableStoreEntry.key (e : ImmutableStoreEntry) : Nat := sortKey e.partition e.address

/-- How strongly an entry matches an association. -/
def matchOf (partition : Partition) (address : Address) (e : ImmutableStoreEntry) : StoreMatch :=
  if e.address.hash ≠ address.hash then .matchNone
  else if e.partition ≠ partition then .matchHash
  else if e.address.context ≠ address.context then .matchPartition
  else .matchFull

/-- A bucket whose index names each entry once, in the order of the keys. -/
structure Ordered (bucket : ImmutableStoreBucket) : Prop where
  indexed : bucket.WellIndexed
  sorted : bucket.slots.Pairwise fun a b => a.key < b.key

theorem Ordered.empty : Ordered Indexed.empty := ⟨Indexed.empty_wellIndexed, List.Pairwise.nil⟩

section Keys

variable {partition : Partition} {address : Address} {e d : ImmutableStoreEntry}

theorem sortKey_div_partition :
    sortKey partition address / 2 ^ 128 = address.hash.toNat * 2 ^ 128 + partition.toNat := by
  have h := address.context.isLt
  rw [sortKey, Nat.mul_comm, Nat.mul_add_div (by decide), Nat.div_eq_of_lt h, Nat.add_zero]

theorem sortKey_div_hash : sortKey partition address / 2 ^ 256 = address.hash.toNat := by
  have h := partition.isLt
  have hsp : (2 : Nat) ^ 256 = 2 ^ 128 * 2 ^ 128 := by decide
  rw [hsp, ← Nat.div_div_eq_div_mul, sortKey_div_partition, Nat.mul_comm,
    Nat.mul_add_div (by decide), Nat.div_eq_of_lt h, Nat.add_zero]

theorem hash_eq_iff : e.address.hash = address.hash
    ↔ e.key / 2 ^ 256 = sortKey partition address / 2 ^ 256 := by
  rw [ImmutableStoreEntry.key, sortKey_div_hash, sortKey_div_hash, BitVec.toNat_inj]

theorem hash_partition_eq_iff : (e.address.hash = address.hash ∧ e.partition = partition)
    ↔ e.key / 2 ^ 128 = sortKey partition address / 2 ^ 128 := by
  rw [ImmutableStoreEntry.key, sortKey_div_partition, sortKey_div_partition,
    ← BitVec.toNat_inj (x := e.partition), ← BitVec.toNat_inj (x := e.address.hash)]
  constructor
  · rintro ⟨hh, hp⟩
    rw [hh, hp]
  · intro h
    omega

theorem key_eq_iff : e.key = sortKey partition address
    ↔ e.address = address ∧ e.partition = partition := by
  constructor
  · intro h
    have htop := hash_partition_eq_iff (e := e).mpr (congrArg (· / 2 ^ 128) h)
    have hctx : e.address.context = address.context := by
      rw [ImmutableStoreEntry.key, sortKey, sortKey] at h
      exact BitVec.toNat_inj.mp (by omega)
    cases had : e.address with
    | mk hash context =>
      simp_all
  · rintro ⟨ha, hp⟩
    rw [ImmutableStoreEntry.key, ha, hp]

theorem matchOf_cases (partition : Partition) (address : Address) (e : ImmutableStoreEntry) :
    e.address.hash ≠ address.hash ∧ matchOf partition address e = .matchNone
    ∨ e.address.hash = address.hash ∧ (e.partition ≠ partition
        ∧ matchOf partition address e = .matchHash
      ∨ e.partition = partition ∧ (e.address.context ≠ address.context
          ∧ matchOf partition address e = .matchPartition
        ∨ e.address = address ∧ matchOf partition address e = .matchFull)) := by
  unfold matchOf
  split_ifs with hh hp hc
  · exact .inl ⟨hh, rfl⟩
  · exact .inr ⟨not_not.mp hh, .inl ⟨hp, rfl⟩⟩
  · exact .inr ⟨not_not.mp hh, .inr ⟨not_not.mp hp, .inl ⟨hc, rfl⟩⟩⟩
  · have heq : e.address = ⟨e.address.hash, e.address.context⟩ := rfl
    rw [not_not.mp hh, not_not.mp hc] at heq
    exact .inr ⟨not_not.mp hh, .inr ⟨not_not.mp hp, .inr ⟨heq, rfl⟩⟩⟩

theorem matchHash_le_matchOf :
    .matchHash ≤ matchOf partition address e ↔ e.address.hash = address.hash := by
  rcases matchOf_cases partition address e with ⟨hh, hm⟩ | ⟨hh, ⟨_, hm⟩ | ⟨_, ⟨_, hm⟩ | ⟨_, hm⟩⟩⟩ <;>
    simp [hm, hh, StoreMatch.le_iff, StoreMatch.rank]

theorem matchPartition_le_matchOf : .matchPartition ≤ matchOf partition address e
    ↔ e.address.hash = address.hash ∧ e.partition = partition := by
  rcases matchOf_cases partition address e with ⟨hh, hm⟩ | ⟨hh, ⟨hp, hm⟩ | ⟨hp, ⟨_, hm⟩ | ⟨_, hm⟩⟩⟩ <;>
    simp_all [StoreMatch.le_iff, StoreMatch.rank]

theorem matchOf_eq_full :
    matchOf partition address e = .matchFull ↔ e.key = sortKey partition address := by
  rw [key_eq_iff]
  rcases matchOf_cases partition address e with ⟨hh, hm⟩ | ⟨hh, ⟨hp, hm⟩ | ⟨hp, ⟨hc, hm⟩ | ⟨ha, hm⟩⟩⟩ <;>
    simp only [hm, reduceCtorEq, false_iff]
  · exact fun h => hh (congrArg Address.hash h.1)
  · exact fun h => hp h.2
  · exact fun h => hc (congrArg Address.context h.1)
  · exact iff_of_true trivial ⟨ha, hp⟩

/-- Of two entries on the same side of the key, the nearer one matches at least as well. -/
theorem matchOf_le_of_between (h : d.key ≤ e.key ∧ e.key ≤ sortKey partition address
      ∨ sortKey partition address ≤ e.key ∧ e.key ≤ d.key) :
    matchOf partition address d ≤ matchOf partition address e := by
  have hq : ∀ n : Nat, d.key / n = sortKey partition address / n →
      e.key / n = sortKey partition address / n := by
    intro n hd
    rcases h with ⟨hde, hek⟩ | ⟨hke, hed⟩
    · have hlow : d.key / n ≤ e.key / n := Nat.div_le_div_right hde
      have hh : e.key / n ≤ sortKey partition address / n := Nat.div_le_div_right hek
      exact Nat.le_antisymm hh (Nat.le_trans (Nat.le_of_eq hd.symm) hlow)
    · have hlow : sortKey partition address / n ≤ e.key / n := Nat.div_le_div_right hke
      have hh : e.key / n ≤ d.key / n := Nat.div_le_div_right hed
      exact Nat.le_antisymm (Nat.le_trans hh (Nat.le_of_eq hd)) hlow
  cases hl : matchOf partition address d with
  | matchNone => exact Nat.zero_le _
  | matchHash =>
    have hd := matchHash_le_matchOf.mp (Nat.le_of_eq (congrArg StoreMatch.rank hl).symm)
    exact matchHash_le_matchOf.mpr (hash_eq_iff.mpr (hq _ (hash_eq_iff.mp hd)))
  | matchPartition =>
    have hd := matchPartition_le_matchOf.mp (Nat.le_of_eq (congrArg StoreMatch.rank hl).symm)
    exact matchPartition_le_matchOf.mpr
      (hash_partition_eq_iff.mpr (hq _ (hash_partition_eq_iff.mp hd)))
  | matchFull =>
    have hd := matchOf_eq_full.mp hl
    have he : matchOf partition address e = .matchFull := matchOf_eq_full.mpr (by omega)
    rw [he]
    exact Nat.le_refl _

end Keys

/-! ## One probe -/

theorem cmp_eq_eq {n : Nat} {a b : BitVec n} : cmp a b = .eq ↔ a = b := by
  rw [cmp, Nat.compare_eq_eq, BitVec.toNat_inj]

theorem cmp_toward {n : Nat} {a b : BitVec n} (h : b ≠ a) {x y : Nat}
    (hlt : a.toNat < b.toNat → x < y) (hgt : b.toNat < a.toNat → y < x) :
    cmp a b = .lt ∧ x < y ∨ cmp a b = .gt ∧ y < x := by
  rcases Nat.lt_trichotomy a.toNat b.toNat with hab | hab | hab
  · exact .inl ⟨Nat.compare_eq_lt.mpr hab, hlt hab⟩
  · exact absurd (BitVec.toNat_inj.mp hab).symm h
  · exact .inr ⟨Nat.compare_eq_gt.mpr hab, hgt hab⟩

/-- What a probe can answer, by how strongly the entry matches. A search that goes on has
passed nothing better than what it remembers, and goes towards the key. -/
inductive Probes (partition : Partition) (address : Address) (request : StoreMatch)
    (entry : ImmutableStoreEntry) (slot : Nat) (made : StoreMatch) (matchSlot : Nat) :
    Probe → Prop where
  | found {level : StoreMatch} (hlevel : level ≤ matchOf partition address entry)
      (hrequest : request ≤ level) :
      Probes partition address request entry slot made matchSlot (.found level slot)
  | next {order : Ordering} {level : StoreMatch} {kept : Nat}
      (hbest : matchOf partition address entry ≤ level) (hmade : made ≤ level)
      (hrequest : level < request)
      (hkept : level = made ∧ kept = matchSlot
        ∨ kept = slot ∧ level ≤ matchOf partition address entry)
      (horder : order = .lt ∧ sortKey partition address < entry.key
        ∨ order = .gt ∧ entry.key < sortKey partition address) :
      Probes partition address request entry slot made matchSlot (.next order level kept)

section Probe

variable {partition : Partition} {address : Address} {request : StoreMatch}
  {entry : ImmutableStoreEntry} {slot : Nat} {made : StoreMatch} {matchSlot : Nat}

theorem key_lt_of_hash_lt {p q a b} (h : a.hash.toNat < b.hash.toNat) :
    sortKey p a < sortKey q b := by
  have h1 : sortKey p a / 2 ^ 256 < sortKey q b / 2 ^ 256 := by
    rwa [sortKey_div_hash, sortKey_div_hash]
  exact Nat.lt_of_not_le fun hle => Nat.not_le_of_lt h1 (Nat.div_le_div_right hle)

theorem key_lt_of_partition_lt {p q a b} (hh : a.hash = b.hash) (h : p.toNat < q.toNat) :
    sortKey p a < sortKey q b := by
  have h1 : sortKey p a / 2 ^ 128 < sortKey q b / 2 ^ 128 := by
    rw [sortKey_div_partition, sortKey_div_partition, hh]
    omega
  exact Nat.lt_of_not_le fun hle => Nat.not_le_of_lt h1 (Nat.div_le_div_right hle)

theorem key_lt_of_context_lt {p q a b} (hh : a.hash = b.hash) (hp : p = q)
    (h : a.context.toNat < b.context.toNat) : sortKey p a < sortKey q b := by
  rw [sortKey, sortKey, hh, hp]
  omega

/-- An entry in another partition is passed with a match of the hash, one of another context
with a match of the partition. -/
theorem probes_of_ne (hm : made < request) {order}
    (ho : order = .lt ∧ sortKey partition address < entry.key
      ∨ order = .gt ∧ entry.key < sortKey partition address)
    (hh : cmp address.hash entry.address.hash = .eq)
    (hne : matchOf partition address entry = .matchHash ∧ cmp partition entry.partition = order
      ∨ matchOf partition address entry = .matchPartition ∧ cmp partition entry.partition = .eq ∧
        cmp address.context entry.address.context = order) :
    Probes partition address request entry slot made matchSlot
      (probe partition address request entry slot made matchSlot) := by
  unfold probe
  rcases hne with ⟨hl, hp⟩ | ⟨hl, hp, hctx⟩
  on_goal 1 => rw [hh, hp]
  on_goal 2 => rw [hh, hp, hctx]
  all_goals
    rcases ho with ⟨rfl, hkey⟩ | ⟨rfl, hkey⟩ <;> cases made <;> cases request <;>
      first
      | exact absurd hm (by decide)
      | exact .found (by rw [hl]; decide) (by decide)
      | exact .next (by rw [hl]; decide) (by decide) (by decide) (.inl ⟨rfl, rfl⟩) (by simp [hkey])
      | exact .next (by rw [hl]; decide) (by decide) (by decide)
          (.inr ⟨rfl, by rw [hl]; decide⟩) (by simp [hkey])

theorem probe_probes (hm : made < request) :
    Probes partition address request entry slot made matchSlot
      (probe partition address request entry slot made matchSlot) := by
  rcases matchOf_cases partition address entry with
    ⟨hh, hl⟩ | ⟨hh, ⟨hp, hl⟩ | ⟨hp, ⟨hc, hl⟩ | ⟨ha, hl⟩⟩⟩
  · have hn : matchOf partition address entry ≤ made := hl ▸ Nat.zero_le _
    unfold probe
    have htoward : _ ∧ sortKey partition address < entry.key ∨ _ :=
      cmp_toward hh key_lt_of_hash_lt key_lt_of_hash_lt
    rcases htoward with ⟨ho, hkey⟩ | ⟨ho, hkey⟩ <;> rw [ho] <;>
      exact .next hn (Nat.le_refl _) hm (.inl ⟨rfl, rfl⟩) (by simp [hkey])
  · exact probes_of_ne hm (cmp_toward hp (key_lt_of_partition_lt hh.symm)
      (key_lt_of_partition_lt hh)) (cmp_eq_eq.mpr hh.symm) (.inl ⟨hl, rfl⟩)
  · exact probes_of_ne hm (cmp_toward hc (key_lt_of_context_lt hh.symm hp.symm)
      (key_lt_of_context_lt hh hp)) (cmp_eq_eq.mpr hh.symm)
      (.inr ⟨hl, cmp_eq_eq.mpr hp.symm, rfl⟩)
  · unfold probe
    rw [ha, cmp_eq_eq.mpr rfl, cmp_eq_eq.mpr hp.symm, cmp_eq_eq.mpr rfl]
    cases made <;> cases request <;>
      first
      | exact absurd hm (by decide)
      | exact .found (by rw [hl]; decide) (by decide)

theorem probe_found_le {level found} (hm : made < request)
    (h : probe partition address request entry slot made matchSlot = .found level found) :
    level ≤ request := by
  unfold probe at h
  cases made <;> cases request <;> first | exact absurd hm (by decide) | simp at h
  all_goals grind [StoreMatch.le_iff, StoreMatch.rank]

end Probe

/-! ## The whole search -/

section Search

variable {slots : List ImmutableStoreEntry} {partition : Partition} {address : Address}
  {request : StoreMatch}

/-- What the search knows between two probes: the key lies between `start` and `stop`, and
nothing at the edges matches better than what it remembers. -/
structure SearchInv (slots : List ImmutableStoreEntry) (partition : Partition)
    (address : Address) (request : StoreMatch) (start stop : Nat) (made : StoreMatch)
    (matchSlot : Nat) : Prop where
  startLe : start ≤ stop
  stopLe : stop ≤ slots.length
  before : ∀ i e, slots[i]? = some e → i < start → e.key < sortKey partition address
  after : ∀ i e, slots[i]? = some e → stop ≤ i → sortKey partition address < e.key
  edgeBefore : ∀ e, slots[start - 1]? = some e → 0 < start → matchOf partition address e ≤ made
  edgeAfter : ∀ e, slots[stop]? = some e → matchOf partition address e ≤ made
  matched : made ≠ .matchNone →
    ∃ e, slots[matchSlot]? = some e ∧ made ≤ matchOf partition address e
  unmet : made < request

/-- What the search answers. Short of the request, the match is the best the bucket holds
and the insertion slot is where the key belongs. -/
structure LookupSpec (slots : List ImmutableStoreEntry) (partition : Partition)
    (address : Address) (request : StoreMatch) (slot insertSlot : Nat) (made : StoreMatch) :
    Prop where
  insertLe : insertSlot ≤ slots.length
  before : ∀ i e, slots[i]? = some e → i < insertSlot → e.key < sortKey partition address
  matched : made ≠ .matchNone →
    ∃ e, slots[slot]? = some e ∧ made ≤ matchOf partition address e
  after : made < request →
    ∀ i e, slots[i]? = some e → insertSlot ≤ i → sortKey partition address < e.key
  best : made < request → ∀ e ∈ slots, matchOf partition address e ≤ made

section

variable (hsorted : slots.Pairwise fun a b => a.key < b.key) {i j : Nat} {a b}
  (hi : slots[i]? = some a) (hj : slots[j]? = some b)
include hsorted hi hj

theorem key_lt_of_lt (hij : i < j) : a.key < b.key := by
  obtain ⟨hilt, rfl⟩ := List.getElem?_eq_some_iff.mp hi
  obtain ⟨hjlt, rfl⟩ := List.getElem?_eq_some_iff.mp hj
  exact pairwise_iff_getElem.mp hsorted i j hilt hjlt hij

theorem key_le_of_le (hij : i ≤ j) : a.key ≤ b.key := by
  rcases Nat.lt_or_eq_of_le hij with hlt | rfl
  · exact Nat.le_of_lt (key_lt_of_lt hsorted hi hj hlt)
  · cases hi.symm.trans hj
    exact Nat.le_refl _

end

section

variable (hsorted : slots.Pairwise fun a b => a.key < b.key)
include hsorted

/-- At the end of a search that met no entry of the request, no entry matches better than
the best one passed: any other is further from the key than one of the edges. -/
theorem SearchInv.best {start : Nat} {made} {matchSlot : Nat}
    (h : SearchInv slots partition address request start start made matchSlot) :
    ∀ e ∈ slots, matchOf partition address e ≤ made := by
  intro e he
  obtain ⟨i, hi⟩ := mem_iff_getElem?.mp he
  have hilt := (List.getElem?_eq_some_iff.mp hi).1
  have hst := h.stopLe
  by_cases hlt : i < start
  · obtain ⟨d, hd⟩ : ∃ d, slots[start - 1]? = some d := ⟨_, getElem?_eq_getElem (by omega)⟩
    have hed := key_le_of_le hsorted hi hd (by omega)
    have hdk := h.before _ _ hd (by omega)
    exact Nat.le_trans (matchOf_le_of_between (.inl ⟨hed, Nat.le_of_lt hdk⟩))
      (h.edgeBefore d hd (by omega))
  · obtain ⟨d, hd⟩ : ∃ d, slots[start]? = some d := ⟨_, getElem?_eq_getElem (by omega)⟩
    have hde := key_le_of_le hsorted hd hi (by omega)
    have hkd := h.after _ _ hd (Nat.le_refl _)
    exact Nat.le_trans (matchOf_le_of_between (.inr ⟨Nat.le_of_lt hkd, hde⟩)) (h.edgeAfter d hd)

theorem SearchInv.done {start stop made matchSlot}
    (h : SearchInv slots partition address request start stop made matchSlot) (hle : stop ≤ start) :
    LookupSpec slots partition address request matchSlot start made ∧ made ≤ request := by
  obtain rfl := Nat.le_antisymm h.startLe hle
  exact ⟨{ h with insertLe := h.stopLe, after := fun _ => h.after, best := fun _ => h.best hsorted },
    Nat.le_of_lt h.unmet⟩

theorem SearchInv.next {start stop slot : Nat} {made level} {matchSlot kept : Nat} {order entry}
    (h : SearchInv slots partition address request start stop made matchSlot)
    (hsl : start ≤ slot ∧ slot < stop) (hen : slots[slot]? = some entry)
    (hp : Probes partition address request entry slot made matchSlot (.next order level kept)) :
    SearchInv slots partition address request (if order = .lt then start else slot + 1)
      (if order = .lt then slot else stop) level kept := by
  cases hp with
  | next hb hma hr hk ho =>
    have hm : level ≠ .matchNone →
        ∃ e, slots[kept]? = some e ∧ level ≤ matchOf partition address e := by
      intro hne
      rcases hk with ⟨rfl, rfl⟩ | ⟨rfl, hle⟩
      · exact h.matched hne
      · exact ⟨entry, hen, hle⟩
    rcases ho with ⟨rfl, hkey⟩ | ⟨rfl, hkey⟩
    · exact {
        startLe := hsl.1
        stopLe := Nat.le_trans (Nat.le_of_lt hsl.2) h.stopLe
        before := h.before
        after := fun i e hi hle => Nat.lt_of_lt_of_le hkey (key_le_of_le hsorted hen hi hle)
        edgeBefore := fun e he hpos => Nat.le_trans (h.edgeBefore e he hpos) hma
        edgeAfter := fun e he => by
          cases hen.symm.trans he
          exact hb
        matched := hm
        unmet := hr }
    · exact {
        startLe := hsl.2
        stopLe := h.stopLe
        before := fun i e hi hlt =>
          Nat.lt_of_le_of_lt (key_le_of_le hsorted hi hen (Nat.le_of_lt_succ hlt)) hkey
        after := h.after
        edgeBefore := fun e he _ => by
          cases hen.symm.trans he
          exact hb
        edgeAfter := fun e he => Nat.le_trans (h.edgeAfter e he) hma
        matched := hm
        unmet := hr }

end

theorem lookupFrom_spec {bucket} (hb : Ordered bucket) {fuel start stop made matchSlot}
    (h : SearchInv bucket.slots partition address request start stop made matchSlot)
    (hf : stop - start ≤ fuel) {slot insertSlot result}
    (hl : lookupFrom bucket partition address request fuel start stop made matchSlot
      = (slot, insertSlot, result)) :
    LookupSpec bucket.slots partition address request slot insertSlot result
    ∧ result ≤ request := by
  induction fuel generalizing start stop made matchSlot with
  | zero =>
    cases hl
    exact h.done hb.sorted (by omega)
  | succ fuel ih =>
    rw [lookupFrom] at hl
    by_cases hlt : start < stop
    · rw [if_pos hlt] at hl
      have hmid : start ≤ (start + stop) / 2 ∧ (start + stop) / 2 < stop := by omega
      have hra := h.stopLe
      obtain ⟨entry, he⟩ : ∃ entry, bucket.slots[(start + stop) / 2]? = some entry :=
        ⟨_, getElem?_eq_getElem (by omega)⟩
      have hat : bucket.at? ((start + stop) / 2) = some entry := by
        rw [← Indexed.getElem?_slots hb.indexed, he]
      simp only [hat] at hl
      have hp := @probe_probes partition address request entry ((start + stop) / 2) made
        matchSlot h.unmet
      revert hl hp
      generalize hans : probe partition address request entry ((start + stop) / 2) made matchSlot
        = answer
      intro hl hp
      cases hp with
      | found hle hr =>
        cases hl
        exact ⟨{
          insertLe := Nat.le_trans h.startLe h.stopLe
          before := h.before
          matched := fun _ => ⟨entry, he, hle⟩
          after := fun hlt => absurd hr (Nat.not_le_of_lt hlt)
          best := fun hlt => absurd hr (Nat.not_le_of_lt hlt) }, probe_found_le h.unmet hans⟩
      | @next order level kept hbe hm hr hk ho =>
        have hinv := h.next hb.sorted hmid he (.next hbe hm hr hk ho)
        rcases ho with ⟨rfl, _⟩ | ⟨rfl, _⟩
        · exact ih hinv (by simp; omega) hl
        · exact ih hinv (by simp; omega) hl
    · rw [if_neg hlt] at hl
      cases hl
      exact h.done hb.sorted (by omega)

theorem SearchInv.start {bucket} (hb : Ordered bucket) (hr : request ≠ .matchNone) :
    SearchInv bucket.slots partition address request 0 bucket.entry.length .matchNone 0 := by
  have hl := Indexed.length_slots hb.indexed
  exact {
    startLe := Nat.zero_le _
    stopLe := Nat.le_of_eq hl.symm
    before := fun i e _ hlt => absurd hlt (Nat.not_lt_zero i)
    after := fun i e hi hle => by
      have hilt := (List.getElem?_eq_some_iff.mp hi).1
      omega
    edgeBefore := fun e _ hpos => absurd hpos (Nat.not_lt_zero 0)
    edgeAfter := fun e he => by
      have hilt := (List.getElem?_eq_some_iff.mp he).1
      omega
    matched := (absurd rfl)
    unmet := by cases request <;> first | exact absurd rfl hr | decide }

section

variable {bucket : ImmutableStoreBucket} (hb : Ordered bucket) (hr : request ≠ .matchNone)
  {slot insertSlot : Nat} {made : StoreMatch}
  (h : lookup bucket partition address request = (slot, insertSlot, made))
include hb hr h

theorem lookup_spec : LookupSpec bucket.slots partition address request slot insertSlot made :=
  (lookupFrom_spec hb (.start hb hr) (Nat.le_of_eq (Nat.sub_zero _)) h).1

theorem lookup_le : made ≤ request :=
  (lookupFrom_spec hb (.start hb hr) (Nat.le_of_eq (Nat.sub_zero _)) h).2

end

end Search

end Lore.Storage
