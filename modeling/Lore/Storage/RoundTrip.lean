import Mathlib.Data.List.Nodup
import Lore.Storage.TreeStream
import Lore.Storage.WriteSpec

/-!
# RoundTrip — what was written reads back

A write puts every fragment of its tree under the hash of its bytes, or finds one
there already. As long as the entry found under each hash is of the tier and size the
tree needs there, the store holds the content as a tree when the write returns, of
at most six levels of lists, and both readers deliver every range of it. The hash of
a fragment covers its bytes and not its header, so the condition is needed: a chunk
that is byte for byte a list stored before is not stored again, and its address
reads back as the content below that list.
-/

namespace Lore.Storage

open Lore.Lib List FragmentFlags

section Stored

variable (host : Host) (partition : Partition) (context : Context)

/-- Whatever the store holds under the hash of one of the tasks stands for it. -/
def Agrees (tasks : List ChunkTask) (store : ContentStore) : Prop :=
  ∀ task ∈ tasks, ∀ entry, store partition ⟨host.hash task.bytes, context⟩ = some entry →
    StandsFor host entry task

/-- The store holds the task's fragment. -/
structure Stored (store : ContentStore) (task : ChunkTask) : Prop where
  hash_ne : isZero (host.hash task.bytes) = false
  held : ∃ entry, store partition ⟨host.hash task.bytes, context⟩ = some entry ∧
    StandsFor host entry task

/-- The fragments of a write are told apart by their hashes: no two different payloads
of it share one, no payload of it has two headers, and what the store holds under
one of the hashes stands for the fragment. -/
structure PayloadsApart (tasks : List ChunkTask) (store : ContentStore) : Prop where
  bytes : ∀ t ∈ tasks, ∀ u ∈ tasks, host.hash t.bytes = host.hash u.bytes → t.bytes = u.bytes
  header : ∀ t ∈ tasks, ∀ u ∈ tasks, t.bytes = u.bytes → t.fragment = u.fragment
  held : Agrees host partition context tasks store

end Stored

variable {host : Host} {mode : CompressionMode} {partition : Partition} {context : Context}
  {options : WriteOptions}

variable {store store' : ContentStore}

theorem storeFragment_ok {address fragment buffer}
    (h : storeFragment host mode partition address fragment buffer store = .ok store') :
    isZero address.hash = false ∧
      ((∃ entry, store partition address = some entry ∧ store' = store) ∨
        (store partition address = none ∧
          store' = leaderBody host mode partition address fragment buffer store)) := by
  simp only [storeFragment] at h
  split_ifs at h with hze
  have hz : isZero address.hash = false := by
    cases hz : isZero address.hash with
    | false => rfl
    | true => exact absurd (.inl hz) hze
  refine ⟨hz, ?_⟩
  cases hs : store partition address with
  | some entry =>
    rw [hs] at h
    cases h
    exact .inl ⟨entry, rfl, rfl⟩
  | none =>
    rw [hs] at h
    cases h
    exact .inr ⟨rfl, rfl⟩

theorem StandsFor.of_same {entry t u} (h : StandsFor host entry t) (hb : t.bytes = u.bytes)
    (hf : t.fragment = u.fragment) : StandsFor host entry u :=
  ⟨hf ▸ h.tier, hf ▸ h.size, h.plain, hb ▸ h.expands⟩

/-- **One store.** It keeps what the store holds in agreement with the write, keeps
every entry, and leaves the task's fragment in the store. -/
theorem storeChunk_stored (hc : host.DecodesEncoded) (hsto : options.hashOnly = false)
    {tasks task address} (hmem : task ∈ tasks) (hta : WriteTask options task)
    (hp : PayloadsApart host partition context tasks store)
    (h : storeChunk host mode partition context options task store = .ok (address, store')) :
    PayloadsApart host partition context tasks store' ∧
      (∀ a entry, store partition a = some entry → store' partition a = some entry) ∧
      Stored host partition context store' task := by
  unfold storeChunk at h
  rw [if_neg (by simp [hsto])] at h
  obtain ⟨store₁, hput, h⟩ := bind_eq_ok.mp h
  cases h
  obtain ⟨hz, ⟨entry, hs, rfl⟩ | ⟨hs, rfl⟩⟩ := storeFragment_ok hput
  · exact ⟨hp, fun _ _ h => h, hz, entry, hs, hp.held task hmem entry hs⟩
  · have hst : StandsFor host (preparePayload host mode task.fragment task.bytes) task :=
      hta.standsFor hc
    generalize hen : preparePayload host mode task.fragment task.bytes = entry at hst
    have hl : leaderBody host mode partition ⟨host.hash task.bytes, context⟩ task.fragment
        task.bytes store
        = store.put partition ⟨host.hash task.bytes, context⟩ entry.1 entry.2 := by
      rw [leaderBody, hen]
    rw [hl]
    refine ⟨⟨hp.bytes, hp.header, fun t ht e he => ?_⟩, fun a e he => ?_, hz, entry,
      ContentStore.put_same .., hst⟩
    · by_cases hsa : host.hash t.bytes = host.hash task.bytes
      · have hb := hp.bytes task hmem t ht hsa.symm
        rw [hsa, ContentStore.put_same] at he
        cases he
        exact hst.of_same hb (hp.header task hmem t ht hb)
      · rw [ContentStore.put_ne _ _ _ _ (by simpa using hsa)] at he
        exact hp.held t ht e he
    · by_cases hsa : a = ⟨host.hash task.bytes, context⟩
      · rw [hsa, hs] at he
        cases he
      · rw [ContentStore.put_ne _ _ _ _ hsa]
        exact he

theorem storeChunks_stored (hc : host.DecodesEncoded) (hsto : options.hashOnly = false)
    {tasks all list} (hsub : ∀ t ∈ tasks, t ∈ all) (hta : ∀ t ∈ tasks, WriteTask options t)
    (hp : PayloadsApart host partition context all store)
    (h : storeChunks host mode partition context options tasks store = .ok (list, store')) :
    PayloadsApart host partition context all store' ∧
      (∀ a entry, store partition a = some entry → store' partition a = some entry) ∧
      ∀ t ∈ tasks, Stored host partition context store' t := by
  induction tasks generalizing store list with
  | nil =>
    cases h
    exact ⟨hp, fun _ _ h => h, by simp⟩
  | cons task tasks ih =>
    obtain ⟨store₁, list', hf, hr, -⟩ := storeChunks_cons.mp h
    obtain ⟨hp₁, hkeep₁, hst⟩ := storeChunk_stored hc hsto (hsub task (by simp))
      (hta task (by simp)) hp hf
    obtain ⟨hp', hk, hrS⟩ := ih (fun t ht => hsub t (by simp [ht]))
      (fun t ht => hta t (by simp [ht])) hp₁ hr
    refine ⟨hp', fun a e he => hk a e (hkeep₁ a e he), fun t ht => ?_⟩
    rcases mem_cons.mp ht with rfl | ht
    · obtain ⟨entry, hen, hsta⟩ := hst.held
      exact ⟨hst.hash_ne, entry, hk _ _ hen, hsta⟩
    · exact hrS t ht

/-! ## From stored fragments to a held tree -/

variable {store : ContentStore} {content : Bytes}

theorem Stored.holdsLeaf {bytes offset}
    (h : Stored host partition context store (leafTask options bytes offset))
    (hle : bytes.length ≤ fragmentSizeThreshold) :
    HoldsLeaf host store partition context (host.hash bytes) bytes := by
  obtain ⟨⟨fragment, payload⟩, hs, hst⟩ := h.held
  obtain ⟨f, he⟩ := hst.expands
  refine ⟨h.hash_ne, rfl, fragment, payload, f, hs, ?_, ?_, he⟩
  · exact hst.tier.trans (asU32_leaf options _ _).1
  · have hsi : fragment.sizeContent = UInt64.ofNat bytes.length := hst.size
    rw [hsi]
    exact (toNat_ofNat_length hle).2

theorem Stored.holdsList {references size offset}
    (h : Stored host partition context store (listTask options references size offset))
    (hsi : size < u64Limit) :
    HoldsList host store partition context (host.hash (listBytes references)) references size := by
  obtain ⟨⟨fragment, payload⟩, hs, hst⟩ := h.held
  obtain ⟨f, he⟩ := hst.expands
  have hf : fragment.isFragmented = true := hst.tier.trans (asU32_list options _ _).1
  have hp : fragment.isCompressed = false := hst.plain hf
  obtain ⟨hc, ⟨-, -, hb⟩ | ⟨hco, -⟩⟩ := expandPayload_ok he
  · obtain rfl : payload = listBytes references := hb.symm
    refine ⟨h.hash_ne, rfl, fragment, hs, hf, hp, ?_, hc⟩
    have hsi' : fragment.sizeContent = UInt64.ofNat size := hst.size
    rw [hsi']
    exact UInt64.toNat_ofNat_of_lt' hsi
  · rw [hp] at hco
    cases hco

theorem nextOffset_append (xs ys : List FragmentReference) (levelEnd : Nat) :
    nextOffset (xs ++ ys) levelEnd = nextOffset xs (nextOffset ys levelEnd) := by
  cases xs <;> rfl

theorem entryWindows_append (xs ys : List FragmentReference) (levelEnd : Nat) :
    entryWindows (xs ++ ys) levelEnd
      = entryWindows xs (nextOffset ys levelEnd) ++ entryWindows ys levelEnd := by
  induction xs with
  | nil => rfl
  | cons r xs ih => simp [entryWindows, ih, nextOffset_append]

variable {levelEnd : Nat} {r : FragmentReference} {list : List FragmentReference}
  {contentSize : Nat} {tree : ContentTree}

theorem ValidLevel.split {xs ys} (h : ValidLevel (xs ++ ys) levelEnd) :
    ValidLevel xs (nextOffset ys levelEnd) ∧ ValidLevel ys levelEnd := by
  have hwi : ∀ w ∈ entryWindows (xs ++ ys) levelEnd, w.start < w.stop :=
    fun w hw => (h.tiles.mem_bounds hw).2.1
  rw [entryWindows_append] at hwi
  exact ⟨⟨fun r hr => h.hashes r (by simp [hr]),
      tiles_entryWindows fun w hw => hwi w (by simp [hw])⟩,
    ⟨fun r hr => h.hashes r (by simp [hr]), tiles_entryWindows fun w hw => hwi w (by simp [hw])⟩⟩

theorem Holds.split {height xs ys}
    (h : Holds host store partition context content height (xs ++ ys) levelEnd) :
    Holds host store partition context content height xs (nextOffset ys levelEnd) ∧
      Holds host store partition context content height ys levelEnd := by
  obtain ⟨hx, hy⟩ := h.valid.split
  have hzip : (xs ++ ys).zip (entryWindows (xs ++ ys) levelEnd)
      = xs.zip (entryWindows xs (nextOffset ys levelEnd)) ++ ys.zip (entryWindows ys levelEnd) := by
    rw [entryWindows_append, zip_append (length_entryWindows _ _).symm]
  cases height with
  | zero | succ height =>
    have he := h.2
    rw [hzip] at he
    exact ⟨⟨hx, fun p hp => he p (by simp [hp])⟩, ⟨hy, fun p hp => he p (by simp [hp])⟩⟩

section

variable (hlt : r.offsetContent.toNat < nextOffset list levelEnd)
include hlt

theorem ValidLevel.cons (hz : isZero r.hash = false) (h : ValidLevel list levelEnd) :
    ValidLevel (r :: list) levelEnd := ⟨by simpa [hz] using h.hashes, rfl, hlt, h.tiles⟩

theorem Holds.cons_leaf
    (hsi : nextOffset list levelEnd - r.offsetContent.toNat ≤ fragmentSizeThreshold)
    (hl : HoldsLeaf host store partition context r.hash
      (slice content ⟨r.offsetContent.toNat, nextOffset list levelEnd⟩))
    (h : Holds host store partition context content 0 list levelEnd) :
    Holds host store partition context content 0 (r :: list) levelEnd := by
  refine ⟨h.valid.cons hlt hl.hash_ne, fun p hp => ?_⟩
  rcases mem_cons.mp hp with rfl | hp
  · exact ⟨hsi, hl⟩
  · exact h.2 p hp

theorem Holds.cons_list {height} (sub : List FragmentReference)
    (hsub : HoldsList host store partition context r.hash sub
      (nextOffset list levelEnd - r.offsetContent.toNat))
    (hst : nextOffset sub (nextOffset list levelEnd) = r.offsetContent.toNat)
    (hb : Holds host store partition context content height sub (nextOffset list levelEnd))
    (h : Holds host store partition context content (height + 1) list levelEnd) :
    Holds host store partition context content (height + 1) (r :: list) levelEnd := by
  refine ⟨h.valid.cons hlt hsub.hash_ne, fun p hp => ?_⟩
  rcases mem_cons.mp hp with rfl | hp
  · exact ⟨sub, hsub, hst, hb⟩
  · exact h.2 p hp

end

/-! ## Level by level -/

theorem toNat_ofNat_offset {offset} (h : offset < u64Limit) :
    (UInt64.ofNat offset).toNat = offset := UInt64.toNat_ofNat_of_lt' h

theorem holds_leaves (hl : content.length < u64Limit) {spans lo hi} (hti : Tiles lo spans hi)
    (hhi : hi ≤ content.length) (hsi : ∀ s ∈ spans, s.length ≤ fragmentSizeThreshold)
    (hst : ∀ s ∈ spans, Stored host partition context store
      (leafTask options (slice content s) s.start)) :
    Holds host store partition context content 0
        (spans.map fun s => (leafTask options (slice content s) s.start).reference host) hi ∧
      nextOffset
        (spans.map fun s => (leafTask options (slice content s) s.start).reference host) hi
        = lo := by
  induction spans generalizing lo with
  | nil =>
    obtain rfl : lo = hi := hti
    exact ⟨⟨⟨by simp, rfl⟩, by simp⟩, rfl⟩
  | cons s spans ih =>
    obtain ⟨rfl, hlt, hr⟩ := hti
    obtain ⟨hh, hn⟩ := ih hr (fun t ht => hsi t (by simp [ht]))
      (fun t ht => hst t (by simp [ht]))
    have hle := hr.le
    have hoff : ((leafTask options (slice content s) s.start).reference host).offsetContent.toNat
        = s.start := toNat_ofNat_offset (show s.start < u64Limit by omega)
    have hsl : (slice content s).length = s.length := length_slice_of_le (by omega)
    have hsiz := hsi s (by simp)
    refine ⟨hh.cons_leaf (by rw [hn, hoff]; exact hlt) ?_ ?_, hoff⟩
    · rw [hn, hoff]
      exact hsiz
    · rw [hn, hoff]
      exact (hst s (by simp)).holdsLeaf (by rw [hsl]; exact hsiz)

/-- One round of the loop that splits a list: a chunk of at most 6553 references is cut
off, of at least 6552 where it is not the last. -/
theorem listTasks_cons {fuel chunkContentOffset first rest tasks}
    (h : listTasks options contentSize (fuel + 1) (first :: rest) chunkContentOffset = .ok tasks) :
    ∃ chunk later tasks', first :: rest = (first :: chunk) ++ later ∧
      chunk.length + 1 ≤ 6553 ∧ (later = [] ∨ 6552 ≤ chunk.length + 1) ∧
      first.offsetContent.toNat ≤ nextOffset later contentSize ∧
      tasks = listTask options (first :: chunk)
        (nextOffset later contentSize - first.offsetContent.toNat) chunkContentOffset :: tasks' ∧
      listTasks options contentSize fuel later (chunkContentOffset
        + (nextOffset later contentSize - first.offsetContent.toNat)) = .ok tasks' := by
  unfold listTasks at h
  simp only at h
  have hc : ∃ count, listChunkSize ((first :: rest).length * referenceSize) maxChunkSize
      / referenceSize = count + 1 ∧ count + 1 ≤ 6553 ∧
      ((first :: rest).length ≤ count + 1 ∨ 6552 ≤ count + 1) := by
    have hmax : maxChunkSize = 262120 := by decide
    simp only [listChunkSize, hmax, referenceSize, length_cons]
    by_cases hone : (rest.length + 1) * 40 = 262120 + 40
    · rw [if_pos hone]
      exact ⟨6551, by omega, by omega, .inr (by omega)⟩
    · rw [if_neg hone]
      by_cases hf : 6553 ≤ rest.length + 1
      · exact ⟨6552, by omega, by omega, .inr (by omega)⟩
      · exact ⟨rest.length, by omega, by omega, .inl (by omega)⟩
  obtain ⟨count, hc, hle, hl⟩ := hc
  rw [hc] at h
  obtain ⟨size, hsub, h⟩ := bind_eq_ok.mp h
  obtain ⟨next, hadd, h⟩ := bind_eq_ok.mp h
  obtain ⟨tasks', ht, h⟩ := bind_eq_ok.mp h
  cases h
  obtain rfl := addU64_eq_ok hadd
  obtain ⟨_, hsub⟩ := ite_ok_or_error.mp hsub
  next ho =>
    cases hsub
    refine ⟨rest.take count, rest.drop count, tasks', ?_, ?_, ?_, ho, rfl, ht⟩
    · rw [cons_append, take_append_drop]
    · rw [length_take]
      omega
    · rcases hl with hl | hl
      · exact .inl (drop_eq_nil_of_le (by rw [length_cons] at hl; omega))
      · by_cases hr : rest.length ≤ count
        · exact .inl (drop_eq_nil_of_le hr)
        · rw [length_take]
          omega

/-- The lists a level is split into: each fits one fragment, and there are about 6552
times fewer of them than references. -/
theorem listTasks_shape {fuel references offset tasks}
    (h : listTasks options contentSize fuel references offset = .ok tasks) :
    tasks.length * 6552 ≤ references.length + 6551 ∧ ∀ t ∈ tasks, WriteTask options t := by
  induction fuel generalizing references offset tasks <;> cases references
  case zero.nil | succ.nil =>
    cases h
    simp
  case zero.cons => cases h
  case succ.cons fuel ih first rest =>
    obtain ⟨chunk, later, tasks', hsp, hle, hl, -, rfl, hta⟩ := listTasks_cons h
    have hlen := congrArg length hsp
    rw [length_append, length_cons, length_cons] at hlen
    obtain ⟨hc, hsh⟩ := ih hta
    constructor
    · rw [length_cons, length_cons, Nat.succ_mul]
      rcases hl with rfl | hl
      · unfold listTasks at hta
        cases hta
        simp only [length_nil]
        omega
      · generalize tasks'.length * 6552 = below at hc
        omega
    · intro t ht
      rcases mem_cons.mp ht with rfl | ht
      · refine .list _ _ ?_
        rw [length_cons]
        unfold referenceSize fragmentSizeThreshold
        omega
      · exact hsh t ht

theorem holds_lists {height} (hsi : contentSize < u64Limit) {fuel references tasks}
    (hh : Holds host store partition context content height references contentSize)
    (h : listTasks options contentSize fuel references (nextOffset references contentSize)
      = .ok tasks) (hst : ∀ t ∈ tasks, Stored host partition context store t) :
    Holds host store partition context content (height + 1) (tasks.map (·.reference host))
        contentSize ∧
      nextOffset (tasks.map (·.reference host)) contentSize
        = nextOffset references contentSize := by
  induction fuel generalizing references tasks <;> cases references
  case zero.nil | succ.nil =>
    cases h
    exact ⟨⟨⟨by simp, rfl⟩, by simp⟩, rfl⟩
  case zero.cons => cases h
  case succ.cons fuel ih first rest =>
    rw [nextOffset_cons] at h ⊢
    obtain ⟨chunk, later, tasks', hsp, -, -, hoff, rfl, hta⟩ := listTasks_cons h
    rw [hsp] at hh
    obtain ⟨hc, hl⟩ := hh.split
    rw [Nat.add_sub_cancel' hoff] at hta
    obtain ⟨hre, hne⟩ := ih hl hta (fun t ht => hst t (by simp [ht]))
    -- the chunk is not empty, so its content is not
    have hlt : first.offsetContent.toNat < nextOffset later contentSize := by
      obtain ⟨-, hpos, htai⟩ := hc.valid.tiles
      exact Nat.lt_of_lt_of_le hpos htai.le
    have hli := hst _ (mem_cons_self ..)
    have hend : nextOffset later contentSize ≤ contentSize := hl.valid.tiles.le
    have hr : ((listTask options (first :: chunk)
        (nextOffset later contentSize - first.offsetContent.toNat)
        first.offsetContent.toNat).reference host).offsetContent.toNat
        = first.offsetContent.toNat :=
      toNat_ofNat_offset (show first.offsetContent.toNat < u64Limit by omega)
    refine ⟨Holds.cons_list ?_ (first :: chunk) ?_ ?_ ?_ hre, hr⟩
    · rw [hr, hne]
      exact hlt
    · rw [hr, hne]
      exact hli.holdsList (by omega)
    · rw [hr, nextOffset_cons]
    · rw [hne]
      exact hc

theorem holds_packLists (hsi : contentSize < u64Limit) (k : Nat) {fuel height references root lists}
    (hlen : references.length ≤ 6552 ^ (k + 1))
    (hh : Holds host store partition context content height references contentSize)
    (hf : nextOffset references contentSize = 0)
    (h : packLists host options contentSize fuel references = .ok (lists, root))
    (hst : ∀ t ∈ lists, Stored host partition context store t) :
    ∃ height', height' ≤ height + k ∧
      Holds host store partition context content height' root contentSize ∧
      nextOffset root contentSize = 0 := by
  induction k generalizing fuel height references lists with
  | zero =>
    have hfi : references.length * referenceSize ≤ fragmentSizeThreshold := by
      unfold referenceSize fragmentSizeThreshold
      omega
    unfold packLists at h
    rw [if_pos hfi] at h
    cases h
    exact ⟨height, by omega, hh, hf⟩
  | succ k ih =>
    unfold packLists at h
    by_cases hfi : references.length * referenceSize ≤ fragmentSizeThreshold
    · rw [if_pos hfi] at h
      cases h
      exact ⟨height, by omega, hh, hf⟩
    · rw [if_neg hfi] at h
      cases fuel with
      | zero => cases h
      | succ fuel =>
        obtain ⟨tasks, hta, h⟩ := bind_eq_ok.mp h
        obtain ⟨⟨above, root'⟩, ha, h⟩ := bind_eq_ok.mp h
        cases h
        obtain ⟨hc, -⟩ := listTasks_shape hta
        rw [← hf] at hta
        obtain ⟨hnH, hn⟩ := holds_lists hsi hh hta
          (fun t ht => hst t (by simp [ht]))
        obtain ⟨height', hle, hr, hz⟩ := ih (by
          rw [length_map]
          omega) hnH (hn.trans hf) ha (fun t ht => hst t (by simp [ht]))
        exact ⟨height', by omega, hr, hz⟩

theorem packLists_shape {fuel references root lists}
    (h : packLists host options contentSize fuel references = .ok (lists, root)) :
    (∀ t ∈ lists, WriteTask options t) ∧ root.length * referenceSize ≤ fragmentSizeThreshold := by
  induction fuel generalizing references lists with
  | zero =>
    obtain ⟨_, h⟩ := ite_ok_or_error.mp h
    cases h
    exact ⟨by simp, by assumption⟩
  | succ fuel ih =>
    unfold packLists at h
    split at h
    · cases h
      exact ⟨by simp, by assumption⟩
    · obtain ⟨tasks, hta, h⟩ := bind_eq_ok.mp h
      obtain ⟨⟨above, root'⟩, ha, h⟩ := bind_eq_ok.mp h
      cases h
      obtain ⟨hsh, hr⟩ := ih ha
      refine ⟨fun t ht => ?_, hr⟩
      rcases mem_append.mp ht with ht | ht
      · exact (listTasks_shape hta).2 t ht
      · exact hsh t ht

theorem contentTree_cases (hcut : host.CutsFragments)
    (h : contentTree host options content = .ok tree) :
    (content.length ≤ fragmentSizeThreshold ∧ tree = ⟨[], [], leafTask options content 0⟩) ∨
      (fragmentSizeThreshold < content.length ∧ ∃ root,
        packLists host options content.length (leafTasks host options content).length
            ((leafTasks host options content).map (·.reference host)) = .ok (tree.lists, root) ∧
        tree.leaves = leafTasks host options content ∧
        tree.root = listTask options root content.length 0) := by
  unfold contentTree at h
  by_cases hsm : content.length ≤ fragmentSizeThreshold
  · rw [if_pos hsm] at h
    cases h
    exact .inl ⟨hsm, rfl⟩
  · rw [if_neg hsm] at h
    refine .inr ⟨by omega, ?_⟩
    split at h
    · next hw => exact absurd hw (chunkBoundaries_head?_ne hcut options (by omega))
    · obtain ⟨⟨lists, root⟩, hp, h⟩ := bind_eq_ok.mp h
      cases h
      exact ⟨root, hp, rfl, rfl⟩

theorem contentTree_shape (hcut : host.CutsFragments)
    (h : contentTree host options content = .ok tree) : ∀ t ∈ tree.tasks, WriteTask options t := by
  intro t ht
  rw [ContentTree.tasks] at ht
  rcases contentTree_cases hcut h with ⟨hsm, rfl⟩ | ⟨-, root, hp, hl, hr⟩
  · obtain rfl : t = leafTask options content 0 := by simpa using ht
    exact .leaf 0 hsm
  · obtain ⟨hli, hf⟩ := packLists_shape hp
    obtain ⟨hti, hsi⟩ := chunkBoundaries_tiles hcut options content
    simp only [mem_append, mem_singleton] at ht
    rcases ht with (ht | ht) | rfl
    · rw [hl] at ht
      obtain ⟨s, hs, rfl⟩ := mem_map.mp ht
      refine .leaf _ ?_
      rw [length_slice_of_le (hti.mem_bounds hs).2.2]
      exact hsi s hs
    · exact hli t ht
    · rw [hr]
      exact .list _ _ hf

/-- **A store that holds the fragments of a write holds its content**: as one leaf, or as
the tree below the root list. -/
theorem contentTree_held (hcut : host.CutsFragments) (hl : content.length < u64Limit)
    (htr : contentTree host options content = .ok tree)
    (hst : ∀ t ∈ tree.tasks, Stored host partition context store t) :
    (content.length ≤ fragmentSizeThreshold ∧
        HoldsLeaf host store partition context (host.hash tree.root.bytes) content) ∨
      (fragmentSizeThreshold < content.length ∧ ∃ root height, height ≤ 5 ∧
        HoldsList host store partition context (host.hash tree.root.bytes) root content.length ∧
        Holds host store partition context content height root content.length ∧
        nextOffset root content.length = 0) := by
  rw [ContentTree.tasks] at hst
  rcases contentTree_cases hcut htr with ⟨hsm, rfl⟩ | ⟨hla, root, hp, hle, hr⟩
  · exact .inl ⟨hsm, (hst (leafTask options content 0) (by simp)).holdsLeaf hsm⟩
  · obtain ⟨hti, hsi⟩ := chunkBoundaries_tiles hcut options content
    have hc : ∀ s ∈ chunkBoundaries host options.cutSize content,
        Stored host partition context store (leafTask options (slice content s) s.start) := by
      intro s hs
      refine hst _ (mem_append_left _ (mem_append_left _ ?_))
      rw [hle]
      exact mem_map_of_mem hs
    obtain ⟨hh, hf⟩ := holds_leaves hl hti (Nat.le_refl _) hsi hc
    have hco := hti.length_le
    have hli : (leafTasks host options content).map (·.reference host)
        = (chunkBoundaries host options.cutSize content).map fun s =>
          (leafTask options (slice content s) s.start).reference host := by
      rw [leafTasks, map_map]
      rfl
    rw [hli] at hp
    obtain ⟨height, hhe, hrH, hz⟩ := holds_packLists hl 5 (by
      rw [length_map]
      unfold u64Limit at hl
      omega) hh hf hp
      (fun t ht => hst t (mem_append_left _ (mem_append_right _ ht)))
    have hrS := hst tree.root (by simp)
    rw [hr] at hrS ⊢
    exact .inr ⟨hla, root, height, by omega, hrS.holdsList hl, hrH, hz⟩

/-- **Write, then read.** If a write of `content` that stores returns an address, then
every range reads back from it, assembled and streamed: whatever the chunking, for
content of any length a `u64` can count. The payloads of the write must be told
apart by their hashes, also from what the store held before. -/
theorem writeContent_readsBack (host : Host) (mode : CompressionMode) (partition : Partition)
    (context : Context) (options : WriteOptions) (readOptions : ReadOptions) (content : Bytes)
    (store store' : ContentStore) (address : Address) (hcut : host.CutsFragments)
    (hcodec : host.DecodesEncoded) (hlimit : content.length < u64Limit)
    (hadmits : readOptions.Admits content.length) (hstore : options.hashOnly = false)
    (hapart : ∀ tree, contentTree host options content = .ok tree →
      PayloadsApart host partition context tree.tasks store)
    (hwrite : writeContent host mode partition context options content store
      = .ok (address, store')) : ReadsBack host store' partition readOptions address content := by
  obtain ⟨tree, list, htr, rfl, hrun⟩ := writeContent_iff.mp hwrite
  obtain ⟨-, -, hst⟩ := storeChunks_stored hcodec hstore (fun _ ht => ht)
    (contentTree_shape hcut htr) (hapart tree htr) hrun
  rcases contentTree_held hcut hlimit htr hst with
    ⟨-, hl⟩ | ⟨-, root, height, hhe, hr, hh, hz⟩
  · exact hl.readsBack hadmits
  · exact hr.readsBack hh hlimit (by unfold maxFragmentTreeDepth; omega) hz hadmits

/-! ## Content of zeros -/

/-- One round of the loop that splits a list, at the chunk it cuts off. -/
theorem listTasks_append {options contentSize fuel offset chunk later size tasks} (hne : chunk ≠ [])
    (hc : listChunkSize ((chunk ++ later).length * referenceSize) maxChunkSize / referenceSize
      = chunk.length) (hs : nextOffset later contentSize = nextOffset chunk contentSize + size)
    (hl : offset + size < u64Limit)
    (hr : listTasks options contentSize fuel later (offset + size) = .ok tasks) :
    listTasks options contentSize (fuel + 1) (chunk ++ later) offset
      = .ok (listTask options chunk size offset :: tasks) := by
  cases chunk with
  | nil => exact absurd rfl hne
  | cons first chunk =>
    rw [nextOffset_cons] at hs
    rw [cons_append] at hc ⊢
    rw [listTasks]
    simp only [hc]
    rw [← cons_append, drop_left' rfl, take_left' rfl, hs, subU64_ok (Nat.le_add_right _ _), ok_bind,
      Nat.add_sub_cancel_left, addU64_ok hl, ok_bind, hr, ok_bind]

/-- A host whose hash is the number of bytes, whether all are zero, and the last eight of them. -/
def tailHost : Host :=
  { plainHost with
    hash := fun bytes => BitVec.ofNat 256 (bytes.length * 2 ^ 72
      + (if bytes.all (· == 0) then 0 else 2 ^ 64) + ofLE (bytes.drop (bytes.length - 8))) }

theorem tailHost_cutsFragments : tailHost.CutsFragments := by
  intro bytes hne
  have hpos := length_pos_iff.mpr hne
  simp only [tailHost, plainHost, fragmentSizeThreshold]
  omega

theorem tailHost_decodesEncoded : tailHost.DecodesEncoded := by
  intro codec bytes compressed h
  cases h

theorem tailHost_replicate (n : Nat) :
    tailHost.hash (replicate n 0) = BitVec.ofNat 256 (n * 2 ^ 72) := by
  simp [tailHost, ofLE_replicate]

theorem tailHost_eq_replicate {bytes : Bytes} {n : Nat} (hlen : bytes.length < u64Limit)
    (hn : n < u64Limit) (h : tailHost.hash bytes = tailHost.hash (replicate n 0)) :
    bytes = replicate n 0 := by
  have hlast : ofLE (bytes.drop (bytes.length - 8)) < 2 ^ 64 := by
    refine Nat.lt_of_lt_of_le (ofLE_lt _) (Nat.pow_le_pow_right (n := 256) (j := 8) (by decide) ?_)
    simp only [length_drop]
    omega
  rw [tailHost_replicate] at h
  have h := congrArg BitVec.toNat h
  simp only [tailHost, BitVec.toNat_ofNat] at h
  rw [u64Limit] at hlen hn
  have hzero : bytes.all (· == 0) = true := by
    by_contra hall
    rw [if_neg hall] at h
    omega
  rw [if_pos hzero] at h
  refine eq_replicate_of_mem (fun b hb => by simpa using all_eq_true.mp hzero b hb) |>.trans ?_
  congr 1
  omega

theorem tailHost_listBytes (references : List FragmentReference) {last : FragmentReference}
    (hlast : last.offsetContent.toNat ≠ 0) :
    tailHost.hash (listBytes (references ++ [last])) = BitVec.ofNat 256
      ((references.length + 1) * 40 * 2 ^ 72 + 2 ^ 64 + last.offsetContent.toNat) := by
  have hlen : (listBytes (references ++ [last])).length = (references.length + 1) * 40 := by
    rw [length_listBytes, length_append]
    rfl
  have hsp : listBytes (references ++ [last])
      = (listBytes references ++ (toLE 32 last.hash.toNat).reverse)
        ++ toLE 8 last.offsetContent.toNat := by
    simp [listBytes, FragmentReference.toBytes]
  have hd : (listBytes (references ++ [last])).drop ((references.length + 1) * 40 - 8)
      = toLE 8 last.offsetContent.toNat := by
    rw [hsp]
    apply drop_left'
    simp only [length_append, length_listBytes, length_reverse, length_toLE, referenceSize]
    omega
  have hoff : ofLE (toLE 8 last.offsetContent.toNat) = last.offsetContent.toNat :=
    ofLE_toLE (Nat.lt_of_lt_of_le last.offsetContent.toNat_lt (by decide))
  have hall : ¬ (listBytes (references ++ [last])).all (· == 0) = true := by
    intro hall
    have hzero := all_eq_true.mp hall
    rw [hsp] at hzero
    have hrep : toLE 8 last.offsetContent.toNat = replicate _ 0 :=
      eq_replicate_of_mem fun b hb => by simpa using hzero b (mem_append_right _ hb)
    rw [hrep, ofLE_replicate] at hoff
    exact hlast hoff.symm
  simp only [tailHost, hlen, hd, if_neg hall, hoff]

/-- The reference to the `size` zeros at `i * size`. -/
def zeroReference (size i : Nat) : FragmentReference :=
  ⟨tailHost.hash (List.replicate size 0), UInt64.ofNat (i * size)⟩

/-- `n` chunks of `size` zeros. -/
def zeros (size n : Nat) : Bytes := List.replicate (n * size) 0

/-- The references to `n` of the chunks from the `first` on. -/
def zeroReferences (size first n : Nat) : List FragmentReference :=
  (List.range' first n).map (zeroReference size)

/-- The options of a write that cuts `size` bytes at a time. -/
def cutBy (size : Nat) : WriteOptions := { WriteOptions.default with fixedSizeChunk := size }

@[simp] theorem length_zeros (size n : Nat) : (zeros size n).length = n * size := by
  rw [zeros, length_replicate]

@[simp] theorem length_zeroReferences (size first n : Nat) :
    (zeroReferences size first n).length = n := by
  rw [zeroReferences, length_map, length_range']

theorem nextOffset_zeroReferences {size first n levelEnd} (h : first * size < u64Limit) :
    nextOffset (zeroReferences size first (n + 1)) levelEnd = first * size := by
  exact toNat_ofNat_offset h

theorem zeroReferences_append (size first m n : Nat) :
    zeroReferences size first m ++ zeroReferences size (first + m) n
      = zeroReferences size first (m + n) := by
  rw [zeroReferences, zeroReferences, zeroReferences, ← map_append, range'_append_1]

theorem slice_zeros (size n : Nat) (s : Span) : slice (zeros size n) s
    = replicate (min s.length (n * size - s.start)) 0 := by
  rw [slice, zeros, drop_replicate, take_replicate]

theorem zeros_leafTasks {size : Nat} (hpos : 0 < size) (hle : size ≤ fragmentSizeThreshold)
    (n : Nat) : leafTasks tailHost (cutBy size) (zeros size n)
      = (range' 0 n).map fun i => leafTask (cutBy size) (replicate size 0) (i * size) := by
  have hb : chunkBoundaries tailHost (cutBy size).cutSize (zeros size n)
      = (range n).map fun i => (⟨i * size, min (i * size + size) (n * size)⟩ : Span) := by
    have hcut : (cutBy size).cutSize = some size := by
      show (if 0 < size then some (min (max size 1) fragmentSizeThreshold) else none) = some size
      rw [Nat.max_eq_left hpos, Nat.min_eq_left hle, if_pos hpos]
    have hdiv : (n * size + (size - 1)) / size = n := by
      rw [Nat.mul_comm, Nat.mul_add_div hpos, Nat.div_eq_of_lt (by omega), Nat.add_zero]
    rw [hcut, chunkBoundaries]
    simp only [length_zeros, hdiv]
  rw [leafTasks, hb, map_map, range_eq_range']
  apply map_congr_left
  intro i hi
  rw [mem_range'_1] at hi
  have hin : i * size + size ≤ n * size := by
    rw [← Nat.succ_mul]
    exact Nat.mul_le_mul_right size (by omega)
  have hsl : slice (zeros size n) ⟨i * size, min (i * size + size) (n * size)⟩
      = replicate size 0 := by
    rw [slice_zeros, Nat.min_eq_left hin]
    simp only [Span.length]
    congr 1
    omega
  simp [hsl]

theorem zeros_references {size : Nat} (hpos : 0 < size) (hle : size ≤ fragmentSizeThreshold)
    (n : Nat) : (leafTasks tailHost (cutBy size) (zeros size n)).map (·.reference tailHost)
      = zeroReferences size 0 n := by
  rw [zeros_leafTasks hpos hle, map_map]
  rfl

theorem tailHost_zeroReferences {size first n} (hpos : 0 < first + n) (hsize : 0 < size)
    (h : (first + n) * size < u64Limit) :
    tailHost.hash (listBytes (zeroReferences size first (n + 1)))
      = BitVec.ofNat 256 ((n + 1) * 40 * 2 ^ 72 + 2 ^ 64 + (first + n) * size) := by
  have hl : zeroReferences size (first + n) 1 = [zeroReference size (first + n)] := rfl
  have ho : (zeroReference size (first + n)).offsetContent.toNat = (first + n) * size :=
    toNat_ofNat_offset h
  rw [← zeroReferences_append size first n 1, hl, tailHost_listBytes, length_zeroReferences, ho]
  rw [ho]
  exact Nat.mul_ne_zero (by omega) (by omega)

/-! References one too many for one list are split into all but two of them and the last
two. The number is kept as a variable: `k = 6551`. -/

/-- The two lists. -/
def zeroLists (k : Nat) : List ChunkTask :=
  [listTask (cutBy 40) (zeroReferences 40 0 (k + 1)) ((k + 1) * 40) 0,
    listTask (cutBy 40) (zeroReferences 40 (k + 1) 2) 80 ((k + 1) * 40)]

/-- The references of the root. -/
def zeroRoot (k : Nat) : List FragmentReference := (zeroLists k).map (·.reference tailHost)

/-- The task of the root. -/
def zeroRootTask (k : Nat) : ChunkTask := listTask (cutBy 40) (zeroRoot k) ((k + 3) * 40) 0

/-- The tree of the content. -/
def zeroTree (k : Nat) : ContentTree :=
  ⟨leafTasks tailHost (cutBy 40) (zeros 40 (k + 3)), zeroLists k, zeroRootTask k⟩

/-- The different fragments of the tree. -/
def zeroKinds (k : Nat) : List ChunkTask :=
  leafTask (cutBy 40) (List.replicate 40 0) 0 :: (zeroLists k ++ [zeroRootTask k])

/-- The first list. -/
abbrev zeroFirst (k : Nat) := listTask (cutBy 40) (zeroReferences 40 0 (k + 1)) ((k + 1) * 40) 0

/-- The last two references. -/
abbrev zeroLast (k : Nat) := listTask (cutBy 40) (zeroReferences 40 (k + 1) 2) 80 ((k + 1) * 40)

theorem zeros_lt_u64Limit : 262160 < u64Limit := by decide

section

variable {k : Nat}

theorem zeros_listTasks (hk : k = 6551) :
    listTasks (cutBy 40) ((k + 3) * 40) (k + 3) (zeroReferences 40 0 (k + 3)) 0 = .ok (zeroLists k) := by
  have hl := zeros_lt_u64Limit
  have hf : nextOffset (zeroReferences 40 0 (k + 1)) ((k + 3) * 40) = 0 * 40 :=
    nextOffset_zeroReferences (by omega)
  have hse : nextOffset (zeroReferences 40 (k + 1) 2) ((k + 3) * 40) = (k + 1) * 40 :=
    nextOffset_zeroReferences (by omega)
  have hla := @listTasks_append (cutBy 40) ((k + 3) * 40) (k + 1) ((k + 1) * 40)
    (zeroReferences 40 (k + 1) 2) [] 80 [] (cons_ne_nil _ _)
    (by rw [append_nil, length_zeroReferences]; decide) (by rw [nextOffset_nil]; omega)
    (by omega) (by rw [listTasks])
  have h := @listTasks_append (cutBy 40) ((k + 3) * 40) (k + 2) 0 (zeroReferences 40 0 (k + 1))
    (zeroReferences 40 (k + 1) 2) ((k + 1) * 40) _ (cons_ne_nil _ _)
    (by
      rw [length_append, length_zeroReferences, length_zeroReferences, listChunkSize, maxChunkSize,
        referenceSize, fragmentSizeThreshold, if_pos (by omega)]
      omega)
    (by rw [hse]; omega) (by omega) (by rw [Nat.zero_add, ← hla, append_nil])
  have ha := zeroReferences_append 40 0 (k + 1) 2
  rw [Nat.zero_add] at ha
  rwa [ha] at h

theorem zeros_contentTree (hk : k = 6551) :
    contentTree tailHost (cutBy 40) (zeros 40 (k + 3)) = .ok (zeroTree k) := by
  have hl : fragmentSizeThreshold < (zeros 40 (k + 3)).length := by
    rw [length_zeros, fragmentSizeThreshold]
    omega
  have hc : (leafTasks tailHost (cutBy 40) (zeros 40 (k + 3))).length = k + 3 := by
    rw [zeros_leafTasks (by decide) (by decide), length_map, length_range']
  have hp : packLists tailHost (cutBy 40) ((k + 3) * 40) (k + 3) (zeroReferences 40 0 (k + 3))
      = .ok (zeroLists k, zeroRoot k) := by
    have hfew : (zeroRoot k).length * referenceSize ≤ fragmentSizeThreshold := by
      have hlen : (zeroRoot k).length = 2 := rfl
      rw [hlen]
      decide
    have ha : packLists tailHost (cutBy 40) ((k + 3) * 40) (k + 2) (zeroRoot k)
        = .ok ([], zeroRoot k) := by
      unfold packLists
      rw [if_pos hfew]
    rw [packLists, length_zeroReferences,
      if_neg (by rw [referenceSize, fragmentSizeThreshold]; omega)]
    simp only [zeros_listTasks hk, ok_bind]
    rw [← zeroRoot, ha]
    simp
  unfold contentTree
  rw [if_neg (by omega), if_neg (chunkBoundaries_head?_ne tailHost_cutsFragments (cutBy 40) hl)]
  have hreferences := @zeros_references 40 (by decide) (by decide) (k + 3)
  simp [hreferences, hc, hp, zeroRootTask, zeroTree]

theorem zeros_kinds {t} (h : t ∈ (zeroTree k).tasks) :
    ∃ kind ∈ zeroKinds k, t.bytes = kind.bytes ∧ t.fragment = kind.fragment := by
  rw [ContentTree.tasks, append_assoc, mem_append] at h
  rcases h with h | h
  · rw [zeroTree, zeros_leafTasks (by decide) (by decide)] at h
    obtain ⟨i, -, rfl⟩ := mem_map.mp h
    exact ⟨_, mem_cons_self .., rfl, rfl⟩
  · exact ⟨t, mem_cons_of_mem _ h, rfl, rfl⟩

section

variable (hk : k = 6551)
include hk

theorem zeroLast_offset : ((zeroLast k).reference tailHost).offsetContent.toNat = (k + 1) * 40 := by
  have hl := zeros_lt_u64Limit
  exact toNat_ofNat_offset (show (k + 1) * 40 < u64Limit by omega)

theorem zeroKinds_hashes :
    (zeroKinds k).map (fun t => tailHost.hash t.bytes)
      = [BitVec.ofNat 256 (40 * 2 ^ 72), BitVec.ofNat 256 (262080 * 2 ^ 72 + 2 ^ 64 + 262040),
        BitVec.ofNat 256 (80 * 2 ^ 72 + 2 ^ 64 + 262120),
        BitVec.ofNat 256 (80 * 2 ^ 72 + 2 ^ 64 + 262080)] := by
  have hl := zeros_lt_u64Limit
  have hr : zeroRoot k
      = [(zeroFirst k).reference tailHost] ++ [(zeroLast k).reference tailHost] := rfl
  have hf := @tailHost_zeroReferences 40 0 k (by omega) (by decide) (by omega)
  have hse := @tailHost_zeroReferences 40 (k + 1) 1 (by omega) (by decide) (by omega)
  have hla : tailHost.hash (listBytes (zeroRoot k))
      = BitVec.ofNat 256 (2 * 40 * 2 ^ 72 + 2 ^ 64 + (k + 1) * 40) := by
    rw [hr, tailHost_listBytes _ (by rw [zeroLast_offset hk]; omega), zeroLast_offset hk,
      length_singleton]
  have hleaf := tailHost_replicate 40
  simp only [zeroKinds, zeroLists, zeroRootTask, map_cons, map_nil, cons_append, nil_append,
    leafTask, listTask, hleaf, hf, hse, hla]
  subst hk
  rfl

theorem zeros_storable : ∀ t ∈ (zeroTree k).tasks, Storable tailHost (cutBy 40) t := by
  intro t ht
  obtain ⟨kind, hki, hb, -⟩ := zeros_kinds ht
  have hh : tailHost.hash kind.bytes ∈ (zeroKinds k).map fun t => tailHost.hash t.bytes :=
    mem_map_of_mem hki
  rw [zeroKinds_hashes hk, ← hb] at hh
  have hz : isZero (tailHost.hash t.bytes) = false := by
    revert hh
    generalize tailHost.hash t.bytes = hash
    intro hh
    simp only [mem_cons, not_mem_nil, or_false] at hh
    rcases hh with rfl | rfl | rfl | rfl <;> decide
  refine ⟨contentTree_shape tailHost_cutsFragments (zeros_contentTree hk) t ht, ?_, hz⟩
  intro hnil
  rw [hnil] at hz
  cases hz

theorem zeros_payloadsApart : PayloadsApart tailHost 0 0 (zeroTree k).tasks (fun _ _ => none) := by
  have hn : ((zeroKinds k).map fun t => tailHost.hash t.bytes).Nodup := by
    rw [zeroKinds_hashes hk]
    decide
  have hsa : ∀ t ∈ (zeroTree k).tasks, ∀ u ∈ (zeroTree k).tasks,
      tailHost.hash t.bytes = tailHost.hash u.bytes →
        t.bytes = u.bytes ∧ t.fragment = u.fragment := by
    intro t ht u hu heq
    obtain ⟨x, hx, hxb, hxf⟩ := zeros_kinds ht
    obtain ⟨y, hy, hyb, hyf⟩ := zeros_kinds hu
    rw [hxb, hyb] at heq
    obtain rfl := inj_on_of_nodup_map hn hx hy heq
    exact ⟨hxb.trans hyb.symm, hxf.trans hyf.symm⟩
  refine ⟨fun t ht u hu heq => (hsa t ht u hu heq).1, fun t ht u hu heq => ?_, ?_⟩
  · exact (hsa t ht u hu (by rw [heq])).2
  · intro t _ entry h
    cases h

theorem zeros_written : ∃ store, writeContent tailHost .noCompression 0 0 (cutBy 40)
    (zeros 40 (k + 3)) (fun _ _ => none)
      = .ok (⟨tailHost.hash (zeroRootTask k).bytes, 0⟩, store)
    ∧ ∀ t ∈ (zeroTree k).tasks, Stored tailHost 0 0 store t := by
  have htr := zeros_contentTree hk
  obtain ⟨store, hrun⟩ := storeChunks_total .noCompression 0 0 (zeros_storable hk) (fun _ _ => none)
  refine ⟨store, writeContent_iff.mpr ⟨_, _, htr, rfl, hrun⟩, ?_⟩
  exact (storeChunks_stored tailHost_decodesEncoded rfl (fun _ ht => ht)
    (contentTree_shape tailHost_cutsFragments htr) (zeros_payloadsApart hk) hrun).2.2

end

end

/-- Zeros cut forty at a time read back: 6554 leaves below two lists and a root. -/
theorem writeContent_readsBack_zeros :
    ∃ address store', writeContent tailHost .noCompression 0 0 (cutBy 40) (zeros 40 6554)
        (fun _ _ => none) = .ok (address, store') ∧
      ReadsBack tailHost store' 0 .default address (zeros 40 6554) := by
  obtain ⟨store, hwrite, -⟩ := @zeros_written 6551 rfl
  have hlen : (zeros 40 6554).length < u64Limit := by
    rw [length_zeros]
    decide
  refine ⟨_, store, hwrite, ?_⟩
  refine writeContent_readsBack tailHost .noCompression 0 0 (cutBy 40) .default (zeros 40 6554)
    (fun _ _ => none) store _ tailHost_cutsFragments tailHost_decodesEncoded hlen ?_ rfl ?_ hwrite
  · intro maximum h
    cases h
  · intro tree htr
    obtain rfl := Except.ok.inj ((@zeros_contentTree 6551 rfl).symm.trans htr)
    exact zeros_payloadsApart rfl

/-! ## Addresses that do not read back -/

/-- The two leaves and the list of them. -/
def listedStore : ContentStore :=
  pairStore.put 0 ⟨plainHost.hash pairList, 0⟩ ⟨FragmentFlags.payloadFragmented, 80, 8⟩ pairList

/-- A write that only hashes returns an address nothing is stored under. Content that
is byte for byte a list in the store is not stored again, and reads back as what the
list stands for. -/
theorem writeContent_not_readsBack :
    (∃ address store', writeContent plainHost .noCompression 0 0
        { WriteOptions.default with hashOnly := true } [1, 2, 3] (fun _ _ => none)
        = .ok (address, store') ∧
      read plainHost store' 0 .default address none = .error (.addressNotFound address)) ∧
    ∃ address store', writeContent plainHost .noCompression 0 0 .default pairList listedStore
        = .ok (address, store') ∧
      read plainHost store' 0 .default address none
        = .ok (⟨payloadFragmented, 80, 8⟩, [1, 2, 3, 4, 5, 6, 7, 8]) ∧
      pairList ≠ [1, 2, 3, 4, 5, 6, 7, 8] := by
  refine ⟨⟨⟨197121#256, 0⟩, _, rfl, rfl⟩, ⟨plainHost.hash pairList, 0⟩, listedStore, ?_, ?_, ?_⟩
  · have hh : listedStore 0 ⟨plainHost.hash pairList, 0⟩
        = some (⟨payloadFragmented, 80, 8⟩, pairList) := ContentStore.put_same ..
    have hput : storeFragment plainHost .noCompression 0 ⟨plainHost.hash pairList, 0⟩
        (leafTask .default pairList 0).fragment pairList listedStore = .ok listedStore := by
      simp only [storeFragment, hh]
      rw [if_neg (by decide +kernel), if_neg (by decide +kernel), if_neg (by decide +kernel)]
    exact bind_eq_ok.mpr ⟨listedStore, hput, rfl⟩
  · decide +kernel
  · decide +kernel

end Lore.Storage
