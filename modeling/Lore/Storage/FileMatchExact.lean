import Lore.Storage.FileMatchSpec

/-!
# FileMatchExact — when comparing a file against stored content is exact

A list that covers no more than one fragment of content is taken for a leaf by the
walk, which then compares the file's bytes with the hash of the list. So comparing
against content is exact, for every file, when no list met on the way down covers
that little, and only then.
-/

namespace Lore.Storage

open Lore.Lib List

/-- What is established of a file is its hash. -/
def ContentHashes.AnswersFor (host : Host) (file : Bytes) (established : ContentHashes) : Prop :=
  ∀ hash, established.whole = some hash → hash = host.hash file

theorem ContentHashes.AnswersFor.default {host file} : AnswersFor host file .default :=
  fun _ h => nomatch h

/-! ## Settled by one hash -/

section

variable {host : Host} {store : ContentStore} {partition : Partition} {previous : Address}
  {previousSize : Option Nat} {file : Bytes} {established : ContentHashes} {fuel : Nat}

theorem wholeContentMatches_eq (hash : Hash) (h : established.AnswersFor host file) :
    ∃ known, wholeContentMatches host file hash established
        = (compareHash (host.hash file) hash, known) ∧ known.AnswersFor host file := by
  unfold wholeContentMatches wholeContentHash
  cases hw : established.whole with
  | some known => exact ⟨established, by simp only [h known hw], h⟩
  | none => exact ⟨_, rfl, fun hash heq => (Option.some.inj heq).symm⟩

theorem compareHash_eq_matched {hash} :
    compareHash hash previous.hash = .matched ↔ hash = previous.hash := by
  unfold compareHash
  split <;> simp_all

theorem fileMatches_sized (h : previousSize.any (· != file.length) = true) :
    fileMatches host store partition fuel previous previousSize (.file (some file)) established
      = .ok (.differs, established) := by
  simp [fileMatches, ContentSource.size, ContentHashes.decides, h]

section

variable (hz : isZero previous.hash = false)
include hz

theorem fileMatches_empty :
    fileMatches host store partition fuel previous previousSize (.file (some [])) established
      = .ok (.differs, established) := by
  simp [fileMatches, ContentSource.size, ContentHashes.decides, hz]

theorem fileMatches_small (h : previousSize.any (· != file.length) = false) (hpos : 0 < file.length)
    (hsm : file.length ≤ fragmentSizeMinimum) (hkn : established.AnswersFor host file) :
    ∃ known, fileMatches host store partition fuel previous previousSize (.file (some file))
        established = .ok (compareHash (host.hash file) previous.hash, known) ∧
      known.AnswersFor host file := by
  have hd : established.decides previous previousSize file.length
      = established.whole.map (compareHash · previous.hash) := by
    simp only [ContentHashes.decides, h, hz, Bool.false_eq_true, if_false]
    rw [if_neg (by omega), if_pos hsm]
  simp only [fileMatches, ContentSource.size, Option.map_some, hd]
  cases hw : established.whole with
  | some hash => exact ⟨established, by simp only [Option.map_some, hkn hash hw], hkn⟩
  | none =>
    obtain ⟨known, hm, hkn'⟩ := wholeContentMatches_eq previous.hash hkn
    refine ⟨known, ?_, hkn'⟩
    simp only [Option.map_none, storedMatches, hm]
    rw [if_pos (.inl hsm)]

theorem fileMatches_large
    (h : previousSize.any (· != file.length) = false) (hl : fragmentSizeMinimum < file.length) :
    fileMatches host store partition fuel previous previousSize (.file (some file)) established
      = storedMatches host store partition fuel previous file established := by
  have hd : established.decides previous previousSize file.length = none := by
    simp only [ContentHashes.decides, h, hz, Bool.false_eq_true, if_false]
    rw [if_neg (by omega), if_neg (by omega)]
  simp [fileMatches, ContentSource.size, hd]

end

/-! ## Settled by what is stored -/

variable {content : Bytes}

theorem storedMatches_leaf (hl : fragmentSizeMinimum < file.length)
    (hle : HoldsLeaf host store partition previous.context previous.hash content)
    (hsi : content.length ≤ fragmentSizeThreshold) (hkn : established.AnswersFor host file) :
    ∃ outcome known, storedMatches host store partition fuel previous file established
        = .ok (outcome, known) ∧ known.AnswersFor host file ∧
      (outcome = .matched ↔ file.length ≤ fragmentSizeThreshold ∧
        host.hash file = previous.hash) := by
  obtain ⟨f, payload, _, hs, hfr, -⟩ := hle.stored
  have hone : storedAsOneFragment store partition previous = true := by
    simp [storedAsOneFragment, hs, hfr]
  unfold storedMatches
  simp only [hone, and_true]
  by_cases hfit : file.length ≤ fragmentSizeThreshold
  · obtain ⟨known, hm, hkn'⟩ := wholeContentMatches_eq previous.hash hkn
    rw [if_pos (.inr hfit), hm]
    exact ⟨_, known, rfl, hkn', by simp [compareHash_eq_matched, hfit]⟩
  · obtain ⟨f, payload, hlo, -, hf⟩ := hle.loadRaw
    rw [if_neg (by omega), hlo]
    simp only
    rw [if_pos (by omega)]
    exact ⟨_, established, rfl, hkn, by simp; omega⟩

theorem HoldsList.notOneFragment {root size}
    (hr : HoldsList host store partition previous.context previous.hash root size) :
    storedAsOneFragment store partition previous = false := by
  obtain ⟨f, hs, hf, -⟩ := hr.stored
  simp [storedAsOneFragment, hs, hf]

theorem storedMatches_walked {root outcome} (hl : fragmentSizeMinimum < file.length)
    (hr : HoldsList host store partition previous.context previous.hash root file.length)
    (hne : root ≠ []) (hset : outcome ≠ .indeterminate)
    (hc : compareChunks host store partition previous.context file fuel root none none
      = .ok outcome) :
    storedMatches host store partition fuel previous file established
      = .ok (outcome, established) := by
  obtain ⟨f, hlo, hfr, hf⟩ := hr.loadRaw
  simp only [storedMatches, hr.notOneFragment, hlo, hfr, asReferences_listBytes, List.isEmpty_iff, hne,
    comparePreviousChunks, hc, ok_bind, Bool.false_eq_true, and_false, or_false,
    Bool.not_true, if_false]
  rw [if_neg (by omega), if_neg (by omega)]

theorem storedMatches_list {root height} (hl : fragmentSizeMinimum < file.length)
    (hr : HoldsList host store partition previous.context previous.hash root content.length)
    (hh : Holds host store partition previous.context content height root content.length)
    (hze : nextOffset root content.length = 0) (hsi : fragmentSizeThreshold < content.length)
    (hkn : established.AnswersFor host file) :
    ∃ enough, ∀ fuel, enough ≤ fuel → ∃ outcome known,
      storedMatches host store partition fuel previous file established = .ok (outcome, known) ∧
      known.AnswersFor host file ∧
      (outcome = .matched ↔ file.length = content.length ∧
        AllEqual host store partition previous.context file root content.length) := by
  have hne : root ≠ [] := by
    rintro rfl
    rw [nextOffset_nil] at hze
    omega
  by_cases hlen : file.length = content.length
  · obtain ⟨steps, hse⟩ := hh.settles (Nat.le_of_eq hlen.symm)
    refine ⟨steps, fun fuel hfu => ?_⟩
    obtain ⟨window, pending, -, hgo, hsto⟩ := hse (fuel - steps) [] none none
      (windowsRead_none file) hlen
    rw [append_nil, Nat.add_sub_cancel' hfu] at hgo hsto
    rw [← hlen] at hr
    by_cases hall : AllEqual host store partition previous.context file root content.length
    · refine ⟨.matched, established, storedMatches_walked hl hr hne (by decide) ?_, hkn,
        by simp [hlen, hall]⟩
      rw [hgo hall, compareChunks]
    · exact ⟨.differs, established, storedMatches_walked hl hr hne (by decide) (hsto hall), hkn,
        by simp [hall]⟩
  · refine ⟨0, fun fuel _ => ⟨.differs, established, ?_, hkn, by simp [hlen]⟩⟩
    obtain ⟨f, hlo, -, hf⟩ := hr.loadRaw
    simp only [storedMatches, hr.notOneFragment, hlo, Bool.false_eq_true, and_false, or_false]
    rw [if_neg (by omega), if_pos (by omega)]

end

/-! ## Exactness -/

section

variable (host : Host) (store : ContentStore) (partition : Partition) (address : Address)
  (content : Bytes)

/-- The comparison of `file` ends, whatever the walk needs to get through the lists, and
answers that it matches exactly when it is the content. -/
def ComparesExactly (previousSize : Option Nat) (file : Bytes) (established : ContentHashes) :
    Prop :=
  ∃ enough, ∀ fuel, enough ≤ fuel → ∃ outcome known,
    fileMatches host store partition fuel address previousSize (.file (some file)) established
      = .ok (outcome, known) ∧
    known.AnswersFor host file ∧ (outcome = .matched ↔ file = content)

/-- The hashes compared tell the file from what was stored: a range of it from the same
range of the content, and the whole of it from the root list. -/
structure ToldApart (file : Bytes) : Prop where
  chunks : ∀ s, host.hash (slice file s) = host.hash (slice content s) →
    slice file s = slice content s
  whole : ∀ root,
    HoldsList host store partition address.context address.hash root content.length →
    host.hash file = address.hash → file = listBytes root

/-- The hashes tell the content from the lists met below its root. -/
def ListsApart : Prop :=
  ∀ root s sub, HoldsList host store partition address.context address.hash root content.length →
    MetList host store partition address.context root content.length s sub →
    host.hash (slice content s) = host.hash (listBytes sub) → slice content s = listBytes sub

/-- Every list met on the way down covers more than a fragment of content, or is byte for
byte what it stands for; and a root list small enough to be taken for a whole file is
only compared against by a caller that knows the size. -/
def ListsTellable (previousSize : Option Nat) : Prop :=
  ∀ root, HoldsList host store partition address.context address.hash root content.length →
    (previousSize = none → fragmentSizeMinimum < (listBytes root).length) ∧
    ∀ s sub, MetList host store partition address.context root content.length s sub →
      fragmentSizeThreshold < s.length ∨ listBytes sub = slice content s

end

section

variable {host : Host} {store : ContentStore} {partition : Partition} {address : Address}
  {content file : Bytes} {previousSize : Option Nat} {established : ContentHashes}

theorem ToldApart.eq_of_hash_eq (h : ToldApart host store partition address content file)
    (heq : host.hash file = host.hash content) : file = content := by
  have hf : slice file ⟨0, max file.length content.length⟩ = file :=
    take_of_length_le (Nat.le_max_left _ _)
  have hc : slice content ⟨0, max file.length content.length⟩ = content :=
    take_of_length_le (Nat.le_max_right _ _)
  have := h.chunks ⟨0, max file.length content.length⟩
  rw [hf, hc] at this
  exact this heq

theorem comparesExactly_of (hz : isZero address.hash = false) (hne : content ≠ [])
    (hsiz : previousSize = none ∨ previousSize = some content.length)
    (hkn : established.AnswersFor host file)
    (hsm : previousSize.any (· != file.length) = false → file.length ≤ fragmentSizeMinimum →
      (host.hash file = address.hash ↔ file = content))
    (hl : fragmentSizeMinimum < file.length → ∃ enough, ∀ fuel, enough ≤ fuel → ∃ outcome known,
        storedMatches host store partition fuel address file established = .ok (outcome, known) ∧
        known.AnswersFor host file ∧ (outcome = .matched ↔ file = content)) :
    ComparesExactly host store partition address content previousSize file established := by
  cases hsi : previousSize.any (· != file.length) with
  | true =>
    refine ⟨0, fun fuel _ => ⟨.differs, established, fileMatches_sized hsi, hkn, ?_⟩⟩
    rcases hsiz with rfl | rfl
    · cases hsi
    · simp only [Option.any_some, bne_iff_ne] at hsi
      simp only [reduceCtorEq, false_iff]
      rintro rfl
      exact hsi rfl
  | false =>
    by_cases hf : file = []
    · subst hf
      exact ⟨0, fun fuel _ => ⟨.differs, established, fileMatches_empty hz, hkn,
        by simp [hne.symm]⟩⟩
    by_cases hmin : file.length ≤ fragmentSizeMinimum
    · refine ⟨0, fun fuel _ => ?_⟩
      obtain ⟨known, hm, hkn'⟩ := fileMatches_small hz hsi (length_pos_iff.mpr hf) hmin hkn
      exact ⟨_, known, hm, hkn', compareHash_eq_matched.trans (hsm hsi hmin)⟩
    · obtain ⟨enough, hst⟩ := hl (by omega)
      refine ⟨enough, fun fuel hfu => ?_⟩
      rw [fileMatches_large hz hsi (by omega)]
      exact hst fuel hfu

theorem comparesExactly_leaf (hne : content ≠ [])
    (hsi : previousSize = none ∨ previousSize = some content.length)
    (hsm : content.length ≤ fragmentSizeThreshold)
    (hle : HoldsLeaf host store partition address.context address.hash content)
    (ha : ToldApart host store partition address content file)
    (hkn : established.AnswersFor host file) :
    ComparesExactly host store partition address content previousSize file established := by
  have heq : host.hash file = address.hash ↔ file = content := by
    rw [hle.named]
    exact ⟨ha.eq_of_hash_eq, fun h => h ▸ rfl⟩
  refine comparesExactly_of hle.hash_ne hne hsi hkn (fun _ _ => heq) fun hl =>
    ⟨0, fun fuel _ => ?_⟩
  obtain ⟨outcome, known, hm, hkn', hiff⟩ := storedMatches_leaf hl hle hsm hkn
  refine ⟨outcome, known, hm, hkn', hiff.trans ?_⟩
  rw [heq, and_iff_right_iff_imp]
  rintro rfl
  exact hsm

variable {root : List FragmentReference} {height : Nat}
  (hh : Holds host store partition address.context content height root content.length)
  (hze : nextOffset root content.length = 0)

include hh hze

/-- The comparisons below a root list are those of the content when the lists are told
from it. -/
theorem allEqual_iff_eq (hlen : file.length = content.length)
    (ha : ToldApart host store partition address content file)
    (hl : ∀ s sub, MetList host store partition address.context root content.length s sub →
      fragmentSizeThreshold < s.length ∨ listBytes sub = slice content s) :
    AllEqual host store partition address.context file root content.length ↔ file = content := by
  -- a list that is compared covers no more than a fragment, so it is its own content
  have hr : ∀ hash s, Compared host store partition address.context root content.length hash s →
      hash = host.hash (slice content s) := by
    intro hash s hs
    obtain ⟨hsm, hle | ⟨sub, hmet, hli⟩⟩ := hs.recorded height hh
    · exact hle
    · rcases hl s sub hmet with hw | hown
      · omega
      · rw [hli, hown]
  constructor
  · intro hall
    have hsl := hh.slice_eq fun hash s hs =>
      ha.chunks s ((hall hash s hs).trans (hr hash s hs))
    rw [hze] at hsl
    nth_rewrite 1 [← hlen] at hsl
    rwa [slice_all, slice_all] at hsl
  · intro hf hash s hs
    rw [hf]
    exact (hr hash s hs).symm

variable (hsiz : previousSize = none ∨ previousSize = some content.length)
  (hl : fragmentSizeThreshold < content.length)
  (hr : HoldsList host store partition address.context address.hash root content.length)

include hsiz hl hr

/-- **Against a list** the comparison is exact where the lists are told from content. -/
theorem comparesExactly_list (hli : ListsTellable host store partition address content previousSize)
    (ha : ToldApart host store partition address content file)
    (hkn : established.AnswersFor host file) :
    ComparesExactly host store partition address content previousSize file established := by
  obtain ⟨hrS, hmet⟩ := hli root hr
  have hmin : fragmentSizeMinimum < fragmentSizeThreshold := by decide
  refine comparesExactly_of hr.hash_ne (length_pos_iff.mp (by omega)) hsiz hkn ?_ fun hbig => ?_
  · -- a file this small is not the content, nor the root list
    intro hsi hsm
    refine iff_of_false (fun heq => ?_) (by rintro rfl; omega)
    rw [ha.whole root hr heq] at hsm hsi
    rcases hsiz with rfl | rfl
    · have := hrS rfl
      omega
    · simp only [Option.any_some, bne_eq_false_iff_eq] at hsi
      omega
  · obtain ⟨enough, hst⟩ := storedMatches_list hbig hr hh hze hl hkn
    refine ⟨enough, fun fuel hf => ?_⟩
    obtain ⟨outcome, known, hm, hkn', hiff⟩ := hst fuel hf
    refine ⟨outcome, known, hm, hkn', hiff.trans ⟨fun ⟨hlen, hall⟩ => ?_, fun h => ?_⟩⟩
    · exact (allEqual_iff_eq hh hze hlen ha hmet).mp hall
    · have hlen : file.length = content.length := by rw [h]
      exact ⟨hlen, (allEqual_iff_eq hh hze hlen ha hmet).mpr h⟩

/-- **And only there**: a list that is taken for a leaf makes the content differ from
itself, and a small root list is a file that is taken for the content. -/
theorem listsTellable_of_comparesExactly (ha : ListsApart host store partition address content)
    (hse : ComparesExactly host store partition address content previousSize content .default)
    (hli : ComparesExactly host store partition address content previousSize (listBytes root)
      .default) : ListsTellable host store partition address content previousSize := by
  intro root' hr'
  obtain rfl := hr'.unique hr
  have hmin : fragmentSizeMinimum < fragmentSizeThreshold := by decide
  constructor
  · intro hno
    by_contra hsm
    -- the bytes of the root list are a file that hashes to the address
    have hpos : 0 < (listBytes root').length := by
      cases root' with
      | nil =>
        rw [nextOffset_nil] at hze
        omega
      | cons r rest =>
        rw [length_listBytes, length_cons, referenceSize]
        omega
    obtain ⟨enough, hli⟩ := hli
    obtain ⟨outcome, known, hm, -, hiff⟩ := hli enough (Nat.le_refl _)
    obtain ⟨known', hm', -⟩ := @fileMatches_small host store partition address previousSize
      (listBytes root') .default enough hr.hash_ne (by rw [hno]; rfl) hpos (by omega)
      .default
    rw [hm, ← hr.named] at hm'
    have hma : outcome = .matched := by
      rw [(Prod.mk.inj (Except.ok.inj hm')).1]
      exact compareHash_eq_matched.mpr rfl
    have hlen := congrArg length (hiff.mp hma)
    omega
  · intro s sub hmet
    by_contra hnot
    obtain ⟨hn, ho⟩ := not_or.mp hnot
    have hsi : previousSize.any (· != content.length) = false := by
      rcases hsiz with rfl | rfl <;> simp
    obtain ⟨enough, hse⟩ := hse
    have hbig : fragmentSizeMinimum < content.length := by omega
    obtain ⟨enough', hst⟩ := storedMatches_list hbig hr hh hze hl .default
    obtain ⟨outcome, known, hm, -, hiff⟩ := hse (max enough enough') (Nat.le_max_left _ _)
    obtain ⟨outcome', known', hm', -, hiff'⟩ := hst (max enough enough') (Nat.le_max_right _ _)
    rw [fileMatches_large hr.hash_ne hsi hbig, hm'] at hm
    obtain ⟨rfl, -⟩ := Prod.mk.inj (Except.ok.inj hm)
    obtain ⟨-, hall⟩ := hiff'.mp (hiff.mpr rfl)
    have heq := hall _ _ (hmet.compared (Nat.le_of_not_lt hn))
    exact ho (ha root' s sub hr hmet heq).symm

end

/-- **Comparing a file against stored content** is exact, for every file the hashes tell
from what is stored, if and only if the lists below the root are told from content: for
content written under any chunking, with every fragment of it in the store, and for a
caller that passes the content's size or none. -/
theorem fileMatches_exact_iff (host : Host) (mode : CompressionMode) (partition : Partition)
    (context : Context) (options : WriteOptions) (content : Bytes)
    (before after store : ContentStore) (address : Address) (previousSize : Option Nat)
    (hcut : host.CutsFragments) (hlimit : content.length < u64Limit)
    (hkeep : options.hashOnly = false)
    (hwrite : writeContent host mode partition context options content before
      = .ok (address, after)) (hstored : ∀ tree, contentTree host options content = .ok tree →
      ∀ t ∈ tree.tasks, Stored host partition context store t)
    (hsize : previousSize = none ∨ previousSize = some content.length)
    (hself : ToldApart host store partition address content content)
    (hlist : ∀ root, HoldsList host store partition context address.hash root content.length →
      ToldApart host store partition address content (listBytes root))
    (hlists : ListsApart host store partition address content) :
    (∀ file established, ToldApart host store partition address content file →
        established.AnswersFor host file →
        ComparesExactly host store partition address content previousSize file established) ↔
      ListsTellable host store partition address content previousSize := by
  obtain ⟨tree, list, ht, rfl, hrun⟩ := writeContent_iff.mp hwrite
  rcases contentTree_held hcut hlimit ht (hstored tree ht) with
    ⟨hsm, hle⟩ | ⟨hl, root, height, -, hr, hh, hze⟩
  · have hne : content ≠ [] := writeContent_ne_nil hkeep hwrite
    apply iff_of_true
    · intro file established ha hf
      exact comparesExactly_leaf hne hsize hsm hle ha hf
    · -- a leaf is not a list
      intro root hr
      obtain ⟨f, _, _, hs, hfr, -⟩ := hle.stored
      obtain ⟨g, hs', hg, -⟩ := hr.stored
      rw [hs] at hs'
      rw [(Prod.mk.inj (Option.some.inj hs')).1, hg] at hfr
      cases hfr
  · constructor
    · intro h
      exact listsTellable_of_comparesExactly hh hze hsize hl hr hlists
        (h content .default hself .default) (h _ .default (hlist root hr) .default)
    · intro hte file established ha hf
      exact comparesExactly_list hh hze hsize hl hr hte ha hf

section Chunked

variable {size : Nat}

/-! Three chunks of `size = 87400` zeros, below a root list. -/

/-- The tree of the content. -/
def threeChunks (size : Nat) : ContentTree :=
  ⟨leafTasks tailHost (cutBy size) (zeros size 3), [],
    listTask (cutBy size) (zeroReferences size 0 3) (3 * size) 0⟩

variable (hsize : size = 87400)
include hsize

theorem threeChunks_contentTree :
    contentTree tailHost (cutBy size) (zeros size 3) = .ok (threeChunks size) := by
  have hle : size ≤ fragmentSizeThreshold := by
    rw [fragmentSizeThreshold]
    omega
  have hl : fragmentSizeThreshold < (zeros size 3).length := by
    rw [length_zeros, fragmentSizeThreshold]
    omega
  have hreferences := @zeros_references size (by omega) hle 3
  have hfew : (zeroReferences size 0 3).length * referenceSize ≤ fragmentSizeThreshold := by
    rw [length_zeroReferences]
    decide
  have hpack : packLists tailHost (cutBy size) (3 * size)
      (leafTasks tailHost (cutBy size) (zeros size 3)).length (zeroReferences size 0 3)
        = .ok ([], zeroReferences size 0 3) := by
    unfold packLists
    rw [if_pos hfew]
  unfold contentTree
  rw [if_neg (by omega),
    if_neg (chunkBoundaries_head?_ne tailHost_cutsFragments (cutBy size) hl)]
  simp [hreferences, hpack, threeChunks]

theorem threeChunks_kinds {t} (ht : t ∈ (threeChunks size).tasks) :
    (t.bytes = replicate size 0 ∧ t.fragment = (leafTask (cutBy size) (replicate size 0) 0).fragment
      ∧ tailHost.hash t.bytes = BitVec.ofNat 256 (87400 * 2 ^ 72))
    ∨ t = (threeChunks size).root
      ∧ tailHost.hash t.bytes = BitVec.ofNat 256 (120 * 2 ^ 72 + 2 ^ 64 + 174800) := by
  have hle : size ≤ fragmentSizeThreshold := by
    rw [fragmentSizeThreshold]
    omega
  have hu64 : 174800 < u64Limit := by decide
  rw [ContentTree.tasks] at ht
  simp only [threeChunks, append_nil, mem_append, mem_singleton,
    @zeros_leafTasks size (by omega) hle] at ht
  rcases ht with ht | rfl
  · obtain ⟨i, -, rfl⟩ := mem_map.mp ht
    exact .inl ⟨rfl, rfl, by rw [leafTask, tailHost_replicate, hsize]⟩
  · refine .inr ⟨rfl, ?_⟩
    rw [listTask, @tailHost_zeroReferences size 0 2 (by omega) (by omega) (by omega), hsize]

theorem threeChunks_written : ∃ store, writeContent tailHost .noCompression 0 0 (cutBy size)
    (zeros size 3) (fun _ _ => none)
      = .ok (⟨tailHost.hash (listBytes (zeroReferences size 0 3)), 0⟩, store)
    ∧ ∀ t ∈ (threeChunks size).tasks, Stored tailHost 0 0 store t := by
  have htr := threeChunks_contentTree hsize
  have hshape := contentTree_shape tailHost_cutsFragments htr
  have hstorable : ∀ t ∈ (threeChunks size).tasks, Storable tailHost (cutBy size) t := by
    intro t ht
    have hz : isZero (tailHost.hash t.bytes) = false := by
      rcases threeChunks_kinds hsize ht with ⟨-, -, hh⟩ | ⟨-, hh⟩ <;> rw [hh] <;> decide
    refine ⟨hshape t ht, ?_, hz⟩
    intro hnil
    rw [hnil] at hz
    cases hz
  have hne : BitVec.ofNat 256 (87400 * 2 ^ 72)
      ≠ BitVec.ofNat 256 (120 * 2 ^ 72 + 2 ^ 64 + 174800) := by decide
  have hapart : ∀ t ∈ (threeChunks size).tasks, ∀ u ∈ (threeChunks size).tasks,
      tailHost.hash t.bytes = tailHost.hash u.bytes →
        t.bytes = u.bytes ∧ t.fragment = u.fragment := by
    intro t ht u hu heq
    rcases threeChunks_kinds hsize ht with ⟨hb, hf, hh⟩ | ⟨rfl, hh⟩ <;>
      rcases threeChunks_kinds hsize hu with ⟨hb', hf', hh'⟩ | ⟨rfl, hh'⟩
    · exact ⟨hb.trans hb'.symm, hf.trans hf'.symm⟩
    · exact absurd (hh.symm.trans (heq.trans hh')) hne
    · exact absurd (hh'.symm.trans (heq.symm.trans hh)) hne
    · exact ⟨rfl, rfl⟩
  obtain ⟨store, hrun⟩ := storeChunks_total .noCompression 0 0 hstorable (fun _ _ => none)
  refine ⟨store, writeContent_iff.mpr ⟨_, _, htr, rfl, hrun⟩, ?_⟩
  refine (storeChunks_stored tailHost_decodesEncoded rfl (fun _ ht => ht) hshape
    ⟨fun t ht u hu heq => (hapart t ht u hu heq).1,
      fun t ht u hu heq => (hapart t ht u hu (by rw [heq])).2, ?_⟩ hrun).2.2
  intro t _ entry h
  cases h

theorem threeChunks_no_list {store : ContentStore} {levelEnd s sub}
    (hst : ∀ t ∈ (threeChunks size).tasks, Stored tailHost 0 0 store t) :
    ¬ MetList tailHost store 0 0 (zeroReferences size 0 3) levelEnd s sub := by
  have hle : size ≤ fragmentSizeThreshold := by
    rw [fragmentSizeThreshold]
    omega
  have hleaf : HoldsLeaf tailHost store 0 0 (tailHost.hash (replicate size 0))
      (replicate size 0) := by
    have hmem : leafTask (cutBy size) (replicate size 0) (0 * size) ∈ (threeChunks size).tasks := by
      simp only [ContentTree.tasks, threeChunks, @zeros_leafTasks size (by omega) hle]
      exact mem_append_left _ (mem_append_left _ mem_cons_self)
    exact (hst _ hmem).holdsLeaf (by rwa [length_replicate])
  have hno : ∀ {r w xs n}, (r, w) ∈ (zeroReferences size 0 3).zip
      (entryWindows (zeroReferences size 0 3) levelEnd) →
      ¬ HoldsList tailHost store 0 0 r.hash xs n := by
    intro r w xs n hrw hlist
    obtain ⟨i, -, rfl⟩ := mem_map.mp (of_mem_zip hrw).1
    obtain ⟨f, _, _, hs, hfr, -⟩ := hleaf.stored
    obtain ⟨g, hs', hg, -⟩ := hlist.stored
    rw [show (zeroReference size i).hash = tailHost.hash (replicate size 0) from rfl, hs] at hs'
    rw [(Prod.mk.inj (Option.some.inj hs')).1, hg] at hfr
    cases hfr
  intro h
  cases h with
  | here hrw hlist => exact hno hrw hlist
  | deeper hrw _ hlist => exact hno hrw hlist

end Chunked

/-- Every file is compared exactly with three chunks of zeros below a root list. -/
theorem fileMatches_exact_chunked :
    ∃ address store, writeContent tailHost .noCompression 0 0 (cutBy 87400) (zeros 87400 3)
        (fun _ _ => none) = .ok (address, store) ∧
      (∃ root, HoldsList tailHost store 0 0 address.hash root (zeros 87400 3).length) ∧
      ∀ file established, ToldApart tailHost store 0 address (zeros 87400 3) file →
        established.AnswersFor tailHost file →
        ComparesExactly tailHost store 0 address (zeros 87400 3) (some (zeros 87400 3).length) file
          established := by
  obtain ⟨size, hsize⟩ : ∃ size, size = 87400 := ⟨_, rfl⟩
  rw [← hsize]
  obtain ⟨store, hwrite, hst⟩ := threeChunks_written hsize
  have hu64 : 262200 < u64Limit := by decide
  have hlen : (zeros size 3).length < u64Limit := by
    rw [length_zeros]
    omega
  have hroot : HoldsList tailHost store 0 0 (tailHost.hash (listBytes (zeroReferences size 0 3)))
      (zeroReferences size 0 3) (zeros size 3).length := by
    rw [length_zeros] at hlen ⊢
    exact (hst (threeChunks size).root (by simp [ContentTree.tasks])).holdsList hlen
  -- of a list of 120 bytes nothing hashes as zeros do but zeros
  have hlist : ∀ s, tailHost.hash (slice (listBytes (zeroReferences size 0 3)) s)
      = tailHost.hash (slice (zeros size 3) s) →
      slice (listBytes (zeroReferences size 0 3)) s = slice (zeros size 3) s := by
    intro s heq
    have hshort : (slice (listBytes (zeroReferences size 0 3)) s).length ≤ 120 := by
      refine Nat.le_trans (length_take_le' _ _) ?_
      rw [length_drop, length_listBytes, length_zeroReferences, referenceSize]
      omega
    rw [slice_zeros] at heq ⊢
    exact tailHost_eq_replicate (by omega) (by omega) heq
  have hmet : ∀ {root s sub}, HoldsList tailHost store 0 0
      (tailHost.hash (listBytes (zeroReferences size 0 3))) root (zeros size 3).length →
      ¬ MetList tailHost store 0 0 root (zeros size 3).length s sub := by
    intro root s sub hr
    rw [hr.unique hroot]
    exact threeChunks_no_list hsize hst
  refine ⟨_, store, hwrite, ⟨_, hroot⟩, ?_⟩
  refine (fileMatches_exact_iff tailHost .noCompression 0 0 (cutBy size) (zeros size 3)
    (fun _ _ => none) store store _ (some (zeros size 3).length) tailHost_cutsFragments hlen rfl
    hwrite ?_ (.inr rfl) ⟨fun _ _ => rfl, ?_⟩ ?_ ?_).mpr ?_
  · intro tree htr
    obtain rfl := Except.ok.inj ((threeChunks_contentTree hsize).symm.trans htr)
    exact hst
  · intro root hr heq
    refine (tailHost_eq_replicate (n := 3 * size) ?_ (by omega) ?_).symm
    · rw [hr.unique hroot]
      simp only [length_listBytes, length_zeroReferences, referenceSize]
      omega
    · exact hr.named.symm.trans heq.symm
  · intro root hr
    rw [hr.unique hroot]
    exact ⟨hlist, fun root' hr' _ => by rw [hr'.unique hroot]⟩
  · intro root s sub hr hm
    exact absurd hm (hmet hr)
  · intro root hr
    refine ⟨fun hnone => ?_, fun s sub hm => absurd hm (hmet hr)⟩
    cases hnone

/-! ## Content that differs from itself -/

section

variable {k : Nat} (hk : k = 6551)
include hk

theorem zeros_hash_ne : tailHost.hash (slice (zeros 40 (k + 3)) ⟨0, (k + 1) * 40⟩)
    ≠ ((zeroFirst k).reference tailHost).hash := by
  have hu64 := zeros_lt_u64Limit
  have hsl : slice (zeros 40 (k + 3)) ⟨0, (k + 1) * 40⟩ = replicate ((k + 1) * 40) 0 := by
    rw [slice_zeros]
    simp only [Span.length, Nat.sub_zero]
    rw [Nat.min_eq_left (by omega)]
  show _ ≠ tailHost.hash (listBytes (zeroReferences 40 0 (k + 1)))
  rw [hsl, tailHost_replicate, @tailHost_zeroReferences 40 0 k (by omega) (by decide) (by omega), Nat.zero_add,
    show (k + 1) * 40 = 262080 by omega, show k * 40 = 262040 by omega]
  decide

theorem zeros_differ :
    ∃ address store, writeContent tailHost .noCompression 0 0 (cutBy 40) (zeros 40 (k + 3))
        (fun _ _ => none) = .ok (address, store) ∧
      ∃ enough, ∀ fuel, enough ≤ fuel →
        ∃ known, fileMatches tailHost store 0 fuel address (some (zeros 40 (k + 3)).length)
          (.file (some (zeros 40 (k + 3)))) .default = .ok (.differs, known) := by
  have hu64 := zeros_lt_u64Limit
  have hlen := length_zeros 40 (k + 3)
  have hmin : fragmentSizeMinimum < (zeros 40 (k + 3)).length := by
    rw [fragmentSizeMinimum]
    omega
  obtain ⟨store, hwrite, hst⟩ := zeros_written hk
  refine ⟨_, store, hwrite, 1, fun fuel hfu => ⟨.default, ?_⟩⟩
  have hr : HoldsList tailHost store 0 0 (tailHost.hash (zeroRootTask k).bytes) (zeroRoot k)
      (zeros 40 (k + 3)).length := by
    rw [hlen]
    exact (hst (zeroRootTask k) (by simp [ContentTree.tasks, zeroTree])).holdsList (by omega)
  -- the first list covers no more than a fragment, so the walk hashes what it stands for
  have hnext : nextOffset [(zeroLast k).reference tailHost] (zeros 40 (k + 3)).length
      = (k + 1) * 40 := zeroLast_offset hk
  have hzero : ((zeroFirst k).reference tailHost).offsetContent.toNat = 0 := rfl
  have hfits : (k + 1) * 40 ≤ fragmentSizeThreshold := by
    rw [fragmentSizeThreshold]
    omega
  obtain ⟨_, _, -, hstep⟩ := @compareChunks_hash tailHost store 0 0 (zeros 40 (k + 3))
    ((zeroFirst k).reference tailHost) [(zeroLast k).reference tailHost] (fuel - 1)
    none none (windowsRead_none _) (Nat.zero_le _) (by omega) (by omega)
  rw [Nat.sub_add_cancel hfu, hnext, hzero, if_neg (zeros_hash_ne hk)] at hstep
  have hc := @fileMatches_large tailHost store 0 ⟨tailHost.hash (zeroRootTask k).bytes, 0⟩
    (some (zeros 40 (k + 3)).length) (zeros 40 (k + 3)) .default fuel hr.hash_ne (by simp) hmin
  exact hc.trans (storedMatches_walked hmin hr (cons_ne_nil _ _) (by decide) hstep)

end

/-- **A file that differs from itself.** Content of 262160 bytes, cut forty at a time, is
stored below two lists, of which the first covers 262080 bytes: less than a fragment,
so the walk compares those bytes with the hash of the list. -/
theorem fileMatches_differs_from_itself :
    ∃ address store, writeContent tailHost .noCompression 0 0 (cutBy 40) (zeros 40 6554)
        (fun _ _ => none) = .ok (address, store) ∧
      ∃ enough, ∀ fuel, enough ≤ fuel →
        ∃ known, fileMatches tailHost store 0 fuel address (some (zeros 40 6554).length)
          (.file (some (zeros 40 6554))) .default = .ok (.differs, known) := @zeros_differ 6551 rfl

end Lore.Storage
