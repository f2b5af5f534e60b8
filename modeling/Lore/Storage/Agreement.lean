import Lore.Storage.ReadSpec
import Lore.Storage.WalkTiling

/-!
# Agreement — the stream and the assembled read deliver the same bytes

The streaming walk settles the tier of all children of a level by one peek, while
`read_defragment` decides for each child. Where the entries reached beside a list are
lists too, and no list the range holds all of is stored compressed, the two agree: a
stream and a read of the same root and range that both end well deliver the same bytes.
Without that condition they need not: a fragment that is not flagged as a list is walked
as one by the stream when its first sibling is a list, and delivered as content by the
read.
-/

namespace Lore.Storage

open Lore.Lib Producer List FragmentFlags

section

variable (host : Host) (store : ContentStore) (partition : Partition) (context : Context)
  (options : ReadOptions)

/-- The window holds the whole content of entry `i`. -/
def Whole (list : List FragmentReference) (levelEnd : Nat) (window : Span) (i : Nat) : Prop :=
  ∃ s, (entryWindows list levelEnd)[i]? = some s ∧ window.start ≤ s.start ∧ s.stop ≤ window.stop

/-- Every level the window reaches is of one tier: where the first of the entries reached
names a list, all of them do, none of these lists is stored compressed if the window holds
its whole content, and the same holds below each of them, `fuel` levels deep. -/
def OneTier : Nat → List FragmentReference → Nat → Span → Prop
  | 0, _, _, _ => True
  | fuel + 1, list, totalContentSize, window =>
      (∃ i reference loaded, Reached list (nextOffset list 0 + totalContentSize) window i ∧
        (∀ j < i, ¬ Reached list (nextOffset list 0 + totalContentSize) window j) ∧
        list[i]? = some reference ∧
        loadFragment host store partition ⟨reference.hash, context⟩ options = .ok loaded ∧
        loaded.1.isFragmented = true) →
      ∀ i reference loaded,
        Reached list (nextOffset list 0 + totalContentSize) window i →
        list[i]? = some reference →
        loadFragment host store partition ⟨reference.hash, context⟩ options = .ok loaded →
        loaded.1.isFragmented = true ∧
          (Whole list (nextOffset list 0 + totalContentSize) window i → ∀ fragment payload,
            store partition ⟨reference.hash, context⟩ = some (fragment, payload) →
            fragment.isCompressed = false) ∧
          OneTier fuel (asReferences loaded.2) loaded.1.sizeContent.toNat window

/-- Reading the list from its start up to `b`, as far as the window reaches, can only
deliver `bytes`, and only where the list holds all of it. -/
def ReaderDelivers (list : List FragmentReference) (totalContentSize : Nat) (window : Span)
    (bytes : Bytes) : Prop :=
  ∀ fuel head rest fragment buffer b cells depth out,
    list = head :: rest → asReferences buffer = list →
    fragment.sizeContent.toNat = totalContentSize →
    min (head.offsetContent.toNat + totalContentSize) window.stop ≤ b → b ≤ window.stop →
    max head.offsetContent.toNat window.start < b →
    cells.length = b - max head.offsetContent.toNat window.start →
    readDefragment host store partition context options fuel
      ⟨max head.offsetContent.toNat window.start - head.offsetContent.toNat,
        b - head.offsetContent.toNat⟩ fragment buffer cells depth = .ok out →
    b ≤ head.offsetContent.toNat + totalContentSize ∧ out = bytes.map some

/-- Reading entry `i`'s piece of the window, up to `b`, can only deliver `bytes`, and
only where the entry's window holds all of it. -/
def PieceDelivers (list : List FragmentReference) (levelEnd : Nat) (window : Span) (i : Nat)
    (bytes : Bytes) : Prop :=
  ∀ fuel reference s b cells depth part,
    list[i]? = some reference → (entryWindows list levelEnd)[i]? = some s →
    min s.stop window.stop ≤ b → b ≤ window.stop → max s.start window.start < b →
    cells.length = b - max s.start window.start →
    readDefragmentSubread host store partition options
      (readDefragment host store partition context options fuel) ⟨reference.hash, context⟩
      ⟨max s.start window.start - s.start, b - s.start⟩ cells depth = .ok part →
    b ≤ s.stop ∧ part = bytes.map some

end

section

variable {host : Host} {store : ContentStore} {partition : Partition} {context : Context}
  {options : ReadOptions}

/-! ## From the pieces to the list -/

variable {list : List FragmentReference} {levelEnd : Nat} {window : Span} {bytes : Bytes}

theorem reached_iff {a b} (hv : ValidLevel list levelEnd)
    (ha : a = max (nextOffset list levelEnd) window.start) (hb : min levelEnd window.stop ≤ b)
    (hb' : b ≤ window.stop) (i : Nat) :
    Reached list levelEnd ⟨a, b⟩ i ↔ Reached list levelEnd window i := by
  cases hs : (entryWindows list levelEnd)[i]? with
  | none => simp [Reached, hs]
  | some s =>
    obtain ⟨h1, h2, h3⟩ := hv.tiles.mem_bounds (mem_of_getElem? hs)
    have hw : Reached list levelEnd window i ↔ _ := reached_iff_lt hs
    rw [reached_iff_lt hs, hw]
    omega

theorem WantedIs.unique {w w' r r'} (h : WantedIs list levelEnd w (some r))
    (h' : WantedIs list levelEnd w' (some r'))
    (hsa : ∀ i, Reached list levelEnd w i ↔ Reached list levelEnd w' i) : r = r' := by
  obtain ⟨hlt, -, hiff⟩ := h
  obtain ⟨hlt', -, hiff'⟩ := h'
  have hb : ∀ i, (r.start ≤ i ∧ i < r.stop) ↔ (r'.start ≤ i ∧ i < r'.stop) := by
    intro i
    rw [← hiff, ← hiff', hsa]
  have h1 := (hb r.start).mp ⟨by omega, by omega⟩
  have h2 := (hb r'.start).mpr ⟨by omega, by omega⟩
  have h3 := (hb (r.stop - 1)).mp ⟨by omega, by omega⟩
  have h4 := (hb (r'.stop - 1)).mpr ⟨by omega, by omega⟩
  cases r
  cases r'
  simp only [Span.mk.injEq] at h1 h2 h3 h4 ⊢
  omega

theorem PieceRead.delivers {a b i fuel depth r part} (hv : ValidLevel list levelEnd)
    (hw : WantedIs list levelEnd window (some r))
    (ha : a = max (nextOffset list levelEnd) window.start) (hb : min levelEnd window.stop ≤ b)
    (hb' : b ≤ window.stop) (hi : r.start ≤ i ∧ i < r.stop) (hre : PieceRead context list levelEnd
      (fun address range target => readDefragmentSubread host store partition options
        (readDefragment host store partition context options fuel) address range target depth)
      a b (r.stop - 1) i part)
    (hdel : PieceDelivers host store partition context options list levelEnd window i bytes) :
    part = bytes.map some ∧ (i = r.stop - 1 → b ≤ levelEnd) := by
  obtain ⟨reference, s, e, cells, href, hs, rfl, hpos, hc, hp⟩ := hre
  obtain ⟨hs1, hs2, hs3⟩ := hv.tiles.mem_bounds (mem_of_getElem? hs)
  rw [show max s.start a = max s.start window.start by omega] at hpos hc hp
  have hst : (if i = r.stop - 1 then b else s.stop) ≤ window.stop ∧
      min s.stop window.stop ≤ (if i = r.stop - 1 then b else s.stop) := by
    by_cases hl : i = r.stop - 1
    · rw [if_pos hl]
      omega
    · -- a later entry is reached, so this one ends inside the window
      obtain ⟨t, ht, hr⟩ := ((hw.2.2 (r.stop - 1)).mpr ⟨by omega, by omega⟩).exists_window
      have := (hv.tiles.getElem?_le (by omega : i ≤ r.stop - 1) hs ht).2.2 (by omega)
      rw [if_neg hl]
      omega
  obtain ⟨hle, heq⟩ := hdel fuel reference s _ cells _ part href hs hst.2 hst.1 hpos hc hp
  refine ⟨heq, fun hl => ?_⟩
  rw [if_pos hl] at hle
  omega

theorem readerDelivers_of_pieces {head rest totalContentSize window r parts}
    (he : head.offsetContent.toNat + totalContentSize = levelEnd)
    (hw : WantedIs (head :: rest) levelEnd window (some r)) (hpa : List.Forall₂
      (PieceDelivers host store partition context options (head :: rest) levelEnd window)
      (range' r.start (r.stop - r.start)) parts) :
    ReaderDelivers host store partition context options (head :: rest) totalContentSize window
      parts.flatten := by
  intro fuel head' rest' fragment buffer b cells depth out hc href hsi hb hb' hlt hlen hre
  subst he
  cases hc
  cases fuel with
  | zero => cases hre
  | succ fuel =>
    obtain ⟨hv, r', read, hw', hp, rfl⟩ :=
      readDefragmentBody_ok href (by rw [hsi]) (Nat.le_max_left ..) hlt hlen hre
    obtain rfl : r' = r := hw'.unique hw (reached_iff hv rfl hb hb')
    have hr : ∀ i, i ∈ range' r'.start (r'.stop - r'.start) ↔
        r'.start ≤ i ∧ i < r'.stop := by
      intro i
      rw [mem_range'_1]
      omega
    constructor
    · have hl : r'.start ≤ r'.stop - 1 ∧ r'.stop - 1 < r'.stop := by
        have := hw.1
        omega
      obtain ⟨part, -, hpar⟩ := Forall₂.exists_right hp ((hr _).mpr hl)
      obtain ⟨bytes, -, hby⟩ := Forall₂.exists_right hpa ((hr _).mpr hl)
      exact (hpar.delivers hv hw rfl hb hb' hl hby).2 rfl
    · have hj : List.Forall₂ (fun part bytes => part = map some bytes) read parts :=
        Forall₂.join hp hpa fun i hi part bytes h1 h2 =>
          (h1.delivers hv hw rfl hb hb' ((hr i).mp hi) h2).1
      rw [map_flatten]
      congr 1
      exact forall₂_eq_eq_eq ▸ forall₂_map_right_iff.mpr hj

theorem readerDelivers_of_none {head rest totalContentSize window}
    (he : head.offsetContent.toNat + totalContentSize = levelEnd)
    (hw : WantedIs (head :: rest) levelEnd window none) :
    ReaderDelivers host store partition context options (head :: rest) totalContentSize window
      [] := by
  intro fuel head' rest' fragment buffer b cells depth out hc href hsi hb hb' hlt hlen hre
  subst he
  cases hc
  cases fuel with
  | zero => cases hre
  | succ fuel =>
    obtain ⟨hv, r, read, hw', -⟩ :=
      readDefragmentBody_ok href (by rw [hsi]) (Nat.le_max_left ..) hlt hlen hre
    have hr := (hw'.2.2 r.start).mpr ⟨Nat.le_refl _, hw'.1⟩
    exact absurd ((reached_iff hv rfl hb hb' _).mp hr) (hw r.start)

/-! ## Leaves -/

theorem fetchLeaf_ok {leaf} (h : fetchLeaf host store partition options leaf = .ok bytes) :
    ∃ fragment buffer,
      loadFragment host store partition ⟨leaf.hash, leaf.context⟩ options.withDecompress
        = .ok (fragment, buffer) ∧
      fragment.isFragmented = false ∧ buffer.length = leaf.expectedSize ∧
      bytes = slice buffer leaf.clip := by
  obtain ⟨⟨fragment, buffer⟩, hl, h⟩ := bind_eq_ok.mp h
  simp only at h
  split_ifs at h with hf hsi
  cases h
  exact ⟨fragment, buffer, hl, by simpa using hf, by omega, rfl⟩

variable (host store partition options) in
/-- What is fetched for the leaves meets `P`. -/
def Fetched (P : Bytes → Prop) (leaves : List LeafReference) : Prop :=
  ∀ payloads, leaves.mapM (fetchLeaf host store partition options) = .ok payloads →
    P payloads.flatten

section

variable (hdec : options.decompress = true)
include hdec

theorem pieceDelivers_of_leaf {i s reference leaf} (hz : isZero reference.hash = false)
    (href : list[i]? = some reference) (hs : (entryWindows list levelEnd)[i]? = some s)
    (hlea : leafOf context window reference s = some leaf)
    (hf : fetchLeaf host store partition options leaf = .ok bytes) :
    PieceDelivers host store partition context options list levelEnd window i bytes := by
  intro fuel reference' s' b cells depth part href' hs' hb hb' hlt hlen hr
  rw [href] at href'
  rw [hs] at hs'
  cases href'
  cases hs'
  obtain ⟨o, ho, rfl⟩ := Option.map_eq_some_iff.mp hlea
  obtain ⟨ho1, ho2, ho3⟩ := Span.overlap_eq_some ho
  obtain ⟨fragment, buffer, hl, hfr, hsi, rfl⟩ := fetchLeaf_ok hf
  rw [ReadOptions.withDecompress_eq hdec] at hl
  simp only [Span.length] at hl hsi ⊢
  have hp : ∀ stored payload, store partition ⟨reference.hash, context⟩ = some (stored, payload) →
      stored.isFragmented = true → max s.start window.start - s.start = 0 →
      stored.sizeContent.toNat = cells.length → stored.isCompressed = false := by
    intro stored payload hst hsF _ _
    obtain ⟨stored', payload', hst', he⟩ := loadFragment_ok hz hdec hl
    rw [hst] at hst'
    cases hst'
    rw [expandPayload_isFragmented he, hsF] at hfr
    cases hfr
  rcases (readDefragmentSubread_ends _ _ hz hdec hl hp (by simp only [Span.length]; omega)
    (by omega)).of_ok hr with ⟨hli, -⟩ | ⟨-, hle, rfl⟩
  · rw [hfr] at hli
    cases hli
  · simp only at hle
    refine ⟨by omega, ?_⟩
    rw [ho1, ho2, show min s.stop window.stop = b by omega]

omit hdec in
theorem WantedIs.leaves {r} (hw : WantedIs list levelEnd window (some r)) :
    List.Forall₂ (fun i leaf => ∃ reference s, list[i]? = some reference ∧
        (entryWindows list levelEnd)[i]? = some s ∧
        leafOf context window reference s = some leaf)
      (List.range' r.start (r.stop - r.start)) (levelLeaves context window list levelEnd) := by
  obtain ⟨-, hle, hiff⟩ := hw
  refine (forall₂_range'_filterMap (by simpa using hle) ?_).imp ?_
  · rintro i ⟨reference, s⟩ hp
    obtain ⟨-, hs⟩ := List.getElem?_zip_eq_some.mp hp
    rw [← hiff i]
    constructor
    · rintro ⟨leaf, hl⟩
      obtain ⟨o, ho, -⟩ := Option.map_eq_some_iff.mp hl
      exact ⟨s, o, hs, ho⟩
    · rintro ⟨s', o, hs', ho⟩
      rw [hs] at hs'
      cases hs'
      exact ⟨_, Option.map_eq_some_iff.mpr ⟨o, ho, rfl⟩⟩
  · rintro i leaf ⟨⟨reference, s⟩, hp, hl⟩
    obtain ⟨href, hs⟩ := List.getElem?_zip_eq_some.mp hp
    exact ⟨reference, s, href, hs, hl⟩

theorem readerDelivers_of_leaves {head rest totalContentSize window}
    (he : head.offsetContent.toNat + totalContentSize = levelEnd)
    (hv : ValidLevel (head :: rest) levelEnd) :
    Fetched host store partition options
      (ReaderDelivers host store partition context options (head :: rest) totalContentSize window)
      (levelLeaves context window (head :: rest) levelEnd) := by
  intro payloads hfe
  obtain ⟨wanted, hwa⟩ := wantedEntries_of_valid hv window
  obtain ⟨-, hw⟩ := wantedEntries_ok hwa
  have hf := mapM_eq_ok.mp hfe
  cases wanted with
  | none =>
    have hp := levelLeaves_placed context window (head :: rest) levelEnd
    rw [hw.no_overlaps] at hp
    rw [map_eq_nil_iff.mp hp] at hf
    cases hf
    exact readerDelivers_of_none he hw
  | some r =>
    refine readerDelivers_of_pieces he hw ?_
    -- entry by entry: the leaf it yields, and what was fetched for it
    have hl : List.Forall₂ (fun leaf i => ∃ reference s, (head :: rest)[i]? = some reference ∧
        (entryWindows (head :: rest) levelEnd)[i]? = some s ∧
        leafOf context window reference s = some leaf) _ _ := hw.leaves.flip
    refine Forall₂.join hl hf ?_
    rintro leaf - i bytes ⟨reference, s, href, hs, hle⟩ hb
    exact pieceDelivers_of_leaf hdec (hv.hashes _ (mem_of_getElem? href)) href hs hle hb

/-! ## Lists -/

/-- A list that covers its entry's window delivers the entry's piece, if it is stored
uncompressed or the piece is not the whole. -/
theorem pieceDelivers_of_list {i reference loaded sub} (href : list[i]? = some reference)
    (hlo : loadFragment host store partition ⟨reference.hash, context⟩ options = .ok loaded)
    (hfr : loaded.1.isFragmented = true)
    (hp : Whole list levelEnd window i → ∀ fragment payload,
      store partition ⟨reference.hash, context⟩ = some (fragment, payload) →
      fragment.isCompressed = false)
    (hsub : openSublist list levelEnd i loaded.1 loaded.2 = .ok sub)
    (hdel : ReaderDelivers host store partition context options sub.1 sub.2.1 window bytes) :
    PieceDelivers host store partition context options list levelEnd window i bytes := by
  intro fuel reference' s b cells depth part href' hs hb hb' hlt hlen hr
  rw [href] at href'
  cases href'
  obtain ⟨hre, hsi, he, ⟨head, rest, hc, hoff⟩, hsum, -⟩ := openSublist_ok hsub
  obtain ⟨_, href', hz, hget, -⟩ := entryWindow_eq_ok.mp he
  rw [href] at href'
  cases href'
  rw [hs] at hget
  cases hget
  have hpl : ∀ fragment payload,
      store partition ⟨reference.hash, context⟩ = some (fragment, payload) →
      fragment.isFragmented = true → max sub.2.2.start window.start - sub.2.2.start = 0 →
      fragment.sizeContent.toNat = cells.length → fragment.isCompressed = false := by
    intro fragment payload hst _ h0 hall
    obtain ⟨fragment', payload', hst', hex⟩ := loadFragment_ok hz hdec hlo
    rw [hst] at hst'
    cases hst'
    have hsame := congrArg UInt64.toNat (expandPayload_sizeContent hex)
    -- the piece starts with the entry and is as long as its content, so the window holds all of it
    exact hp ⟨_, hs, by omega, by omega⟩ fragment payload hst
  rcases (readDefragmentSubread_ends _ _ hz hdec hlo hpl
    (by simp only [Span.length]; omega) (by omega)).of_ok hr with ⟨-, hrec⟩ | ⟨hl, -⟩
  · rw [← hoff] at hrec hlt hlen
    rw [← hsum, ← hoff] at hb ⊢
    exact hdel fuel head rest loaded.1 loaded.2 b cells depth part hc hre.symm hsi.symm
      hb hb' hlt hlen hrec
  · rw [hfr] at hl
    cases hl

/-- A finished walk of a child's list, all of whose leaves were fetched, sent what
reading the list delivers. -/
theorem meets_walkSublist_delivers {recur : LevelWalk} {fuel : Nat} {list : List FragmentReference}
    {levelEnd i depth : Nat} {window : Span} {leaves : Bool} {loaded : Fragment × Bytes}
    {sub : List FragmentReference × Nat × Span}
    (hr : ∀ l total w d, OneTier host store partition context options fuel l total w →
      Meets (fun _ => False) (recur l total w d) (Fetched host store partition options
        (ReaderDelivers host store partition context options l total w)))
    (ht : OneTier host store partition context options fuel (asReferences loaded.2)
      loaded.1.sizeContent.toNat window)
    (hsub : openSublist list levelEnd i loaded.1 loaded.2 = .ok sub) :
    Meets (fun _ => False) (walkSublist context recur leaves sub.1 sub.2.1 window depth)
      (Fetched host store partition options
        (ReaderDelivers host store partition context options sub.1 sub.2.1 window)) := by
  obtain ⟨hre, hsi, -, ⟨head, rest, hc, -⟩, -, -⟩ := openSublist_ok hsub
  unfold walkSublist
  split
  · rw [hc]
    refine meets_require (fun _ _ => id) fun first hf =>
      (meets_walkLeafLevel rfl (.inl nofun)).mono ?_
    cases indexSlice_eq_ok.mp hf
    rintro xs ⟨hle, rfl⟩
    exact readerDelivers_of_leaves hdec rfl hle.valid
  · rw [← hre, ← hsi] at ht
    exact hr _ _ _ _ ht

/-- **Agreement of a level.** A finished walk of a level of one tier, all of whose
leaves were fetched, sent what reading the level delivers. -/
theorem meets_readerDelivers {fuel list totalContentSize window depth}
    (ht : OneTier host store partition context options fuel list totalContentSize window) :
    Meets (fun _ => False) (walkFragmentLevel host store partition context options fuel list
        totalContentSize window depth)
      (Fetched host store partition options
        (ReaderDelivers host store partition context options list totalContentSize window)) := by
  induction fuel generalizing list totalContentSize window depth with
  | zero => exact meets_fail id
  | succ fuel ih =>
    refine meets_unlessClosed ?_
    split
    · exact meets_fail id
    cases list with
    | nil => exact meets_fail id
    | cons head rest =>
      simp only
      cases hadd : checkedAdd head.offsetContent.toNat totalContentSize with
      | none => exact meets_fail id
      | some levelEnd =>
        obtain ⟨rfl, -⟩ := checkedAdd_eq_some hadd
        refine meets_require (fun _ _ => id) fun wanted hwa => ?_
        obtain ⟨hv, hw⟩ := wantedEntries_ok hwa
        cases wanted with
        | none =>
          refine meets_done fun payloads hp => ?_
          cases hp
          exact readerDelivers_of_none rfl hw
        | some wanted =>
          refine meets_require (fun _ _ => id) fun reference href =>
            meets_require (fun _ _ => id) fun first hlo => ?_
          have href := indexSlice_eq_ok.mp href
          by_cases hf : first.1.isFragmented = true
          · rw [if_pos hf]
            -- the first entry is a list, so every entry reached is one
            have hfirst : ∀ j < wanted.start, ¬ Reached (head :: rest)
                (head.offsetContent.toNat + totalContentSize) window j := by
              intro j hj hr
              have := (hw.2.2 j).mp hr
              omega
            have hall := ht ⟨wanted.start, reference, first,
              (hw.2.2 _).mpr ⟨Nat.le_refl _, hw.1⟩, hfirst, href, hlo, hf⟩
            refine (meets_walkIntermediateLevel (R := fun i => Fetched host store partition options
                (PieceDelivers host store partition context options (head :: rest)
                  (head.offsetContent.toNat + totalContentSize) window i))
              nofun hw.1 hw.2.1 href hlo ?_).mono ?_
            · intro i r loaded sub leaves h1 h2 hr hl hsub
              obtain ⟨hfr, hpl, ht'⟩ := hall i r loaded ((hw.2.2 i).mpr ⟨h1, h2⟩) hr hl
              exact (meets_walkSublist_delivers hdec (fun _ _ _ _ => ih) ht' hsub).mono
                fun xs hxs payloads hp =>
                  pieceDelivers_of_list hdec hr hl hfr hpl hsub (hxs payloads hp)
            · rintro xs ⟨parts, hpa, rfl⟩ payloads hp
              obtain ⟨results, hre, rfl⟩ := mapM_flatten_eq_ok hp
              rw [flatten_flatten]
              refine readerDelivers_of_pieces rfl hw (forall₂_map_right_iff.mpr ?_)
              exact Forall₂.join hpa.flip hre fun xs _ i zs hR hzs => hR zs hzs
          · rw [if_neg hf]
            refine (meets_walkLeafLevel rfl (.inl nofun)).mono ?_
            rintro xs ⟨hle, rfl⟩
            exact readerDelivers_of_leaves hdec rfl hle.valid

end

/-! ## The whole tree -/

/-- The window a read of `range` has in the list of its root. -/
def rootWindow (buffer : Bytes) (range : Span) : Span :=
  ⟨nextOffset (asReferences buffer) 0 + range.start,
    nextOffset (asReferences buffer) 0 + range.stop⟩

/-- What a stream that ended well went through: the leaves the walk sent, fetched. -/
theorem defragmentPipeline_ok {fragment buffer range payloads}
    (h : defragmentPipeline host store partition context options fragment buffer range
      = .ok payloads) :
    ∃ head rest outbox, asReferences buffer = head :: rest ∧
      walkFragmentLevel host store partition context options (maxFragmentTreeDepth + 2)
        (head :: rest) fragment.sizeContent.toNat (rootWindow buffer range) 0 none .fresh
        = (.ok (), outbox) ∧
      outbox.sent.mapM (fetchLeaf host store partition options) = .ok payloads := by
  unfold defragmentPipeline at h
  cases hrun : walkFragmentTree host store partition context options fragment buffer range none
      .fresh with
  | mk result outbox =>
    cases result with
    | error e => simp [hrun] at h
    | ok u =>
      rw [hrun] at h
      simp only [walkFragmentTree, walkFragmentTreeWith] at hrun
      split_ifs at hrun
      · cases hrun
      cases hr : asReferences buffer with
      | nil =>
        simp only [hr] at hrun
        cases hrun
      | cons head rest =>
        simp only [hr] at hrun
        cases hst : checkedAdd head.offsetContent.toNat range.start with
        | none =>
          simp only [hst] at hrun
          cases hrun
        | some start =>
          cases hsto : checkedAdd head.offsetContent.toNat range.stop with
          | none =>
            simp only [hst, hsto] at hrun
            cases hrun
          | some stop =>
            simp only [hst, hsto] at hrun
            obtain ⟨rfl, -⟩ := checkedAdd_eq_some hst
            obtain ⟨rfl, -⟩ := checkedAdd_eq_some hsto
            refine ⟨head, rest, outbox, rfl, ?_, h⟩
            rw [rootWindow, hr]
            exact hrun

theorem readDefragmentBody_empty {recur : Defragment} {range : Span} {fragment : Fragment}
    {buffer : Bytes} {target out : CallerBuffer} {depth : Nat} (ht : target = [])
    (h : readDefragmentBody host store partition context options recur range fragment buffer
      target depth = .ok out) : out = [] := by
  subst ht
  unfold readDefragmentBody at h
  simp only at h
  split_ifs at h
  split at h
  · cases h
  · split at h
    · cases h
    · cases h
    · obtain ⟨_, -, h⟩ := bind_eq_ok.mp h
      obtain ⟨wanted, -, h⟩ := bind_eq_ok.mp h
      obtain ⟨⟨left, filled⟩, he, h⟩ := bind_eq_ok.mp h
      simp only [length_nil, Nat.min_zero] at he h
      split_ifs at h
      cases h
      cases hrev : (range' (wanted.getD ⟨0, 0⟩).start
          ((wanted.getD ⟨0, 0⟩).stop - (wanted.getD ⟨0, 0⟩).start)).reverse with
      | nil =>
        rw [hrev] at he
        cases he
        rfl
      | cons i rest =>
        rw [hrev] at he
        cases he
        rfl

end

/-- **The two reassembly paths agree on trees of one tier.** Whatever the store holds,
if every level the range reaches below the root is of one tier and no list the range holds
all of is stored compressed, then a stream and a read of the same root and range that both
end well deliver the same bytes; in particular the read has written every byte. -/
theorem defragmentPipeline_agrees (host : Host) (store : ContentStore) (partition : Partition)
    (context : Context) (options : ReadOptions) (fragment : Fragment) (buffer : Bytes)
    (range : Span) (payloads : List Bytes) (out : CallerBuffer)
    (htier : OneTier host store partition context options.withDecompress
      (maxFragmentTreeDepth + 2) (asReferences buffer) fragment.sizeContent.toNat
      (rootWindow buffer range))
    (hstream : defragmentPipeline host store partition context options.withDecompress fragment
      buffer range = .ok payloads)
    (hread : readDefragment host store partition context options.withDecompress readFuel range
      fragment buffer (.allocate range.length) 0 = .ok out) : out = payloads.flatten.map some := by
  obtain ⟨head, rest, outbox, hr, hrun, hf⟩ := defragmentPipeline_ok hstream
  have hw : rootWindow buffer range
      = ⟨head.offsetContent.toNat + range.start, head.offsetContent.toNat + range.stop⟩ := by
    rw [rootWindow, hr, nextOffset_cons]
  by_cases hpos : range.start < range.stop
  · rw [hr] at htier
    obtain ⟨-, leaves, hse, hdel⟩ :=
      (meets_readerDelivers rfl htier).sends none .fresh outbox hrun rfl
    obtain rfl : outbox.sent = leaves := hse
    have hb := hdel payloads hf readFuel head rest fragment buffer
      (head.offsetContent.toNat + range.stop) (.allocate range.length) 0 out rfl hr rfl
    rw [hw] at hb
    simp only at hb
    rw [show max head.offsetContent.toNat (head.offsetContent.toNat + range.start)
        - head.offsetContent.toNat = range.start by omega,
      show head.offsetContent.toNat + range.stop - head.offsetContent.toNat = range.stop by
        omega] at hb
    exact (hb (by omega) (by omega) (by omega)
      (by simp only [CallerBuffer.allocate, length_replicate, Span.length]; omega)
      hread).2
  · -- an empty range: nothing is sent and nothing is read
    have he : range.length = 0 := by
      unfold Span.length
      omega
    obtain ⟨-, leaves, hse, _, _, -, hcov⟩ :=
      (meets_walkFragmentLevel fun _ => False.elim).sends none .fresh outbox hrun rfl
    obtain rfl : outbox.sent = leaves := hse
    have hnil := hcov.nothing (by rw [hw]; simp only; omega)
    rw [hnil] at hf
    cases hf
    rw [he] at hread
    exact readDefragmentBody_empty rfl hread

/-! ## Trees the two paths disagree on -/

/-- A leaf of forty bytes. -/
def fortySevens : Bytes := List.replicate 40 7

/-- The bytes of a plain leaf that are also the bytes of a list of two leaves. -/
def ambiguousLeaf : Bytes := listBytes [⟨1#256, 40⟩, ⟨1#256, 80⟩]

/-- Under the hash 2 a list of one leaf, and under the hash 3 a plain leaf. -/
def mixedStore : ContentStore := fun _ address =>
  if address.hash = 1#256 then some (⟨0#32, 40, 40⟩, fortySevens)
  else if address.hash = 2#256 then
    some (⟨FragmentFlags.payloadFragmented, 40, 40⟩, listBytes [⟨1#256, 0⟩])
  else if address.hash = 3#256 then some (⟨0#32, 80, 80⟩, ambiguousLeaf)
  else none

/-- A host whose decompressor expands every payload to a list of one leaf. -/
def listHost : Host := { plainHost with decode := fun _ _ _ => some (listBytes [⟨1#256, 0⟩]) }

/-- Under the hash 2 a list of one leaf, stored compressed. -/
def compressedListStore : ContentStore := fun _ address =>
  if address.hash = 1#256 then some (⟨0#32, 40, 40⟩, fortySevens)
  else if address.hash = 2#256 then
    some (⟨FragmentFlags.payloadFragmented ||| FragmentFlags.payloadCompressedZstd, 1, 40⟩, [0])
  else none

/-- Below a root that names a list and then a plain leaf, the stream walks the leaf's
bytes as a list, and the read delivers them. Below a root that names a compressed
list, the read delivers the list's own bytes. -/
theorem defragmentPipeline_disagrees :
    (defragmentPipeline plainHost mixedStore 0 0 .default
        ⟨payloadFragmented, 80, 120⟩ (listBytes [⟨2#256, 0⟩, ⟨3#256, 40⟩])
        ⟨0, 120⟩ = .ok [fortySevens, fortySevens, fortySevens] ∧
      readDefragment plainHost mixedStore 0 0 .default readFuel ⟨0, 120⟩
        ⟨payloadFragmented, 80, 120⟩ (listBytes [⟨2#256, 0⟩, ⟨3#256, 40⟩])
        (.allocate 120) 0 = .ok ((fortySevens ++ ambiguousLeaf).map some) ∧
      fortySevens ++ ambiguousLeaf ≠ [fortySevens, fortySevens, fortySevens].flatten) ∧
    (defragmentPipeline listHost compressedListStore 0 0 .default
        ⟨payloadFragmented, 40, 40⟩ (listBytes [⟨2#256, 0⟩]) ⟨0, 40⟩
        = .ok [fortySevens] ∧
      readDefragment listHost compressedListStore 0 0 .default readFuel ⟨0, 40⟩
        ⟨payloadFragmented, 40, 40⟩ (listBytes [⟨2#256, 0⟩]) (.allocate 40) 0
        = .ok ((listBytes [⟨1#256, 0⟩]).map some) ∧
      listBytes [⟨1#256, 0⟩] ≠ [fortySevens].flatten) := by
  all_goals decide +kernel

/-- Under the hash 2 a list of one leaf, stored compressed, under the hash 1 the leaf: a tree
of two levels, and the middle of it read by both paths. -/
theorem defragmentPipeline_agrees_twoLevels :
    ∃ payloads out,
      defragmentPipeline listHost compressedListStore 0 0 .default
        ⟨payloadFragmented, 40, 40⟩ (listBytes [⟨2#256, 0⟩]) ⟨10, 30⟩
        = .ok payloads ∧
      readDefragment listHost compressedListStore 0 0 .default readFuel ⟨10, 30⟩
        ⟨payloadFragmented, 40, 40⟩ (listBytes [⟨2#256, 0⟩]) (.allocate 20) 0
        = .ok out ∧
      out = payloads.flatten.map some := by
  have hro : asReferences (listBytes [⟨2#256, 0⟩]) = [⟨2#256, 0⟩] := by decide +kernel
  have hli : asReferences (listBytes [⟨1#256, 0⟩]) = [⟨1#256, 0⟩] := by decide +kernel
  have hone : ∀ {i : Nat} {x y : FragmentReference}, [x][i]? = some y → y = x := by
    intro i x y h
    exact mem_singleton.mp (mem_of_getElem? h)
  have ht : OneTier listHost compressedListStore 0 0 ReadOptions.default.withDecompress
      (maxFragmentTreeDepth + 2) (asReferences (listBytes [⟨2#256, 0⟩])) 40
      (rootWindow (listBytes [⟨2#256, 0⟩]) ⟨10, 30⟩) := by
    rw [hro]
    rintro - i reference loaded - hget hl
    obtain rfl := hone hget
    obtain rfl : loaded = (⟨payloadFragmented, 40, 40⟩, listBytes [⟨1#256, 0⟩]) := by
      exact (Except.ok.inj hl).symm
    refine ⟨rfl, ?_, ?_⟩
    · -- the range begins inside the list's content
      rintro ⟨s, hs, hle, -⟩
      cases mem_singleton.mp (mem_of_getElem? hs)
      cases hle
    · -- the level below names a plain leaf only, so there is nothing to ask of it
      rintro ⟨j, leaf, loaded, -, -, hle, hl, hf⟩
      obtain rfl := hone hle
      cases hl
      cases hf
  have hst : defragmentPipeline listHost compressedListStore 0 0 .default
      ⟨payloadFragmented, 40, 40⟩ (listBytes [⟨2#256, 0⟩]) ⟨10, 30⟩
      = .ok [replicate 20 7] := by decide +kernel
  have hr : readDefragment listHost compressedListStore 0 0 .default readFuel ⟨10, 30⟩
      ⟨payloadFragmented, 40, 40⟩ (listBytes [⟨2#256, 0⟩]) (.allocate 20) 0
      = .ok (replicate 20 (some 7)) := by decide +kernel
  exact ⟨_, _, hst, hr, defragmentPipeline_agrees listHost compressedListStore 0 0 .default _ _ _
    _ _ ht hst hr⟩

end Lore.Storage
