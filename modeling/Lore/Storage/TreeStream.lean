import Lore.Storage.Tree
import Lore.Storage.WalkTiling

/-!
# TreeStream — streaming a tree the store holds

The walk of a tree that holds some content ends well, and the leaves it sends are,
fetched in order, the range that was asked for. With the read of the same tree this
gives what both entry points, `read` and `read_stream`, deliver for an address that
holds content.
-/

namespace Lore.Storage

open Lore.Lib Producer List

variable {host : Host} {store : ContentStore} {partition : Partition} {context : Context}
  {options : ReadOptions} {content : Bytes}

section Stream

variable {window : Span}

/-- The leaf, fetched, is its part of the content. -/
def Delivers (host : Host) (store : ContentStore) (partition : Partition)
    (options : ReadOptions) (content : Bytes) (window : Span) (leaf : LeafReference) : Prop :=
  fetchLeaf host store partition options leaf = .ok (slice content (leaf.placed window))

variable {reference : FragmentReference} {list : List FragmentReference} {levelEnd : Nat}

theorem HoldsLeaf.delivers {s leaf}
    (h : HoldsLeaf host store partition context reference.hash (slice content s))
    (hs : s.stop ≤ content.length) (hl : leafOf context window reference s = some leaf) :
    Delivers host store partition options content window leaf := by
  obtain ⟨o, ho, rfl⟩ := Option.map_eq_some_iff.mp hl
  obtain ⟨h1, h2, h3⟩ := Span.overlap_eq_some ho
  obtain ⟨f, hlo, hp, -⟩ := h.load (ReadOptions.decompress_withDecompress options)
  have hlen : (slice content s).length = s.length := length_slice_of_le hs
  unfold Delivers fetchLeaf
  simp only [hlo, ok_bind, hp, Bool.false_eq_true, if_false, hlen, ne_eq, not_true_eq_false]
  rw [slice_slice _ (by simp only [Span.length]; omega)]
  simp only [LeafReference.placed, Span.length]
  rw [show s.start + (o.start - s.start) = o.start by omega,
    show s.start + (o.stop - s.start) = o.stop by omega,
    show window.start + (o.start - window.start) = o.start by omega,
    show o.start + (o.stop - s.start - (o.start - s.start)) = o.stop by omega]

theorem nextOffset_eq_head (h : nextOffset list levelEnd < levelEnd) :
    ∃ head rest, list = head :: rest ∧ head.offsetContent.toNat = nextOffset list levelEnd := by
  cases list with
  | nil => exact absurd h (Nat.lt_irrefl _)
  | cons head rest => exact ⟨head, rest, rfl, rfl⟩

theorem openSublist_of_holds {sub i s f} (hv : ValidLevel list levelEnd)
    (href : list[i]? = some reference) (hs : (entryWindows list levelEnd)[i]? = some s)
    (hl : s.stop < u64Limit) (hsi : f.sizeContent.toNat = s.length)
    (hp : f.sizePayload.toNat = (listBytes sub).length) (hst : nextOffset sub s.stop = s.start) :
    openSublist list levelEnd i f (listBytes sub) = .ok (sub, s.length, s) := by
  have hpos := (hv.tiles.mem_bounds (mem_of_getElem? hs)).2.1
  have hoff : reference.offsetContent.toNat = s.start := by
    rw [getElem?_entryWindows, href] at hs
    cases hs
    rfl
  obtain ⟨head, rest, rfl, hh⟩ := nextOffset_eq_head (hst ▸ hpos)
  have hc : sublistCoverage reference (head :: rest) s.length s = .ok () := by
    have hz := hv.hashes _ (mem_of_getElem? href)
    unfold sublistCoverage
    simp only [hz, Bool.false_eq_true, if_false]
    rw [if_neg (by omega), if_neg (by rw [Span.length]; omega), if_neg (by omega), checkedAdd,
      if_pos (by rw [Span.length]; omega)]
    simp only
    rw [if_neg (by rw [Span.length]; omega)]
  unfold openSublist
  rw [if_neg (by omega)]
  simp only [asReferences_listBytes, hv.entryWindow hs, indexSlice_of_getElem? href, ok_bind,
    hsi, hc]

section

variable (hdec : options.decompress = true)
include hdec

/-- The tier of a level shows in the fragment any of its entries names. -/
theorem Holds.peek {height i : Nat}
    (h : Holds host store partition context content height list levelEnd)
    (href : list[i]? = some reference) :
    ∃ loaded, loadFragment host store partition ⟨reference.hash, context⟩ options = .ok loaded ∧
      (!loaded.1.isFragmented) = (height == 0) := by
  obtain ⟨s, hs⟩ : ∃ s, (entryWindows list levelEnd)[i]? = some s :=
    ⟨_, getElem?_eq_getElem (by
      rw [length_entryWindows]
      exact (List.getElem?_eq_some_iff.mp href).1)⟩
  cases height with
  | zero =>
    obtain ⟨-, hle⟩ := h.2 _ (mem_zip_entryWindows href hs)
    obtain ⟨f, hl, hf, -⟩ := hle.load hdec
    exact ⟨_, hl, by simp [hf]⟩
  | succ height =>
    obtain ⟨sub, hsub, -⟩ := h.2 _ (mem_zip_entryWindows href hs)
    obtain ⟨f, hl, hf, -⟩ := hsub.load hdec
    exact ⟨_, hl, by simp [hf]⟩

variable (hl : content.length < u64Limit)
include hl

omit hdec in
theorem Holds.emitsAll_walkLeafLevel {total}
    (h : Holds host store partition context content 0 list levelEnd)
    (hend : levelEnd ≤ content.length) (ht : nextOffset list levelEnd + total = levelEnd) :
    EmitsAll (walkLeafLevel context list total (nextOffset list levelEnd) window)
      (Delivers host store partition options content window) := by
  have hle : LeafLevel list levelEnd := by
    refine ⟨h.valid, fun s hs => ?_⟩
    obtain ⟨i, hi⟩ := List.getElem?_of_mem hs
    obtain ⟨r, hr, -⟩ := entryWindow_eq_ok.mp (h.valid.entryWindow hi)
    exact (h.2 _ (mem_zip_entryWindows hr hi)).1
  refine ⟨_, emits_walkLeafLevel ht (by omega) hle, fun leaf hle => ?_⟩
  obtain ⟨p, hp, hof⟩ := mem_filterMap.mp hle
  have hb := h.valid.tiles.mem_bounds (of_mem_zip hp).2
  exact (h.2 p hp).2.delivers (by omega) hof

omit hdec in
theorem Holds.emitsAll_walkSublist {recur height levelEnd total depth sub}
    (h : Holds host store partition context content height sub levelEnd)
    (hend : levelEnd ≤ content.length)
    (hpos : nextOffset sub levelEnd < levelEnd) (ht : nextOffset sub levelEnd + total = levelEnd)
    (hr : 0 < height → EmitsAll (recur sub total window (depth + 1))
      (Delivers host store partition options content window)) :
    EmitsAll (walkSublist context recur (height == 0) sub total window depth)
      (Delivers host store partition options content window) := by
  unfold walkSublist
  cases height with
  | zero =>
    obtain ⟨head, rest, rfl, hh⟩ := nextOffset_eq_head hpos
    exact h.emitsAll_walkLeafLevel hl hend ht
  | succ height =>
    exact hr (by omega)

theorem Holds.emitsAll_walkIntermediateLevel {recur} {height levelEnd depth : Nat} {list}
    {wanted : Span} {reference first}
    (h : Holds host store partition context content (height + 1) list levelEnd)
    (hend : levelEnd ≤ content.length)
    (hw : WantedIs list levelEnd window (some wanted)) (href : list[wanted.start]? = some reference)
    (hf : loadFragment host store partition ⟨reference.hash, context⟩ options = .ok first)
    (hre : 0 < height → ∀ sub stop total,
      Holds host store partition context content height sub stop → stop ≤ content.length →
      nextOffset sub stop < stop → nextOffset sub stop + total = stop →
      EmitsAll (recur sub total window (depth + 1))
        (Delivers host store partition options content window)) :
    EmitsAll (walkIntermediateLevel host store partition context options recur list levelEnd
        window wanted first.1 first.2 depth)
      (Delivers host store partition options content window) := by
  -- every child reached opens as the list held there, and is walked
  have hc : ∀ i r, wanted.start ≤ i → i < wanted.stop → list[i]? = some r →
      ∃ f sub total s, loadFragment host store partition ⟨r.hash, context⟩ options
          = .ok (f, listBytes sub) ∧
        openSublist list levelEnd i f (listBytes sub) = .ok (sub, total, s) ∧
        (∃ peek, wantedEntries sub s.stop window = .ok (some peek)) ∧
        Holds host store partition context content height sub s.stop ∧
        EmitsAll (walkSublist context recur (height == 0) sub total window depth)
          (Delivers host store partition options content window) := by
    intro i r hle hlt hr
    obtain ⟨s, o, hs, ho⟩ := (hw.2.2 i).mpr ⟨hle, hlt⟩
    obtain ⟨sub, hsub, hst, hb⟩ := h.2 _ (mem_zip_entryWindows hr hs)
    simp only at hsub hst hb
    have hbo := h.valid.tiles.mem_bounds (mem_of_getElem? hs)
    obtain ⟨f, hlo, -, hsi, hp⟩ := hsub.load hdec
    obtain ⟨h1, h2, h3⟩ := Span.overlap_eq_some ho
    have ht : nextOffset sub s.stop + s.length = s.stop := by
      rw [Span.length]
      omega
    refine ⟨f, sub, s.length, s, hlo,
      openSublist_of_holds h.valid hr hs (by omega) hsi hp hst, ?_, hb,
      hb.emitsAll_walkSublist hl (by omega) (by omega) ht fun hpos =>
        hre hpos sub s.stop s.length hb (by omega) (by omega) ht⟩
    obtain ⟨peek, hpee⟩ := wantedEntries_of_valid hb.valid window
    have hpI := (wantedEntries_ok hpee).2
    obtain ⟨r, rfl⟩ := WantedIs.exists_some hb.valid hpI (by rw [hst]; omega)
    exact ⟨r, hpee⟩
  obtain ⟨f, sub, total, s, hlo, hop, ⟨peek, hpee⟩, hb, hwa⟩ :=
    hc wanted.start reference (Nat.le_refl _) hw.1 href
  rw [hf] at hlo
  cases hlo
  obtain ⟨-, hlt, hle, -⟩ := wantedEntries_ok hpee
  obtain ⟨peekReference, hpR⟩ : ∃ x, sub[peek.start]? = some x :=
    ⟨_, getElem?_eq_getElem (by omega)⟩
  obtain ⟨peeked, hpe, hti⟩ := hb.peek hdec hpR
  unfold walkIntermediateLevel
  simp only [hop, require_ok, hpee, indexSlice_of_getElem? hpR, hpe, hti]
  refine emitsAll_andThen hwa (emitsAll_forEachOpen fun i hi => ?_)
  obtain ⟨h1, h2⟩ := mem_range'_1.mp hi
  obtain ⟨r, hr⟩ : ∃ r, list[i]? = some r :=
    ⟨_, getElem?_eq_getElem (by
      have := hw.2.1
      omega)⟩
  obtain ⟨f', sub', total', s', hlo', hop', -, -, hwa'⟩ := hc i r (by omega) (by omega) hr
  simp only [walkChild, indexSlice_of_getElem? hr, require_ok, hlo', hop']
  exact hwa'

/-- `walk_fragment_level` of a held list: nothing where the window misses it, else by
the tier of the list. -/
theorem Holds.emitsAll_level {height total : Nat} (fuel depth : Nat) {P : LeafReference → Prop}
    (h : Holds host store partition context content height list levelEnd)
    (hend : levelEnd ≤ content.length) (hpos : nextOffset list levelEnd < levelEnd)
    (ht : nextOffset list levelEnd + total = levelEnd) (hd : depth ≤ maxFragmentTreeDepth)
    (hgo : ∀ wanted reference first, WantedIs list levelEnd window (some wanted) →
      list[wanted.start]? = some reference →
      loadFragment host store partition ⟨reference.hash, context⟩ options = .ok first →
      EmitsAll (if height = 0 then walkLeafLevel context list total (nextOffset list levelEnd) window
        else walkIntermediateLevel host store partition context options
          (walkFragmentLevel host store partition context options fuel) list levelEnd
          window wanted first.1 first.2 depth) P) :
    EmitsAll (walkFragmentLevel host store partition context options (fuel + 1) list total window
      depth) P := by
  obtain ⟨head, rest, rfl, hh⟩ := nextOffset_eq_head hpos
  obtain ⟨answer, hwa⟩ := wantedEntries_of_valid h.valid window
  have hadd : checkedAdd (nextOffset (head :: rest) levelEnd) total = some levelEnd := by
    rw [checkedAdd, ht]
    exact if_pos (by omega)
  rw [walkFragmentLevel.eq_3, if_neg (by omega)]
  simp only [hh, hadd, hwa]
  refine emitsAll_unlessClosed ?_
  cases answer with
  | none => exact emitsAll_done
  | some wanted =>
    obtain ⟨-, hw⟩ := wantedEntries_ok hwa
    have hlt := hw.1
    have hle := hw.2.1
    obtain ⟨reference, href⟩ : ∃ x, (head :: rest)[wanted.start]? = some x :=
      ⟨_, getElem?_eq_getElem (by omega)⟩
    obtain ⟨first, hlo, hti⟩ := h.peek hdec href
    have hgo := hgo wanted reference first hw href hlo
    simp only [indexSlice_of_getElem? href, require_ok, hlo]
    cases height with
    | zero =>
      have hlea : first.1.isFragmented = false := by simpa using hti
      rwa [if_neg (by simp [hlea])]
    | succ height =>
      have hli : first.1.isFragmented = true := by simpa using hti
      rwa [if_pos hli]

/-- **Walking a held tree.** The walk of a list that holds content ends well, and
every leaf it sends is its part of the content. -/
theorem Holds.emitsAll_walkFragmentLevel (window : Span) {height} (fuel : Nat) {list levelEnd}
    (total depth : Nat) (h : Holds host store partition context content height list levelEnd)
    (hend : levelEnd ≤ content.length) (hpos : nextOffset list levelEnd < levelEnd)
    (ht : nextOffset list levelEnd + total = levelEnd) (hf : height < fuel)
    (hd : depth + height ≤ maxFragmentTreeDepth) :
    EmitsAll (walkFragmentLevel host store partition context options fuel list total window depth)
      (Delivers host store partition options content window) := by
  induction height generalizing fuel list levelEnd total depth with
  | zero =>
    obtain ⟨fuel, rfl⟩ : ∃ k, fuel = k + 1 := ⟨fuel - 1, by omega⟩
    refine h.emitsAll_level hdec hl fuel depth hend hpos ht (by omega) fun _ _ _ _ _ _ => ?_
    exact h.emitsAll_walkLeafLevel hl hend ht
  | succ height ih =>
    obtain ⟨fuel, rfl⟩ : ∃ k, fuel = k + 1 := ⟨fuel - 1, by omega⟩
    refine h.emitsAll_level hdec hl fuel depth hend hpos ht (by omega)
      fun wanted reference first hw href hlo => ?_
    exact h.emitsAll_walkIntermediateLevel hdec hl hend hw href hlo
      fun _ sub stop total' hsub hst hpos' ht' =>
        ih fuel total' (depth + 1) hsub hst hpos' ht' (by omega) (by omega)

end

end Stream

/-! ## An address that holds content -/

/-- Both entry points deliver every range of the content from the address. -/
def ReadsBack (host : Host) (store : ContentStore) (partition : Partition)
    (options : ReadOptions) (address : Address) (content : Bytes) : Prop :=
  ∀ range, ∃ fragment,
    read host store partition options address range
        = .ok (fragment, slice content (resolveContentRange range content.length)) ∧
      ∃ payloads,
        readStream host store partition options address range
          = .ok (fragment, resolveContentRange range content.length, payloads) ∧
        payloads.flatten = slice content (resolveContentRange range content.length)

theorem resolveContentRange_bounds (range : Option Span) (size : Nat) :
    (resolveContentRange range size).start ≤ (resolveContentRange range size).stop ∧
      (resolveContentRange range size).stop ≤ size := by
  cases range with
  | none => exact ⟨Nat.zero_le _, Nat.le_refl _⟩
  | some range =>
    simp only [resolveContentRange]
    omega

theorem loadRoot_of_load {address f b size} (ha : options.Admits size)
    (hsi : f.sizeContent.toNat = size)
    (hl : loadFragment host store partition address options.withDecompress = .ok (f, b)) :
    loadRoot host store partition options address = .ok (f, b) := by
  unfold loadRoot
  rw [hl]
  simp [checkMaxContentSize_of_admits ha (Nat.le_of_eq hsi)]

theorem HoldsLeaf.readsBack {hash} (h : HoldsLeaf host store partition context hash content)
    (ha : options.Admits content.length) :
    ReadsBack host store partition options ⟨hash, context⟩ content := by
  intro range
  obtain ⟨f, hlo, hl, hsi⟩ := h.load (ReadOptions.decompress_withDecompress options)
  have hro := loadRoot_of_load ha hsi hlo
  refine ⟨f, ?_⟩
  unfold read readStream readRootContent
  simp only [hro, ok_bind, hsi, hl]
  generalize hr : resolveContentRange range content.length = r
  have hb := resolveContentRange_bounds range content.length
  rw [hr] at hb
  by_cases he : r.isEmpty = true
  · simp only [he, if_true, ok_bind, slice_of_isEmpty content he]
    exact ⟨trivial, [], rfl, rfl⟩
  · have hcut : cutContent content r = .ok (slice content r) := by
      exact if_neg (by omega)
    simp only [he, Bool.false_eq_true, if_false, hcut, ok_bind]
    exact ⟨trivial, [slice content r], rfl, by simp⟩

variable {height : Nat} {root : List FragmentReference}
  (h : Holds host store partition context content height root content.length)
  (hl : content.length < u64Limit) (hh : height ≤ maxFragmentTreeDepth)
  (hf : nextOffset root content.length = 0)
include h hl hh hf

theorem Holds.defragmentPipeline_eq {fragment range} (options : ReadOptions)
    (hsi : fragment.sizeContent.toNat = content.length)
    (hp : fragment.sizePayload.toNat = (listBytes root).length) (hpos : range.start < range.stop)
    (hle : range.stop ≤ content.length) :
    ∃ payloads, defragmentPipeline host store partition context options.withDecompress fragment
        (listBytes root) range = .ok payloads ∧
      payloads.flatten = slice content range := by
  have hr : nextOffset root content.length < content.length := by omega
  obtain ⟨head, rest, hli, hhe⟩ := nextOffset_eq_head hr
  have hw : walkFragmentTree host store partition context options.withDecompress fragment
      (listBytes root) range
      = walkFragmentLevel host store partition context options.withDecompress
        (maxFragmentTreeDepth + 2) root content.length range 0 := by
    unfold walkFragmentTree walkFragmentTreeWith
    rw [if_neg (by omega), asReferences_listBytes, hli]
    simp only [hhe, hf, hsi, checkedAdd, Nat.zero_add]
    rw [if_pos (by omega), if_pos (by omega)]
  obtain ⟨leaves, he, hd⟩ := h.emitsAll_walkFragmentLevel
    (ReadOptions.decompress_withDecompress options) hl range (maxFragmentTreeDepth + 2)
    content.length 0 (Nat.le_refl _) hr (by omega) (by omega) (by omega)
  obtain ⟨outbox, hrun, hse⟩ := he .fresh
  -- what a finished walk sends tiles the range
  obtain ⟨-, xs, hxs, head', rest', hli', hc⟩ :=
    (meets_walkFragmentLevel fun _ => False.elim).sends none .fresh outbox hrun rfl
  obtain rfl : xs = leaves := append_cancel_left (hxs.symm.trans hse)
  rw [hli] at hli'
  cases hli'
  have ht := hc.tiles (by omega)
  rw [show max head.offsetContent.toNat range.start = range.start by omega,
    show min (head.offsetContent.toNat + content.length) range.stop = range.stop by omega]
    at ht
  refine ⟨xs.map fun leaf => slice content (leaf.placed range), ?_, ?_⟩
  · unfold defragmentPipeline
    rw [hw, hrun]
    simp only
    rw [hse]
    refine mapM_eq_ok.mpr ?_
    rw [forall₂_map_right_iff]
    exact forall₂_same.mpr hd
  · rw [← ht.flatten_slices content, map_map]
    rfl

theorem HoldsList.readsBack {hash}
    (hro : HoldsList host store partition context hash root content.length)
    (ha : options.Admits content.length) :
    ReadsBack host store partition options ⟨hash, context⟩ content := by
  intro range
  have hdec := ReadOptions.decompress_withDecompress options
  obtain ⟨f, hlo, hfr, hsi, hp⟩ := hro.load hdec
  have hlo' := loadRoot_of_load ha hsi hlo
  refine ⟨f, ?_⟩
  unfold read readStream readRootContent
  simp only [hlo', ok_bind, hsi, hfr, if_true]
  generalize hr : resolveContentRange range content.length = r
  have hb := resolveContentRange_bounds range content.length
  rw [hr] at hb
  by_cases he : r.isEmpty = true
  · simp only [he, if_true, ok_bind, slice_of_isEmpty content he]
    exact ⟨trivial, [], rfl, rfl⟩
  · have hpos : r.start < r.stop := by
      have := mt decide_eq_true he
      omega
    have hre := @Holds.readDefragment_eq _ _ _ _ _ _ hdec ha hl _ readFuel _ _ 0 r f
      (.allocate r.length) h (Nat.le_refl _) (by omega) hp
      (by unfold readFuel maxFragmentTreeDepth at *; omega)
      (by unfold maxFragmentTreeDepth at *; omega) hpos (by omega) length_replicate
    obtain ⟨payloads, hst, hfl⟩ := h.defragmentPipeline_eq hl hh hf options hsi hp hpos hb.2
    simp only [hf, Nat.zero_add] at hre
    simp only [he, Bool.false_eq_true, if_false, hre, ok_bind, assembled_map_some, hst]
    exact ⟨trivial, payloads, rfl, hfl⟩

end Lore.Storage
