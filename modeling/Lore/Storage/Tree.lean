import Lore.Storage.ReadSpec

/-!
# Tree — a store that holds content as a fragment tree

What it means for a store to hold some content below a list of references, level
by level, and that `read_defragment` delivers it: the target is filled with the
range it was asked for. Offsets in a list are absolute, so the statements speak of
the whole content and the window a list has in it.
-/

namespace Lore.Storage

open Lore.Lib List

section Holds

variable (host : Host) (store : ContentStore) (partition : Partition) (context : Context)

/-- The store holds a leaf of content `bytes` under `hash`, which names them. -/
structure HoldsLeaf (hash : Hash) (bytes : Bytes) : Prop where
  hash_ne : isZero hash = false
  named : hash = host.hash bytes
  stored : ∃ fragment payload f, store partition ⟨hash, context⟩ = some (fragment, payload) ∧
    fragment.isFragmented = false ∧ fragment.sizeContent.toNat = bytes.length ∧
    expandPayload host fragment payload = .ok (f, bytes)

/-- The store holds the list of `references`, for `size` bytes of content, under
`hash`, which names the list's bytes. -/
structure HoldsList (hash : Hash) (references : List FragmentReference) (size : Nat) : Prop where
  hash_ne : isZero hash = false
  named : hash = host.hash (listBytes references)
  stored : ∃ fragment, store partition ⟨hash, context⟩ = some (fragment, listBytes references) ∧
    fragment.isFragmented = true ∧ fragment.isCompressed = false ∧
    fragment.sizeContent.toNat = size ∧
    checkPayloadSizes fragment (listBytes references).length = .ok ()

/-- The store holds, below the list, the part of `content` from the list's first offset
to `levelEnd`: as leaves at height 0, as lists one level lower above that. -/
def Holds (content : Bytes) : Nat → List FragmentReference → Nat → Prop
  | 0, list, levelEnd =>
      ValidLevel list levelEnd ∧ ∀ p ∈ list.zip (entryWindows list levelEnd),
        p.2.length ≤ fragmentSizeThreshold ∧
          HoldsLeaf host store partition context p.1.hash (slice content p.2)
  | height + 1, list, levelEnd =>
      ValidLevel list levelEnd ∧ ∀ p ∈ list.zip (entryWindows list levelEnd),
        ∃ sub, HoldsList host store partition context p.1.hash sub p.2.length ∧
          nextOffset sub p.2.stop = p.2.start ∧ Holds content height sub p.2.stop

end Holds

variable {host : Host} {store : ContentStore} {partition : Partition} {context : Context}
  {options : ReadOptions} {content : Bytes}

theorem Holds.valid {height levelEnd list}
    (h : Holds host store partition context content height list levelEnd) :
    ValidLevel list levelEnd := by
  cases height with
  | zero | succ height => exact h.1

theorem mem_zip_entryWindows {list} {levelEnd i : Nat} {r} {s : Span} (hr : list[i]? = some r)
    (hs : (entryWindows list levelEnd)[i]? = some s) :
    (r, s) ∈ list.zip (entryWindows list levelEnd) :=
  mem_of_getElem? (i := i) (getElem?_zip_eq_some.mpr ⟨hr, hs⟩)

/-! ## Loading what is held -/

theorem loadFragment_of_expandPayload {address fragment payload loaded}
    (hz : isZero address.hash = false) (hdec : options.decompress = true)
    (hs : store partition address = some (fragment, payload))
    (h : expandPayload host fragment payload = .ok loaded) :
    loadFragment host store partition address options = .ok loaded := by
  simp [loadFragment, hz, hs, hdec, h]

theorem HoldsLeaf.load {hash bytes} (h : HoldsLeaf host store partition context hash bytes)
    (hdec : options.decompress = true) :
    ∃ f, loadFragment host store partition ⟨hash, context⟩ options = .ok (f, bytes) ∧
      f.isFragmented = false ∧ f.sizeContent.toNat = bytes.length := by
  obtain ⟨fragment, payload, f, hs, hf, hsi, he⟩ := h.stored
  refine ⟨f, loadFragment_of_expandPayload h.hash_ne hdec hs he, ?_, ?_⟩
  · rw [expandPayload_isFragmented he, hf]
  · rw [expandPayload_sizeContent he, hsi]

theorem HoldsList.load {hash references size}
    (h : HoldsList host store partition context hash references size)
    (hdec : options.decompress = true) :
    ∃ f, loadFragment host store partition ⟨hash, context⟩ options
        = .ok (f, listBytes references) ∧
      f.isFragmented = true ∧ f.sizeContent.toNat = size ∧
      f.sizePayload.toNat = (listBytes references).length := by
  obtain ⟨f, hs, hf, hco, hsi, hc⟩ := h.stored
  have he : expandPayload host f (listBytes references) = .ok (f, listBytes references) := by
    simp only [expandPayload, hc, hco, Bool.false_eq_true, if_false]
  exact ⟨f, loadFragment_of_expandPayload h.hash_ne hdec hs he, hf, hsi,
    (checkPayloadSizes_ok hc).1.symm⟩

/-! ## Reading into a buffer -/

section Piece

variable {recur : Defragment} {range : Span} {target : CallerBuffer} {depth : Nat}

theorem HoldsLeaf.subread {hash bytes} (h : HoldsLeaf host store partition context hash bytes)
    (hdec : options.decompress = true) (ha : options.Admits bytes.length)
    (hpos : range.start < range.stop) (hle : range.stop ≤ bytes.length)
    (hlen : target.length = range.length) :
    readDefragmentSubread host store partition options recur ⟨hash, context⟩ range target depth
      = .ok ((slice bytes range).map some) := by
  obtain ⟨fragment, payload, -, hs, hf, -, -⟩ := h.stored
  obtain ⟨f, hlo, hl, hsi⟩ := h.load hdec
  obtain ⟨part, hpa, hpi⟩ := (readDefragmentSubread_ends recur depth h.hash_ne hdec hlo
    (fun fragment' payload' hs' hf' _ _ => by
      rw [hs] at hs'
      cases hs'
      rw [hf] at hf'
      cases hf')
    hlen (by rw [hlen, Span.length]; omega)).exists_ok fun _ hno => hno
      ⟨by rwa [hsi], fun hli => (by cases hl.symm.trans hli),
        fun _ => ⟨Nat.le_of_lt hpos, hle⟩⟩
  rw [hpa]
  rcases hpi with ⟨hli, -⟩ | ⟨-, -, rfl⟩
  · cases hl.symm.trans hli
  · rfl

theorem HoldsList.subread {hash references size base}
    (h : HoldsList host store partition context hash references size)
    (hdec : options.decompress = true) (ha : options.Admits size)
    (hre : ∀ (f : Fragment) (range : Span) (cells : CallerBuffer),
      f.sizeContent.toNat = size → f.sizePayload.toNat = (listBytes references).length →
      range.start < range.stop → range.stop ≤ size → cells.length = range.length →
      recur range f (listBytes references) cells depth
        = .ok ((slice content ⟨base + range.start, base + range.stop⟩).map some))
    (hpos : range.start < range.stop) (hle : range.stop ≤ size)
    (hlen : target.length = range.length) :
    readDefragmentSubread host store partition options recur ⟨hash, context⟩ range target depth
      = .ok ((slice content ⟨base + range.start, base + range.stop⟩).map some) := by
  obtain ⟨fragment, hs, -, hco, -, -⟩ := h.stored
  obtain ⟨f, hlo, hli, hsi, hf⟩ := h.load hdec
  have hr := hre f range target hsi hf hpos hle hlen
  have hwh : ∀ cells : CallerBuffer, cells.length = f.sizeContent.toNat →
      ∃ out, recur ⟨0, f.sizeContent.toNat⟩ f (listBytes references) cells depth = .ok out := by
    intro cells hc
    rw [hsi] at hc ⊢
    exact ⟨_, hre f ⟨0, size⟩ cells hsi hf (by simp only; omega) (Nat.le_refl _)
      (by rw [hc, Span.length, Nat.sub_zero])⟩
  obtain ⟨part, hpa, hpi⟩ := (readDefragmentSubread_ends recur depth h.hash_ne hdec hlo
    (fun fragment' payload' hs' _ _ _ => by
      rw [hs] at hs'
      cases hs'
      exact hco)
    hlen (by rw [hlen, Span.length]; omega)).exists_ok fun _ hno => hno
      ⟨by rwa [hsi], fun _ => ⟨⟨_, hr⟩, hwh⟩, fun hl => by cases hli.symm.trans hl⟩
  rw [hpa]
  rcases hpi with ⟨-, hrec⟩ | ⟨hl, -⟩
  · exact hrec.symm.trans hr
  · cases hli.symm.trans hl

end Piece

section Entries

variable {list : List FragmentReference} {levelEnd a b : Nat} {r : Span}
  {subread : Address → Span → CallerBuffer → Except StorageError CallerBuffer}

section

variable (hv : ValidLevel list levelEnd) (hw : WantedIs list levelEnd ⟨a, b⟩ (some r))
include hv hw

theorem WantedIs.first_start (ha : nextOffset list levelEnd ≤ a) {s}
    (hs : (entryWindows list levelEnd)[r.start]? = some s) : s.start ≤ a := by
  obtain ⟨hlt, hle, hiff⟩ := hw
  have hr := (reached_iff_lt hs).mp ((hiff r.start).mpr ⟨Nat.le_refl _, hlt⟩)
  cases hst : r.start with
  | zero =>
    rw [hst] at hs
    cases list with
    | nil => simp at hs
    | cons head rest =>
      cases hs
      exact ha
  | succ k =>
    -- the entry before is not reached, so it ends before the window
    rw [hst] at hs
    obtain ⟨t, ht⟩ : ∃ t, (entryWindows list levelEnd)[k]? = some t :=
      ⟨_, getElem?_eq_getElem (by
        have := (List.getElem?_eq_some_iff.mp hs).1
        omega)⟩
    have hadj := hv.tiles.adjacent ht hs
    have hb := hv.tiles.mem_bounds (mem_of_getElem? ht)
    have hnot := mt (hiff k).mp (by omega)
    rw [reached_iff_lt ht] at hnot
    omega

theorem WantedIs.last_stop (hb : b ≤ levelEnd) {k s} (hk : k + 1 = r.stop)
    (hs : (entryWindows list levelEnd)[k]? = some s) : b ≤ s.stop := by
  obtain ⟨hlt, hle, hiff⟩ := hw
  have hr := (reached_iff_lt hs).mp ((hiff k).mpr ⟨by omega, by omega⟩)
  by_cases hn : r.stop < list.length
  · -- the entry after is not reached, so the window ends before it
    obtain ⟨t, ht⟩ : ∃ t, (entryWindows list levelEnd)[k + 1]? = some t :=
      ⟨_, getElem?_eq_getElem (by rw [length_entryWindows]; omega)⟩
    have hadj := hv.tiles.adjacent hs ht
    have hbo := hv.tiles.mem_bounds (mem_of_getElem? ht)
    have hnot := mt (hiff (k + 1)).mp (by omega)
    rw [reached_iff_lt ht] at hnot
    omega
  · rw [getElem?_entryWindows, drop_eq_nil_of_le (by omega)] at hs
    obtain ⟨_, -, rfl⟩ := Option.map_eq_some_iff.mp hs
    exact hb

/-- **The loop over the entries.** Where every piece of the window is read, so is the
part of it the first `n` reached entries hold. -/
theorem readEntries_total (ha : nextOffset list levelEnd ≤ a)
    (hb : b ≤ levelEnd) (hend : levelEnd < u64Limit)
    (hp : ∀ (i : Nat) (reference : FragmentReference) (s : Span) (e : Nat)
      (cells : CallerBuffer), list[i]? = some reference →
      (entryWindows list levelEnd)[i]? = some s → max s.start a < e → e ≤ s.stop →
      cells.length = e - max s.start a →
      subread ⟨reference.hash, context⟩ ⟨max s.start a - s.start, e - s.start⟩ cells
        = .ok ((slice content ⟨max s.start a, e⟩).map some))
    {n targetEnd target} (hn : r.start + n ≤ r.stop) (hz : n = 0 → targetEnd = 0)
    (hl : ∀ s, 0 < n → (entryWindows list levelEnd)[r.start + n - 1]? = some s →
      a + targetEnd = if r.start + n = r.stop then b else s.stop)
    (hlen : target.length = targetEnd) :
    readEntries context subread list a (range' r.start n).reverse targetEnd target
      = .ok (0, (slice content ⟨a, a + targetEnd⟩).map some) := by
  induction n generalizing targetEnd target with
  | zero =>
    obtain rfl := hz rfl
    rw [length_eq_zero_iff.mp hlen, Nat.add_zero, slice_empty]
    rfl
  | succ n ih =>
    obtain ⟨s, hs, hre⟩ := ((hw.2.2 (r.start + n)).mpr ⟨by omega, by omega⟩).exists_window
    have hbo := hv.tiles.mem_bounds (mem_of_getElem? hs)
    have hl' := hl s (by omega) hs
    -- what is left of the window ends inside this entry
    have hst : max s.start a < a + targetEnd ∧ a + targetEnd ≤ s.stop := by
      by_cases hd : r.start + (n + 1) = r.stop
      · rw [if_pos hd] at hl'
        have := hw.last_stop hv hb (by omega) hs
        omega
      · rw [if_neg hd] at hl'
        omega
    obtain ⟨reference, href, hr⟩ := readEntries_concat hs hst.1 hlen
    rw [hr, addU64_ok (by omega), ok_bind,
      hp _ _ _ _ _ href hs hst.1 hst.2 (by rw [length_drop]; omega), ok_bind,
      ih (by omega) ?_ ?_ (by rw [length_take]; omega), ok_bind]
    · simp only [← map_append]
      rw [show a + (targetEnd - (a + targetEnd - max s.start a))
        = max s.start a by omega, slice_append_slice _ (by omega) (by omega)]
    · -- the first entry reached holds the start of the window
      rintro rfl
      have := hw.first_start hv ha hs
      omega
    · intro s' hn' hs'
      obtain ⟨hadj, hst'⟩ := hw.stop_before hv hn' (by omega) hs hs'
      rw [if_neg (by omega)]
      omega

end

theorem WantedIs.exists_some (hv : ValidLevel list levelEnd) {window wanted}
    (hw : WantedIs list levelEnd window wanted)
    (hm : max (nextOffset list levelEnd) window.start < min levelEnd window.stop) :
    ∃ r, wanted = some r := by
  cases wanted with
  | some r => exact ⟨r, rfl⟩
  | none =>
    have ht := (hv.tiles.overlap window).1 hm
    rw [hw.no_overlaps] at ht
    have : max (nextOffset list levelEnd) window.start = min levelEnd window.stop := ht
    omega

end Entries

theorem readDefragmentBody_total {recur list levelEnd depth range fragment target}
    (hv : ValidLevel list levelEnd) (hend : levelEnd < u64Limit)
    (hsi : nextOffset list levelEnd + fragment.sizeContent.toNat = levelEnd)
    (hpa : fragment.sizePayload.toNat = (listBytes list).length) (hd : depth ≤ 16)
    (hpos : range.start < range.stop) (hle : range.stop ≤ fragment.sizeContent.toNat)
    (hlen : target.length = range.length)
    (hp : ∀ (i : Nat) (reference : FragmentReference) (s : Span) (a e : Nat)
      (cells : CallerBuffer), list[i]? = some reference →
      (entryWindows list levelEnd)[i]? = some s → s.start ≤ a → a < e → e ≤ s.stop →
      cells.length = e - a →
      readDefragmentSubread host store partition options recur ⟨reference.hash, context⟩
          ⟨a - s.start, e - s.start⟩ cells (depth + 1)
        = .ok ((slice content ⟨a, e⟩).map some)) :
    readDefragmentBody host store partition context options recur range fragment
        (listBytes list) target depth
      = .ok ((slice content ⟨nextOffset list levelEnd + range.start,
          nextOffset list levelEnd + range.stop⟩).map some) := by
  cases hli : list with
  | nil =>
    subst hli
    simp only [nextOffset_nil] at hsi
    omega
  | cons head rest =>
    rw [← hli]
    have hb : head.offsetContent.toNat = nextOffset list levelEnd := by
      rw [hli, nextOffset_cons]
    obtain ⟨wanted, hwa⟩ := wantedEntries_of_valid hv
      ⟨nextOffset list levelEnd + range.start, nextOffset list levelEnd + range.stop⟩
    have hw := (wantedEntries_ok hwa).2
    obtain ⟨r, rfl⟩ := hw.exists_some hv (by simp only; omega)
    have hr := hw.1
    have he : readEntries context
        (fun address subrange subtarget =>
          readDefragmentSubread host store partition options recur address subrange subtarget
            (depth + 1))
        list (nextOffset list levelEnd + range.start)
        (range' r.start (r.stop - r.start)).reverse range.length target = _ :=
      readEntries_total hv hw (by omega) (by omega) hend
        (fun i reference s e cells href hs hlt hle' hc =>
          hp i reference s (max s.start _) e cells href hs (by omega) hlt hle' hc)
        (n := r.stop - r.start) (by omega) (by omega)
        (fun s _ _ => by
          rw [if_pos (by omega), Span.length]
          omega)
        hlen
    have hl : nextOffset list levelEnd + range.start + range.length
        = nextOffset list levelEnd + range.stop := by
      rw [Span.length]
      omega
    unfold readDefragmentBody
    rw [if_neg (by omega), if_neg (by omega), asReferences_listBytes, hli]
    simp only [checkedAdd]
    rw [hb, if_pos (by omega), if_pos (by omega)]
    simp only
    rw [hlen, Nat.min_self, Nat.add_comm range.start, addU64_ok (by omega), ok_bind, hl,
      hsi, ← hli, hwa, ok_bind]
    simp only [Option.getD_some]
    rw [he]
    simp [hl]

/-- **Reading a held tree.** `read_defragment` of a list that holds content delivers
every range of it. -/
theorem Holds.readDefragment_eq (hdec : options.decompress = true)
    (ha : options.Admits content.length) (hl : content.length < u64Limit)
    {height fuel list levelEnd depth range} {fragment : Fragment} {target}
    (h : Holds host store partition context content height list levelEnd)
    (hend : levelEnd ≤ content.length)
    (hsi : nextOffset list levelEnd + fragment.sizeContent.toNat = levelEnd)
    (hpa : fragment.sizePayload.toNat = (listBytes list).length)
    (hfu : height < fuel) (hd : depth + height ≤ 16) (hpos : range.start < range.stop)
    (hle : range.stop ≤ fragment.sizeContent.toNat) (hlen : target.length = range.length) :
    readDefragment host store partition context options fuel range fragment (listBytes list)
        target depth
      = .ok ((slice content ⟨nextOffset list levelEnd + range.start,
          nextOffset list levelEnd + range.stop⟩).map some) := by
  induction height generalizing fuel list levelEnd depth range fragment target with
  | zero =>
    obtain ⟨fuel, rfl⟩ : ∃ k, fuel = k + 1 := ⟨fuel - 1, by omega⟩
    refine readDefragmentBody_total h.valid (by omega) hsi hpa (by omega) hpos hle hlen ?_
    intro i reference s a e cells href hs hsa hae hes hc
    obtain ⟨-, hlea⟩ := h.2 _ (mem_zip_entryWindows href hs)
    have hbo := h.valid.tiles.mem_bounds (mem_of_getElem? hs)
    have hsl : (slice content s).length = s.length := length_slice_of_le (by omega)
    have ha' : options.Admits (slice content s).length := by
      intro m hm
      have := ha m hm
      rw [hsl, Span.length]
      omega
    have hr := slice_slice content (s := s) (t := ⟨a - s.start, e - s.start⟩)
      (by simp only [Span.length]; omega)
    simp only [show s.start + (a - s.start) = a by omega,
      show s.start + (e - s.start) = e by omega] at hr
    rw [← hr]
    exact hlea.subread hdec ha' (by simp only; omega)
      (by simp only [hsl, Span.length]; omega) (by simp only [Span.length]; omega)
  | succ height ih =>
    obtain ⟨fuel, rfl⟩ : ∃ k, fuel = k + 1 := ⟨fuel - 1, by omega⟩
    refine readDefragmentBody_total h.valid (by omega) hsi hpa (by omega) hpos hle hlen ?_
    intro i reference s a e cells href hs hsa hae hes hc
    obtain ⟨sub, hsub, hst, hb⟩ := h.2 _ (mem_zip_entryWindows href hs)
    simp only at hsub hst hb
    have hbo := h.valid.tiles.mem_bounds (mem_of_getElem? hs)
    have ha' : options.Admits s.length := by
      intro m hm
      have := ha m hm
      rw [Span.length]
      omega
    have hr : readDefragmentSubread host store partition options
        (readDefragment host store partition context options fuel) ⟨reference.hash, context⟩
        ⟨a - s.start, e - s.start⟩ cells (depth + 1)
        = .ok ((slice content ⟨s.start + (a - s.start), s.start + (e - s.start)⟩).map some) := by
      refine hsub.subread hdec ha' ?_ (by simp only; omega)
        (by simp only [Span.length]; omega) (by simp only [Span.length]; omega)
      intro f range cells hf hp hpos' hle' hc'
      rw [← hst]
      exact ih hb (by omega) (by rw [hf, Span.length]; omega) hp (by omega) (by omega)
        hpos' (by omega) hc'
    rw [show s.start + (a - s.start) = a by omega, show s.start + (e - s.start) = e by omega] at hr
    exact hr

end Lore.Storage
