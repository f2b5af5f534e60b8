import Lore.Storage.Level
import Lore.Storage.Read

/-!
# ReadSpec — what a finished read of one list has done

Inversion of the reader: a load that ended well returned the stored payload or
its expansion; a piece that was read came from the fragment its entry names,
either by descending into a list or by cutting a leaf; and a list that was read
filled its target with the pieces of the entries the range reaches, each piece
ending where the next begins.
-/

namespace Lore.Storage

open Lore.Lib List FragmentFlags

/-! ## Loads -/

theorem ReadOptions.withDecompress_eq {options : ReadOptions} (h : options.decompress = true) :
    options.withDecompress = options := by
  cases options
  cases h
  rfl

theorem Fragment.isFragmented_expanded (fragment : Fragment) :
    fragment.expanded.isFragmented = fragment.isFragmented := by
  have hm : ~~~payloadCompressed &&& payloadFragmented
      = payloadFragmented := by decide
  simp only [Fragment.isFragmented, Fragment.expanded, BitVec.and_assoc, hm]

variable {host : Host} {fragment f : Fragment} {b payload : Bytes}

theorem decompressInto_ok {compressed capacity}
    (h : decompressInto host fragment compressed capacity = .ok (f, b)) :
    f = fragment.expanded ∧ b.length = fragment.sizeContent.toNat := by
  simp only [decompressInto] at h
  split_ifs at h
  cases hc : selectCodec fragment.flags with
  | error e => simp [hc] at h
  | ok codec =>
    simp only [hc] at h
    cases hdec : host.decode codec (compressed.take fragment.sizePayload.toNat)
        fragment.sizeContent.toNat with
    | none => simp [hdec] at h
    | some content =>
      simp only [hdec] at h
      split_ifs at h with hlen
      cases h
      exact ⟨rfl, by simpa using hlen⟩

section

variable (h : expandPayload host fragment payload = .ok (f, b))
include h

theorem expandPayload_ok :
    checkPayloadSizes fragment payload.length = .ok () ∧
      ((fragment.isCompressed = false ∧ f = fragment ∧ b = payload) ∨
        (fragment.isCompressed = true ∧
          decompressInto host fragment payload fragment.sizeContent.toNat = .ok (f, b))) := by
  unfold expandPayload at h
  cases hsi : checkPayloadSizes fragment payload.length with
  | error e => simp [hsi] at h
  | ok u =>
    refine ⟨rfl, ?_⟩
    simp only [hsi] at h
    split at h
    · next hc => exact .inr ⟨hc, h⟩
    · next hc =>
        cases h
        exact .inl ⟨by simpa using hc, rfl, rfl⟩

theorem expandPayload_isFragmented : f.isFragmented = fragment.isFragmented := by
  obtain ⟨-, ⟨-, rfl, -⟩ | ⟨-, hdec⟩⟩ := expandPayload_ok h
  · rfl
  · rw [(decompressInto_ok hdec).1, Fragment.isFragmented_expanded]

theorem expandPayload_sizeContent : f.sizeContent = fragment.sizeContent := by
  obtain ⟨-, ⟨-, rfl, -⟩ | ⟨-, hdec⟩⟩ := expandPayload_ok h
  · rfl
  · rw [(decompressInto_ok hdec).1]
    rfl

end

theorem loadFragment_ok {store partition address options loaded} (hz : isZero address.hash = false)
    (hdec : options.decompress = true)
    (h : loadFragment host store partition address options = .ok loaded) :
    ∃ fragment payload, store partition address = some (fragment, payload) ∧
      expandPayload host fragment payload = .ok loaded := by
  simp only [loadFragment, hz, hdec] at h
  cases hs : store partition address with
  | none => simp [hs] at h
  | some stored =>
    obtain ⟨fragment, payload⟩ := stored
    refine ⟨fragment, payload, rfl, ?_⟩
    simp only [hs] at h
    cases he : expandPayload host fragment payload with
    | ok result =>
      rw [he] at h
      simpa using h
    | error e =>
      rw [he] at h
      cases e <;> simp at h

theorem validateFragmentPayload_of_checkPayloadSizes {len}
    (h : checkPayloadSizes fragment len = .ok ()) :
    validateFragmentPayload fragment len = .ok () := by
  unfold checkPayloadSizes at h
  split at h
  · cases h
  · assumption

/-! ## One piece -/

section

variable {options : ReadOptions}

/-- The caller's cap, where there is one, admits content of `size` bytes. -/
def ReadOptions.Admits (options : ReadOptions) (size : Nat) : Prop :=
  ∀ maximum, options.maxContentSize = some maximum → size ≤ maximum

theorem checkMaxContentSize_of_admits {fragment size} (h : options.Admits size)
    (hle : fragment.sizeContent.toNat ≤ size) :
    checkMaxContentSize fragment options.maxContentSize = .ok () := by
  cases hmax : options.maxContentSize with
  | none => rfl
  | some maximum =>
    have := h maximum hmax
    exact if_neg (by omega)

end

theorem validateBufferCapacity_ends {E} (hE : ∀ e : StorageError, e.isOversized = true → E e)
    (size capacity : Nat) : Ends E (fun _ => size ≤ capacity) (validateBufferCapacity size capacity) := by
  unfold validateBufferCapacity
  split
  · exact .error (hE _ rfl)
  · exact .ok (by omega)

theorem checkMaxContentSize_ends {E options} {fragment : Fragment}
    (hE : ¬ ReadOptions.Admits options fragment.sizeContent.toNat → ∀ e, E e) :
    Ends E (fun _ => True) (checkMaxContentSize fragment options.maxContentSize) := by
  by_cases ha : options.Admits fragment.sizeContent.toNat
  · rw [checkMaxContentSize_of_admits ha (Nat.le_refl _)]
    exact .ok trivial
  · cases checkMaxContentSize fragment options.maxContentSize with
    | error e => exact hE ha e
    | ok _ => trivial

theorem CallerBuffer.place_all {dst : CallerBuffer} {bytes : Bytes}
    (h : bytes.length = dst.length) : dst.place bytes = bytes.map some := by
  rw [place, h, drop_length, append_nil]

theorem assembled_map_some (bytes : Bytes) : assembled (bytes.map some) = .ok bytes := by
  have hall : (bytes.map some).mapM id = some bytes := by
    induction bytes with
    | nil => rfl
    | cons b rest ih => simp [ih]
  rw [assembled, hall]

theorem slice_whole {α : Type} {xs : List α} {s : Span} (h0 : s.start = 0)
    (h : s.length = xs.length) : slice xs s = xs := by
  rw [slice, h0, drop_zero, h, take_length]

section Piece

variable {host : Host} {store : ContentStore} {partition : Partition} {options : ReadOptions}
  {recur : Defragment} {address : Address} {range : Span} {target : CallerBuffer} {depth : Nat}

theorem contentPayloadForBuffer_eq {fragment payload}
    (hs : store partition address = some (fragment, payload))
    (hv : validateFragmentPayload fragment payload.length = .ok ()) :
    contentPayloadForBuffer store partition address target
      = if payloadIsContent fragment then
          validateBufferCapacity payload.length target.length >>= fun _ =>
            .ok (fragment, .placed (target.place payload))
        else .ok (fragment, .stored payload) := by
  simp only [contentPayloadForBuffer, hs, hv]

/-- The piece is what the list read over the range gave, or the range cut from the leaf. -/
def PieceOf (recur : Defragment) (f : Fragment) (b : Bytes) (range : Span)
    (target : CallerBuffer) (depth : Nat) (part : CallerBuffer) : Prop :=
  (f.isFragmented = true ∧ recur range f b target depth = .ok part) ∨
    (f.isFragmented = false ∧ range.stop ≤ b.length ∧ part = (slice b range).map some)

theorem pieceOf_place {f b} (hf : f.isFragmented = false) (hb : b.length = target.length) :
    PieceOf recur f b ⟨0, target.length⟩ target depth (target.place b) := by
  refine .inr ⟨hf, Nat.le_of_eq hb.symm, ?_⟩
  rw [CallerBuffer.place_all hb, slice_whole rfl (by simp [Span.length, hb])]

theorem deliverRootIntoBuffer_ends {E} (hE : ∀ e : StorageError, e.isOversized = true → E e)
    (hr : ∀ e cells, cells.length = f.sizeContent.toNat →
      recur ⟨0, f.sizeContent.toNat⟩ f b cells depth = .error e → E e) :
    Ends E (fun delivered => delivered.1 = target.length → 0 < target.length →
        recur ⟨0, target.length⟩ f b target depth = .ok delivered.2)
      (deliverRootIntoBuffer recur f b target depth) := by
  unfold deliverRootIntoBuffer
  dsimp only
  split
  · refine .ok fun hw hpos => ?_
    omega
  · refine (validateBufferCapacity_ends hE _ _).bind fun _ hro => ?_
    have hle : f.sizeContent.toNat ≤ target.length := hro
    cases hrec : recur (resolveContentRange none f.sizeContent.toNat) f b
        (target.take (resolveContentRange none f.sizeContent.toNat).length) depth with
    | error e =>
      refine .error (hr e _ ?_ hrec)
      rw [length_take]
      exact Nat.min_eq_left hle
    | ok out =>
      refine .ok fun hw _ => ?_
      have hsi : f.sizeContent.toNat = target.length := hw
      simp only [resolveContentRange, Span.length, hsi, Nat.sub_zero, take_length,
        drop_length, append_nil] at hrec ⊢
      exact hrec

/-- What a read of the piece has to find: the caller admits the content, the list below can
be read, a leaf holds the range. -/
structure Readable (options : ReadOptions) (recur : Defragment) (f : Fragment) (b : Bytes)
    (range : Span) (target : CallerBuffer) (depth : Nat) : Prop where
  admits : options.Admits f.sizeContent.toNat
  list : f.isFragmented = true → (∃ out, recur range f b target depth = .ok out) ∧
    ∀ cells : CallerBuffer, cells.length = f.sizeContent.toNat →
      ∃ out, recur ⟨0, f.sizeContent.toNat⟩ f b cells depth = .ok out
  leaf : f.isFragmented = false → range.start ≤ range.stop ∧ range.stop ≤ b.length

/-- Where a payload is the content or expands to it, placing it whole is what cutting
the loaded leaf would have done; a list is read from its start. Of a piece that can be read,
this only ever fails for want of room. -/
theorem readContentIntoBuffer_ends {fragment f : Fragment} {payload b : Bytes}
    (hs : store partition address = some (fragment, payload))
    (hl : expandPayload host fragment payload = .ok (f, b))
    (hp : fragment.isFragmented = true → fragment.sizeContent.toNat = target.length →
      fragment.isCompressed = false) :
    Ends (fun e => Readable options recur f b range target depth → e.isOversized = true)
      (fun placed => ∀ written filled, placed = some (written, filled) → written = target.length →
        0 < target.length → PieceOf recur f b ⟨0, target.length⟩ target depth filled)
      (readContentIntoBuffer host store partition options recur address target depth) := by
  obtain ⟨hsi, hca⟩ := expandPayload_ok hl
  have hv := validateFragmentPayload_of_checkPayloadSizes hsi
  obtain ⟨hlen, -, -, hpS⟩ := checkPayloadSizes_ok hsi
  have hmax : ¬ options.Admits fragment.sizeContent.toNat → ∀ e : StorageError,
      Readable options recur f b range target depth → e.isOversized = true := by
    intro hna e hr
    rw [← expandPayload_sizeContent hl] at hna
    exact absurd hr.admits hna
  rw [readContentIntoBuffer, contentPayloadForBuffer_eq hs hv]
  by_cases hco : payloadIsContent fragment = true
  · -- the payload is the content
    rw [if_pos hco, bind_assoc]
    refine (validateBufferCapacity_ends (fun e he _ => he) _ _).bind fun _ _ => ?_
    refine (checkMaxContentSize_ends hmax).bind fun _ _ => .ok ?_
    rintro written filled ⟨⟩ hw -
    simp only [payloadIsContent, payloadIsPlain, Bool.and_eq_true, Bool.not_eq_true',
      beq_iff_eq] at hco
    obtain ⟨⟨hfr, hcom⟩, hsa⟩ := hco
    rcases hca with ⟨-, rfl, rfl⟩ | ⟨hc, -⟩
    · exact pieceOf_place hfr (by omega)
    · rw [hcom] at hc
      cases hc
  · rw [if_neg hco, ok_bind]
    simp only [hsi]
    refine (checkMaxContentSize_ends hmax).bind fun _ _ => ?_
    rcases hca with ⟨hcom, rfl, rfl⟩ | ⟨hcom, hdec⟩
    · rw [if_neg (by simp [hcom])]
      by_cases hfr : f.isFragmented = true
      · -- a list, read from its start into the whole target
        rw [if_pos hfr]
        refine (deliverRootIntoBuffer_ends (fun e he _ => he) fun e cells hc he hr => ?_).bind
          fun delivered hd => .ok ?_
        · obtain ⟨out, hout⟩ := (hr.list hfr).2 cells hc
          cases he.symm.trans hout
        · rintro written filled ⟨⟩ hw hpos
          exact .inl ⟨hfr, hd hw hpos⟩
      · -- plain payloads of agreeing sizes are content
        have hp' : payloadIsPlain f = true := by
          simp [payloadIsPlain, hcom, hfr]
        have := hpS hp'
        exact absurd (by simp [payloadIsContent, hp']; omega) hco
    · -- an expanded payload
      obtain ⟨rfl, hb⟩ := decompressInto_ok hdec
      rw [if_pos hcom]
      refine (validateBufferCapacity_ends (fun e he _ => he) _ _).bind fun _ _ => ?_
      rw [hdec]
      rintro written filled ⟨⟩ hw -
      have hfr : fragment.isFragmented = false := by
        cases hf : fragment.isFragmented with
        | false => rfl
        | true =>
          rw [hp hf hw] at hcom
          cases hcom
      rw [← Fragment.isFragmented_expanded] at hfr
      exact pieceOf_place hfr (by omega)

theorem loadPiece_ends {f : Fragment} {b : Bytes}
    (hl : loadFragment host store partition address options = .ok (f, b))
    (hlen : target.length = range.length) :
    Ends (fun _ => ¬ Readable options recur f b range target depth)
      (PieceOf recur f b range target depth)
      (loadPiece host store partition options recur address range target depth) := by
  unfold loadPiece
  rw [hl, ok_bind]
  dsimp only
  by_cases hf : f.isFragmented = true
  · rw [if_pos hf]
    cases hrec : recur range f b target depth with
    | error e =>
      refine .error fun hr => ?_
      obtain ⟨out, hout⟩ := (hr.list hf).1
      cases hrec.symm.trans hout
    | ok part => exact .ok (.inl ⟨hf, hrec⟩)
  · have hf' : f.isFragmented = false := by simpa using hf
    rw [if_neg hf]
    split
    · refine .error fun hr => ?_
      have := hr.leaf hf'
      omega
    · have hsl : (slice b range).length = range.length := length_slice_of_le (by omega)
      rw [if_neg (by omega)]
      exact .ok (.inr ⟨hf', by omega, CallerBuffer.place_all (by rw [hsl, hlen])⟩)

variable (recur depth) in
/-- **One piece.** A piece read for an entry is the entry's list read over the same
range, or the same part cut from the entry's leaf; a piece that can be read is. -/
theorem readDefragmentSubread_ends {f} {b : Bytes} (hz : isZero address.hash = false)
    (hdec : options.decompress = true)
    (hl : loadFragment host store partition address options = .ok (f, b))
    (hpl : ∀ fragment payload, store partition address = some (fragment, payload) →
      fragment.isFragmented = true → range.start = 0 →
      fragment.sizeContent.toNat = target.length → fragment.isCompressed = false)
    (hlen : target.length = range.length) (hpos : 0 < target.length) :
    Ends (fun _ => ¬ Readable options recur f b range target depth)
      (PieceOf recur f b range target depth)
      (readDefragmentSubread host store partition options recur address range target depth) := by
  obtain ⟨fragment, payload, hs, he⟩ := loadFragment_ok hz hdec hl
  have hpi := @loadPiece_ends host store partition options recur address range target depth f b hl hlen
  unfold readDefragmentSubread placeWholeLeaf
  split
  · exact hpi
  next hst =>
    have hco := @readContentIntoBuffer_ends host store partition options recur address range target
      depth fragment f payload b hs he fun hf => hpl fragment payload hs hf (not_not.mp hst)
    split
    next written filled hre =>
      split
      next hw =>
        -- the whole content was placed
        have hr : range = ⟨0, target.length⟩ := by
          obtain ⟨start, stop⟩ := range
          obtain rfl : start = 0 := not_not.mp hst
          rw [hlen]
          rfl
        have hpa := hco.of_ok hre written filled rfl hw hpos
        rw [← hr] at hpa
        exact .ok hpa
      · exact hpi
    · exact hpi
    next e hre =>
      rw [hre] at hco
      split
      · exact hpi
      next hno => exact .error fun hr => hno (hco hr)

end Piece

/-! ## The pieces of one list -/

section Entries

variable {context : Context} {list : List FragmentReference} {levelEnd : Nat} {r : Span}
  {subread : Address → Span → CallerBuffer → Except StorageError CallerBuffer} {a b : Nat}

/-- The piece of the range `a ≤ x < e` that entry `i` holds, `e` being where the next
piece begins or the range ends, was read into `part`. -/
def PieceRead (context : Context) (list : List FragmentReference) (levelEnd : Nat)
    (subread : Address → Span → CallerBuffer → Except StorageError CallerBuffer)
    (a b : Nat) (last : Nat) (i : Nat) (part : CallerBuffer) : Prop :=
  ∃ reference s e cells, list[i]? = some reference ∧
    (entryWindows list levelEnd)[i]? = some s ∧
    e = (if i = last then b else s.stop) ∧ max s.start a < e ∧
    cells.length = e - max s.start a ∧
    subread ⟨reference.hash, context⟩ ⟨max s.start a - s.start, e - s.start⟩ cells = .ok part

/-- One round of the loop reads what its entry holds of the range that is left. -/
theorem readEntries_concat {start n targetEnd s target}
    (hs : (entryWindows list levelEnd)[start + n]? = some s)
    (hpos : max s.start a < a + targetEnd) (hlen : target.length = targetEnd) :
    ∃ reference, list[start + n]? = some reference ∧
      readEntries context subread list a (range' start (n + 1)).reverse targetEnd target =
        (do
          let _ ← addU64 a targetEnd
          let filled ← subread ⟨reference.hash, context⟩
            ⟨max s.start a - s.start, a + targetEnd - s.start⟩
            (target.drop (target.length - (a + targetEnd - max s.start a)))
          let (left, before) ← readEntries context subread list a (range' start n).reverse
            (targetEnd - (a + targetEnd - max s.start a))
            (target.take (target.length - (a + targetEnd - max s.start a)))
          .ok (left, before ++ filled)) := by
  obtain ⟨reference, href⟩ : ∃ x, list[start + n]? = some x := by
    have hlt := (List.getElem?_eq_some_iff.mp hs).1
    rw [length_entryWindows] at hlt
    exact ⟨_, getElem?_eq_getElem hlt⟩
  have hoff : reference.offsetContent.toNat = s.start := by
    rw [getElem?_entryWindows, href] at hs
    cases hs
    rfl
  refine ⟨reference, href, ?_⟩
  rw [range'_1_concat, reverse_append, reverse_singleton, singleton_append,
    readEntries, if_neg (by omega), indexSlice_of_getElem? href]
  cases hadd : addU64 a targetEnd with
  | error e => rfl
  | ok endOffset =>
    obtain rfl := addU64_eq_ok hadd
    have hr : (if a + targetEnd - s.start > targetEnd then targetEnd
        else a + targetEnd - s.start) = a + targetEnd - max s.start a := by
      split <;> omega
    have hl : (if a + targetEnd - s.start > targetEnd then a - s.start else 0)
        = max s.start a - s.start := by
      split <;> omega
    simp only [ok_bind, hoff]
    rw [if_neg (by omega), hr, hl, subU64_ok (by omega), ok_bind,
      show max s.start a - s.start + (a + targetEnd - max s.start a)
        = a + targetEnd - s.start by omega]

theorem WantedIs.stop_before (hv : ValidLevel list levelEnd)
    (hw : WantedIs list levelEnd ⟨a, b⟩ (some r)) {n s s'} (hn : 0 < n) (hle : r.start + n < r.stop)
    (hs : (entryWindows list levelEnd)[r.start + n]? = some s)
    (hs' : (entryWindows list levelEnd)[r.start + n - 1]? = some s') :
    s'.stop = s.start ∧ a < s'.stop := by
  have hr := (reached_iff_lt hs').mp ((hw.2.2 _).mpr ⟨by omega, by omega⟩)
  refine ⟨hv.tiles.adjacent hs' ?_, by omega⟩
  rw [show r.start + n - 1 + 1 = r.start + n by omega]
  exact hs

/-- The loop over the entries `r.start, …, r.start + n - 1`, back to front, with the
target holding the range up to the end of the last of them. -/
theorem readEntries_ok (hv : ValidLevel list levelEnd) (hw : WantedIs list levelEnd ⟨a, b⟩ (some r))
    {n targetEnd target left out} (hn : r.start + n ≤ r.stop)
    (hend : ∀ s, 0 < n → (entryWindows list levelEnd)[r.start + n - 1]? = some s →
      a + targetEnd = if r.start + n = r.stop then b else s.stop) (hlen : target.length = targetEnd)
    (h : readEntries context subread list a (range' r.start n).reverse targetEnd target
      = .ok (left, out)) :
    ∃ before parts, before.length = left ∧
      List.Forall₂ (PieceRead context list levelEnd subread a b (r.stop - 1))
        (range' r.start n) parts ∧
      out = before ++ parts.flatten := by
  induction n generalizing targetEnd target out with
  | zero =>
    cases h
    exact ⟨target, [], hlen, List.Forall₂.nil, by simp⟩
  | succ n ih =>
    -- entry `r.start + n` is reached, so its window overlaps the range
    obtain ⟨s, hs, hre⟩ := ((hw.2.2 (r.start + n)).mpr ⟨by omega, by omega⟩).exists_window
    have hend' := hend s (by omega) hs
    have hpos : max s.start a < a + targetEnd := by
      rw [hend']
      split <;> omega
    obtain ⟨reference, href, hr⟩ := readEntries_concat hs hpos hlen
    rw [hr] at h
    obtain ⟨_, -, h⟩ := bind_eq_ok.mp h
    obtain ⟨filled, hf, h⟩ := bind_eq_ok.mp h
    obtain ⟨⟨left', out'⟩, hres, h⟩ := bind_eq_ok.mp h
    cases h
    obtain ⟨before, parts, hb, hp, rfl⟩ := ih (by omega) (fun s' hn' hs' => by
      obtain ⟨hadj, hst⟩ := hw.stop_before hv hn' (by omega) hs hs'
      rw [if_neg (by omega)]
      omega) (by simp; omega) hres
    refine ⟨before, parts ++ [filled], hb, ?_, by simp⟩
    rw [range'_1_concat]
    refine rel_append hp (List.Forall₂.cons ?_ List.Forall₂.nil)
    refine ⟨reference, s, a + targetEnd, _, href, hs, ?_, hpos, by simp; omega, hf⟩
    rw [hend']
    by_cases hl : r.start + (n + 1) = r.stop
    · rw [if_pos hl, if_pos (by omega)]
    · rw [if_neg hl, if_neg (by omega)]

end Entries

/-- **One list.** A list that was read over a non-empty range, from `a` to `b` in the
content, is a valid level, and the target holds the pieces of the entries the range reaches,
in order. -/
theorem readDefragmentBody_ok
    {host store partition context options recur head rest fragment buffer target out depth}
    {levelEnd a b : Nat} (hre : asReferences buffer = head :: rest)
    (hsi : head.offsetContent.toNat + fragment.sizeContent.toNat = levelEnd)
    (ha : head.offsetContent.toNat ≤ a) (hlt : a < b) (hlen : target.length = b - a)
    (h : readDefragmentBody host store partition context options recur
      ⟨a - head.offsetContent.toNat, b - head.offsetContent.toNat⟩ fragment buffer target depth
        = .ok out) :
    ValidLevel (head :: rest) levelEnd ∧
      ∃ r parts, WantedIs (head :: rest) levelEnd ⟨a, b⟩ (some r) ∧
        List.Forall₂ (PieceRead context (head :: rest) levelEnd
            (fun address subrange subtarget =>
              readDefragmentSubread host store partition options recur address subrange
                subtarget (depth + 1))
            a b (r.stop - 1))
          (range' r.start (r.stop - r.start)) parts ∧
        out = parts.flatten := by
  have hl : min (Span.length ⟨a - head.offsetContent.toNat, b - head.offsetContent.toNat⟩)
      target.length = b - a := by
    simp only [Span.length]
    omega
  have hst : a + (b - a) = b := by omega
  unfold readDefragmentBody at h
  simp only [hre, hl, checkedAdd, Nat.sub_add_cancel ha, hsi] at h
  split_ifs at h with hd hp ho he
  obtain ⟨windowStop, hsto, h⟩ := bind_eq_ok.mp h
  obtain rfl := addU64_eq_ok hsto
  obtain ⟨wanted, hwa, h⟩ := bind_eq_ok.mp h
  obtain ⟨⟨left, filled⟩, he, h⟩ := bind_eq_ok.mp h
  split_ifs at h with hle
  cases h
  rw [hst] at hwa
  obtain ⟨hv, hw⟩ := wantedEntries_ok hwa
  refine ⟨hv, ?_⟩
  cases wanted with
  | none =>
    -- nothing to read leaves the whole range in no entry
    cases he
    omega
  | some r =>
    have hr : r.start + (r.stop - r.start) = r.stop := by
      have := hw.1
      omega
    obtain ⟨before, parts, hb, hp, rfl⟩ :=
      readEntries_ok hv hw (n := r.stop - r.start) (by omega)
        (fun s _ _ => by rw [if_pos hr, hst]) hlen he
    have hnil : before = [] := length_eq_zero_iff.mp (by omega)
    exact ⟨r, parts, hw, hp, by rw [hnil, nil_append]⟩

end Lore.Storage
