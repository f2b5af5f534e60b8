import Lore.Storage.BucketFile

/-!
# BucketFileSpec — reading a bucket file gives what was written

The two read paths of `deserializeFileContent` are each given one spec lemma over a file
laid out as header, index, entries and trailer. The round trip of a written file and the
reading of the older layouts follow from them.
-/

namespace Lore.Storage

open Lore.Lib List Layout

/-! ## The recorded sizes -/

theorem recordableSizes_some {buffer sizes unsettled} (hb : buffer.length = trailerSizes + 1)
    (h : recordableSizes buffer unsettled = some sizes) :
    sizes.length ≤ trailerSizes + 1 ∧ ∀ first ∈ sizes.head?, first.id ≤ sizesIdMask := by
  cases unsettled with
  | none => simp [recordableSizes] at h
  | some n =>
    obtain ⟨hid, h⟩ := Option.ite_none_right_eq_some.mp h
    cases h
    refine ⟨?_, hid⟩
    rw [length_take]
    omega

/-- The header word of `count` sizes whose first id is `id`, as a number: the flag, the
count and the id do not overlap. -/
theorem toNat_packed {count : Nat} {id : UInt32} (hc : count < 128) (hid : id.toNat < 2 ^ 24) :
    (sizesRecorded ||| (UInt32.ofNat count <<< sizesCountShift) ||| id).toNat
      = 2 ^ 24 * (128 + count) + id.toNat := by
  have hsh : (UInt32.ofNat count <<< sizesCountShift).toNat = 2 ^ 24 * count := by
    rw [UInt32.toNat_shiftLeft, UInt32.toNat_ofNat']
    have hs : sizesCountShift.toNat % 32 = 24 := rfl
    rw [hs]
    omega
  have hf : sizesRecorded.toNat = 2 ^ 31 * 1 := rfl
  have hlow : 2 ^ 24 * count < 2 ^ 31 := by omega
  rw [UInt32.toNat_or, UInt32.toNat_or, hsh, hf, ← Nat.two_pow_add_eq_or_of_lt hlow]
  have hh : 2 ^ 31 * 1 + 2 ^ 24 * count = 2 ^ 24 * (128 + count) := by omega
  rw [hh, ← Nat.two_pow_add_eq_or_of_lt hid]

theorem packed_parts {word count id} (hc : count < 128) (hid : id < 2 ^ 24)
    (hw : word.toNat = 2 ^ 24 * (128 + count) + id) :
    word &&& sizesRecorded ≠ 0
      ∧ ((word &&& ~~~sizesRecorded) >>> sizesCountShift).toNat = count
      ∧ (word &&& sizesIdMask).toNat = id := by
  have hk : (~~~sizesRecorded : UInt32).toNat = 2 ^ 31 - 1 := rfl
  have hm : sizesIdMask.toNat = 2 ^ 24 - 1 := rfl
  have hsh : sizesCountShift.toNat % 32 = 24 := rfl
  refine ⟨fun hz => ?_, ?_, ?_⟩
  · have hbit := congrArg (fun w : UInt32 => w.toNat.testBit 31) hz
    have hf : sizesRecorded.toNat = 2 ^ 31 := rfl
    simp only [UInt32.toNat_and, hf, Nat.testBit_and, Nat.testBit_two_pow_self,
      Bool.and_true, UInt32.toNat_zero, Nat.zero_testBit] at hbit
    rw [Nat.testBit_eq_decide_div_mod_eq] at hbit
    simp only [decide_eq_false_iff_not] at hbit
    omega
  · rw [UInt32.toNat_shiftRight, UInt32.toNat_and, hk, hsh, Nat.and_two_pow_sub_one_eq_mod]
    omega
  · rw [UInt32.toNat_and, hm, Nat.and_two_pow_sub_one_eq_mod]
    omega

theorem recordedSizes_recordSizes (header : ImmutableStoreHeader) {sizes}
    (hlen : sizes.length ≤ trailerSizes + 1) (hid : ∀ first ∈ sizes.head?, first.id ≤ sizesIdMask) :
    (header.recordSizes sizes).recordedSizes (packfileSizeLayout.encodeAll sizes.tail)
      = .recorded sizes.head? (packfileSizeLayout.encodeAll sizes.tail) := by
  have ht : trailerSizes = 12 := rfl
  cases sizes with
  | nil =>
    have hw : (header.recordSizes []).packfileSizes = sizesRecorded := by
      change sizesRecorded ||| (UInt32.ofNat 0 <<< sizesCountShift) = sizesRecorded
      decide
    have hc : (header.recordSizes []).sizesCount = 0 := by
      rw [ImmutableStoreHeader.sizesCount, hw]
      decide
    rw [ImmutableStoreHeader.recordedSizes, hw, hc]
    rfl
  | cons first rest =>
    have hc : rest.length + 1 < 128 := by
      rw [length_cons] at hlen
      omega
    have hidl : first.id.toNat < 2 ^ 24 := by
      have h := UInt32.le_iff_toNat_le.mp (hid first rfl)
      have hm : sizesIdMask.toNat = 2 ^ 24 - 1 := rfl
      omega
    obtain ⟨hfl, hsi, hw⟩ := packed_parts hc hidl (toNat_packed hc hidl)
    have hfl' : (header.recordSizes (first :: rest)).packfileSizes &&& sizesRecorded ≠ 0 := hfl
    have hb : (header.recordSizes (first :: rest)).sizesCount = rest.length + 1 := hsi
    have hi : (header.recordSizes (first :: rest)).packfileSizes &&& sizesIdMask
        = first.id := UInt32.toNat_inj.mp hw
    have hl : ((header.recordSizes (first :: rest)).sizesCount - 1) * packfileSizeLayout.size
        = (packfileSizeLayout.encodeAll (first :: rest).tail).length := by
      rw [hb, length_encodeAll]
      rfl
    rw [ImmutableStoreHeader.recordedSizes, if_neg hfl', if_neg (not_not.mpr hl),
      if_pos (by omega), hi]
    rfl

theorem RecordedSizes.sizes_recorded (sizes : List PackfileSize) :
    (RecordedSizes.recorded sizes.head? (packfileSizeLayout.encodeAll sizes.tail)).sizes
      = sizes := by
  have hc : (packfileSizeLayout.encodeAll sizes.tail).length / packfileSizeLayout.size
      = sizes.tail.length := by
    rw [length_encodeAll, packfileSizeLayout_size]
    omega
  have hr := packfileSizeLayout.decodeAll_encodeAll sizes.tail []
  rw [append_nil] at hr
  rw [RecordedSizes.sizes, hc, hr]
  cases sizes with
  | nil | cons first rest => rfl

/-! ## The two layouts of a file -/

theorem IoFile.holding_body (front body rest : Bytes) :
    IoFile.holding (front ++ (body ++ rest)) body.length front.length = .ok body := by
  rw [IoFile.holding, if_pos (by simp only [length_append]; omega), drop_left, take_left]

theorem readFrom_encodeAll {α : Type} (layout : Layout α) {count} (xs : List α)
    (hc : xs.length = count) (what : String) (rest : Bytes) :
    readFrom layout count what (layout.encodeAll xs ++ rest) = .ok (xs, rest) := by
  rw [readFrom, ← hc, layout.readArray_encodeAll]

section CurrentLayout

variable (header : ImmutableStoreHeader) (sortedIndex : List UInt32)
  (entry : List ImmutableStoreEntry) (trailer : Bytes)

/-- A file of the current layout. -/
def fileBytes : Bytes :=
  headerLayout.encode header
    ++ ((Layout.u32.encodeAll sortedIndex ++ entryLayout.encodeAll entry) ++ trailer)

/-- Where the entries of `count` end. -/
def entriesEnd (count : Nat) : Nat :=
  headerLayout.size + count * (Layout.u32.size + entryLayout.size)

section

variable (hlen : sortedIndex.length = entry.length)
include hlen

theorem length_segments :
    (Layout.u32.encodeAll sortedIndex ++ entryLayout.encodeAll entry).length
      = entry.length * Layout.u32.size + entry.length * entryLayout.size := by
  rw [length_append, length_encodeAll, length_encodeAll, hlen]

theorem length_fileBytes :
    (fileBytes header sortedIndex entry trailer).length
      = entriesEnd entry.length + trailer.length := by
  rw [fileBytes, length_append, length_append, length_segments _ _ hlen,
    headerLayout.length_encode, entriesEnd, Nat.mul_add]
  omega

theorem drop_entriesEnd :
    (fileBytes header sortedIndex entry trailer).drop (entriesEnd entry.length) = trailer := by
  rw [fileBytes, ← append_assoc]
  apply drop_left'
  rw [length_append, length_segments _ _ hlen, headerLayout.length_encode, entriesEnd, Nat.mul_add]

variable {header sortedIndex entry trailer} {bytes : Bytes}
  (hbytes : bytes = fileBytes header sortedIndex entry trailer)
include hbytes

theorem segmentsFromHead_eq :
    segmentsFromHead bytes bytes.length (entriesEnd entry.length) entry.length
      = .ok (sortedIndex, entry, trailer) := by
  have hb : bytes.drop headerLayout.size
      = u32.encodeAll sortedIndex ++ (entryLayout.encodeAll entry ++ trailer) := by
    rw [hbytes, fileBytes, drop_left' (headerLayout.length_encode header), append_assoc]
  have hend : bytes.drop (entriesEnd entry.length) = trailer := by
    rw [hbytes, drop_entriesEnd _ _ _ _ hlen]
  simp [segmentsFromHead, hb, readFrom_encodeAll u32 sortedIndex hlen,
    readFrom_encodeAll entryLayout entry rfl, hend, bind, Except.bind, pure, Except.pure]

/-- The trailer read from the file records the same sizes: where it is not read, either
the header records none or there is nothing after the entries. -/
theorem trailerFromFile_eq :
    ∃ read, trailerFromFile (.holding bytes) header bytes.length (entriesEnd entry.length)
        = .ok read
      ∧ header.recordedSizes read = header.recordedSizes trailer := by
  have hl : bytes.length = entriesEnd entry.length + trailer.length := by
    rw [hbytes, length_fileBytes _ _ _ _ hlen]
  rw [trailerFromFile]
  split
  case isTrue h =>
    refine ⟨trailer, ?_, rfl⟩
    rw [IoFile.holding, if_pos (by omega), take_of_length_le (Nat.le_of_eq length_drop), hbytes,
      drop_entriesEnd _ _ _ _ hlen]
    rfl
  case isFalse h =>
    refine ⟨[], rfl, ?_⟩
    by_cases hf : header.packfileSizes &&& sizesRecorded = 0
    · rw [ImmutableStoreHeader.recordedSizes, if_pos hf, ImmutableStoreHeader.recordedSizes,
        if_pos hf]
    · have hend : ¬ entriesEnd entry.length < bytes.length := fun hlt => h ⟨hf, hlt⟩
      have hnil : trailer = [] := eq_nil_of_length_eq_zero (by omega)
      rw [hnil]

theorem segmentsFromFile_eq :
    ∃ read, segmentsFromFile (.holding bytes) header bytes.length (entriesEnd entry.length)
        entry.length = .ok (sortedIndex, entry, read)
      ∧ header.recordedSizes read = header.recordedSizes trailer := by
  obtain ⟨read, ht, hsi⟩ := trailerFromFile_eq hlen hbytes
  refine ⟨read, ?_, hsi⟩
  have hr : IoFile.holding bytes (entry.length * u32.size + entry.length * entryLayout.size)
      headerLayout.size = .ok (u32.encodeAll sortedIndex ++ entryLayout.encodeAll entry) := by
    rw [← length_segments _ _ hlen, ← headerLayout.length_encode header, hbytes, fileBytes,
      IoFile.holding_body]
  have hi : u32.decodeAll entry.length
      (u32.encodeAll sortedIndex ++ entryLayout.encodeAll entry) = sortedIndex := by
    rw [← hlen, decodeAll_encodeAll]
  have he : entryLayout.decodeAll entry.length
      ((u32.encodeAll sortedIndex ++ entryLayout.encodeAll entry).drop
        (entry.length * u32.size)) = entry := by
    rw [drop_left' (by rw [length_encodeAll, hlen])]
    simpa using entryLayout.decodeAll_encodeAll entry []
  simp [segmentsFromFile, hr, Except.mapError, ht, hi, he, bind, Except.bind, pure, Except.pure]

theorem deserializeEntries_eq (headRead : Nat) :
    deserializeEntries (.holding bytes) bytes.length (bytes.take headRead) header
        (Layout.u32.size + entryLayout.size) entry.length
      = .ok ⟨sortedIndex, entry, header.version < ImmutableStoreVersion.packfilePerGroup.asU32,
          false, header.recordedSizes trailer⟩ := by
  rw [deserializeEntries]
  by_cases hfi : bytes.length ≤ (bytes.take headRead).length
  · have hall := take_of_length_le (Nat.le_trans hfi (length_take_le headRead bytes))
    have hh := segmentsFromHead_eq hlen hbytes
    rw [entriesEnd] at hh
    simp only [hall, if_pos (Nat.le_refl _), hh, bind, Except.bind, pure, Except.pure]
  · obtain ⟨read, hf, hsi⟩ := segmentsFromFile_eq hlen hbytes
    rw [entriesEnd] at hf
    simp only [if_neg hfi, hf, hsi, bind, Except.bind, pure, Except.pure]

end

end CurrentLayout

/-- A file of a layout before `LastAccessInEntry`: the entries without a last access, and
after them the timestamps, where the version has them. -/
def legacyFileBytes (header : ImmutableStoreHeader) (sortedIndex : List UInt32)
    (entry : List ImmutableStoreEntryBeforeLastAccess) (lastAccess : List UInt32) : Bytes :=
  headerLayout.encode header
    ++ ((Layout.u32.encodeAll sortedIndex ++ entryBeforeLastAccessLayout.encodeAll entry)
      ++ Layout.u32.encodeAll lastAccess)

/-- Both read paths of the older layouts give the index and the entries, each with no last
access. -/
theorem deserializeLegacyEntries_eq {header : ImmutableStoreHeader} {sortedIndex : List UInt32}
    {entry : List ImmutableStoreEntryBeforeLastAccess} {lastAccess : List UInt32} {bytes : Bytes}
    (hlen : sortedIndex.length = entry.length)
    (hbytes : bytes = legacyFileBytes header sortedIndex entry lastAccess) (headRead : Nat) :
    deserializeLegacyEntries (.holding bytes) bytes.length (bytes.take headRead) header entry.length
      = .ok ⟨sortedIndex, entry.map (·.upgrade),
          header.version < ImmutableStoreVersion.packfilePerGroup.asU32, true, .unrecorded⟩ := by
  have hi := readFrom_encodeAll u32 sortedIndex hlen "read sorted index"
  have he := readFrom_encodeAll entryBeforeLastAccessLayout entry rfl "read legacy entries"
  rw [deserializeLegacyEntries]
  have hb : bytes.drop headerLayout.size
      = u32.encodeAll sortedIndex ++ (entryBeforeLastAccessLayout.encodeAll entry
        ++ u32.encodeAll lastAccess) := by
    rw [hbytes, legacyFileBytes, drop_left' (headerLayout.length_encode header), append_assoc]
  by_cases hf : bytes.length ≤ (bytes.take headRead).length
  · have hall := take_of_length_le (Nat.le_trans hf (length_take_le headRead bytes))
    simp only [hall, if_pos (Nat.le_refl _), hb, hi, he, bind, Except.bind, pure, Except.pure]
  · have hr : IoFile.holding bytes (bytes.length - headerLayout.size) headerLayout.size
        = .ok (bytes.drop headerLayout.size) := by
      have hh : headerLayout.size ≤ bytes.length := by
        rw [hbytes, legacyFileBytes, length_append, headerLayout.length_encode]
        omega
      rw [IoFile.holding, if_pos (by omega), take_of_length_le (Nat.le_of_eq length_drop)]
    simp only [if_neg hf, hr, Except.mapError, hb, hi, he, bind, Except.bind, pure, Except.pure]

/-! ## The whole file -/

variable {header : ImmutableStoreHeader} {version : ImmutableStoreVersion}
  {sortedIndex : List UInt32}

/-- The file of an accepted version: the entries are counted from the length. -/
theorem deserializeBytes_eq (path : String) {bytes body : Bytes} {perEntry count : Nat}
    (hbytes : bytes = headerLayout.encode header ++ body)
    (hper : perEntrySize header.version = some perEntry)
    (hc : header.version ≤ ImmutableStoreVersion.lazyFanOut.asU32)
    (hb : body.length / perEntry = count) (hco : count ≠ 0 → header.count = UInt32.ofNat count) :
    deserializeBytes path bytes
      = if count = 0 then .ok .empty
        else if header.version ≥ ImmutableStoreVersion.lastAccessInEntry.asU32 then
          deserializeEntries (.holding bytes) bytes.length (bytes.take bucketHeadRead) header
            perEntry count
        else
          deserializeLegacyEntries (.holding bytes) bytes.length (bytes.take bucketHeadRead)
            header count := by
  have hsi : headerLayout.size ≤ bucketHeadRead := by decide
  have ht : bytes.take bucketHeadRead
      = headerLayout.encode header ++ body.take (bucketHeadRead - headerLayout.size) := by
    rw [hbytes, take_append, headerLayout.length_encode,
      take_of_length_le (by rw [headerLayout.length_encode]; exact hsi)]
  have hh : ¬ (bytes.take bucketHeadRead).length < headerLayout.size := by
    rw [ht, length_append, headerLayout.length_encode]
    omega
  have hd : headerLayout.decode (bytes.take bucketHeadRead) = header := by
    rw [ht, headerLayout.decode_encode]
  have hl : bytes.length - headerLayout.size = body.length := by
    rw [hbytes, length_append, headerLayout.length_encode]
    omega
  have hf : ¬ (header.version > ImmutableStoreVersion.lazyFanOut.asU32
      ∧ header.version < 0xFFFF) := fun h => UInt32.not_lt.mpr hc h.1
  simp only [deserializeBytes, deserializeFileContent, if_neg hh, hd, if_neg hf, hper, hl, hb]
  split
  case isTrue => rfl
  case isFalse hne => simp [hco hne]

theorem deserializeBytes_current (path : String)
    (hv : version = .lastAccessInEntry ∨ version = .lazyFanOut)
    (hh : header.version = version.asU32) {entry trailer}
    (hc : header.count = UInt32.ofNat entry.length) (hlen : sortedIndex.length = entry.length)
    (ht : trailer.length < Layout.u32.size + entryLayout.size) :
    deserializeBytes path (fileBytes header sortedIndex entry trailer)
      = .ok (if entry = [] then .empty
          else ⟨sortedIndex, entry, false, false, header.recordedSizes trailer⟩) := by
  have hb : ((u32.encodeAll sortedIndex ++ entryLayout.encodeAll entry)
      ++ trailer).length / (u32.size + entryLayout.size) = entry.length := by
    rw [length_append, length_segments _ _ hlen, ← Nat.mul_add, Nat.mul_comm,
      Nat.mul_add_div (by decide), Nat.div_eq_of_lt ht, Nat.add_zero]
  have hper : perEntrySize header.version = some (u32.size + entryLayout.size) := by
    rw [hh]
    rcases hv with rfl | rfl <;> rfl
  have hr : header.version ≤ ImmutableStoreVersion.lazyFanOut.asU32
      ∧ header.version ≥ ImmutableStoreVersion.lastAccessInEntry.asU32
      ∧ ¬ header.version < ImmutableStoreVersion.packfilePerGroup.asU32 := by
    rw [hh]
    rcases hv with rfl | rfl <;> decide
  rw [deserializeBytes_eq path (rfl : fileBytes header sortedIndex entry trailer = _) hper hr.1 hb
    fun _ => hc, if_pos hr.2.1, deserializeEntries_eq hlen rfl, decide_eq_false hr.2.2]
  simp only [length_eq_zero_iff]
  split <;> rfl

theorem deserializeBytes_legacy (path : String)
    (hv : version = .lastAccessTimestamps ∨ version = .packfilePerGroup)
    (hh : header.version = version.asU32) {lastAccess entry}
    (hc : header.count = UInt32.ofNat entry.length) (hlen : sortedIndex.length = entry.length)
    (hst : lastAccess.length = entry.length) :
    deserializeBytes path (legacyFileBytes header sortedIndex entry lastAccess)
      = .ok (if entry = [] then .empty
          else ⟨sortedIndex, entry.map (·.upgrade), version = .lastAccessTimestamps, true,
            .unrecorded⟩) := by
  have hb : ((u32.encodeAll sortedIndex ++ entryBeforeLastAccessLayout.encodeAll entry)
      ++ u32.encodeAll lastAccess).length / (u32.size + entryBeforeLastAccessLayout.size + u32.size)
      = entry.length := by
    rw [length_append, length_append, length_encodeAll,
      length_encodeAll, length_encodeAll, hlen, hst, ← Nat.mul_add,
      ← Nat.mul_add, Nat.mul_div_cancel _ (by decide)]
  have hper : perEntrySize header.version
      = some (u32.size + entryBeforeLastAccessLayout.size + u32.size) := by
    rw [hh]
    rcases hv with rfl | rfl <;> rfl
  have hr : header.version ≤ ImmutableStoreVersion.lazyFanOut.asU32
      ∧ ¬ header.version ≥ ImmutableStoreVersion.lastAccessInEntry.asU32
      ∧ (header.version < ImmutableStoreVersion.packfilePerGroup.asU32
        ↔ version = .lastAccessTimestamps) := by
    rw [hh]
    rcases hv with rfl | rfl <;> decide
  rw [deserializeBytes_eq path (rfl : legacyFileBytes header sortedIndex entry lastAccess = _) hper
    hr.1 hb fun _ => hc, if_neg hr.2.1, deserializeLegacyEntries_eq hlen rfl,
    decide_eq_decide.mpr hr.2.2]
  simp only [length_eq_zero_iff]
  split <;> rfl

theorem bucketFileBytes_eq (version : UInt32) (sortedIndex : List UInt32)
    (entry : List ImmutableStoreEntry) (sizes : List PackfileSize) :
    bucketFileBytes version sortedIndex entry sizes
      = fileBytes (ImmutableStoreHeader.recordSizes ⟨version, 0, UInt32.ofNat entry.length, 0⟩
          sizes) sortedIndex entry (packfileSizeLayout.encodeAll sizes.tail) := by
  rw [bucketFileBytes, ImmutableBucketWrite.finish, ImmutableBucketWrite.copy,
    drop_left' (by simp), fileBytes, append_assoc]

theorem recordSizes_frame (header : ImmutableStoreHeader) (sizes : List PackfileSize) :
    (header.recordSizes sizes).version = header.version
      ∧ (header.recordSizes sizes).count = header.count := by
  cases sizes with
  | nil | cons first rest => exact ⟨rfl, rfl⟩

/-- Reading a written bucket file: the entries and the index come back, and, where there
are entries, the sizes. -/
theorem deserializeBytes_bucketFileBytes (path : String)
    (hv : version = .lastAccessInEntry ∨ version = .lazyFanOut) {entry sizes buffer unsettled}
    (hb : buffer.length = trailerSizes + 1) (hsi : recordableSizes buffer unsettled = some sizes)
    (hlen : sortedIndex.length = entry.length) :
    deserializeBytes path (bucketFileBytes version.asU32 sortedIndex entry sizes)
      = .ok (if entry = [] then .empty
          else ⟨sortedIndex, entry, false, false,
            .recorded sizes.head? (packfileSizeLayout.encodeAll sizes.tail)⟩) := by
  obtain ⟨hfi, hid⟩ := recordableSizes_some hb hsi
  have hf := recordSizes_frame ⟨version.asU32, 0, UInt32.ofNat entry.length, 0⟩ sizes
  have ht : (packfileSizeLayout.encodeAll sizes.tail).length
      < u32.size + entryLayout.size := by
    have he : u32.size + entryLayout.size = 100 := rfl
    have hm : trailerSizes = 12 := rfl
    rw [length_encodeAll, packfileSizeLayout_size, length_tail]
    omega
  rw [bucketFileBytes_eq, deserializeBytes_current path hv hf.1 hf.2 hlen ht,
    recordedSizes_recordSizes _ hfi hid]

/-- The codec of a bucket's index file. What is written is read back, by either read path,
with its index, its entries and, when there are entries, the recorded sizes. A file in the
layout of any version from the timestamps on is read as its entries, those of the older
layouts with no last access. -/
theorem bucketFile_readsBack (path : String) (version : ImmutableStoreVersion) :
    (version = .lastAccessInEntry ∨ version = .lazyFanOut →
      ∀ (sortedIndex : List UInt32) (entry : List ImmutableStoreEntry)
        (buffer sizes : List PackfileSize) (unsettled : Option Nat),
        sortedIndex.length = entry.length → buffer.length = trailerSizes + 1 →
        recordableSizes buffer unsettled = some sizes →
        ∃ file, deserializeBytes path (bucketFileBytes version.asU32 sortedIndex entry sizes)
            = .ok file
          ∧ file.sortedIndex = sortedIndex ∧ file.entry = entry
          ∧ (entry ≠ [] → file.sizes.sizes = sizes
            ∧ ∃ first rest, file.sizes = .recorded first rest))
    ∧ (version = .lastAccessInEntry ∨ version = .lazyFanOut →
      ∀ (header : ImmutableStoreHeader) (sortedIndex : List UInt32)
        (entry : List ImmutableStoreEntry) (trailer : Bytes),
        header.version = version.asU32 → header.count = UInt32.ofNat entry.length →
        sortedIndex.length = entry.length →
        trailer.length < Layout.u32.size + entryLayout.size →
        ∃ file, deserializeBytes path (fileBytes header sortedIndex entry trailer) = .ok file
          ∧ file.sortedIndex = sortedIndex ∧ file.entry = entry)
    ∧ (version = .lastAccessTimestamps ∨ version = .packfilePerGroup →
      ∀ (header : ImmutableStoreHeader) (sortedIndex lastAccess : List UInt32)
        (entry : List ImmutableStoreEntryBeforeLastAccess),
        header.version = version.asU32 → header.count = UInt32.ofNat entry.length →
        sortedIndex.length = entry.length → lastAccess.length = entry.length →
        ∃ file, deserializeBytes path (legacyFileBytes header sortedIndex entry lastAccess)
            = .ok file
          ∧ file.sortedIndex = sortedIndex ∧ file.entry = entry.map (·.upgrade)) := by
  have hi : ∀ {α : Type} {sortedIndex : List UInt32} {entry : List α},
      sortedIndex.length = entry.length → entry = [] → sortedIndex = [] := fun hlen hnil =>
    eq_nil_of_length_eq_zero (by rw [hlen, hnil]; rfl)
  refine ⟨?_, ?_, ?_⟩
  · intro hv sortedIndex entry buffer sizes unsettled hlen hb hsi
    refine ⟨_, deserializeBytes_bucketFileBytes path hv hb hsi hlen, ?_⟩
    by_cases hnil : entry = []
    · rw [if_pos hnil]
      exact ⟨(hi hlen hnil).symm, hnil.symm, (absurd hnil)⟩
    · rw [if_neg hnil]
      exact ⟨rfl, rfl, fun _ => ⟨RecordedSizes.sizes_recorded sizes, _, _, rfl⟩⟩
  · intro hv header sortedIndex entry trailer hh hc hlen ht
    refine ⟨_, deserializeBytes_current path hv hh hc hlen ht, ?_⟩
    by_cases hnil : entry = []
    · rw [if_pos hnil]
      exact ⟨(hi hlen hnil).symm, hnil.symm⟩
    · rw [if_neg hnil]
      exact ⟨rfl, rfl⟩
  · intro hv header sortedIndex lastAccess entry hh hc hlen hst
    refine ⟨_, deserializeBytes_legacy path hv hh hc hlen hst, ?_⟩
    by_cases hnil : entry = []
    · rw [hnil]
      exact ⟨(hi hlen hnil).symm, rfl⟩
    · rw [if_neg hnil]
      exact ⟨rfl, rfl⟩

/-- Two entries, sorted the other way round, written with two unsettled packfiles, the second
recorded after the entries; and two entries of the layout with timestamps. -/
theorem bucketFile_readsBack_two :
    (∃ file, deserializeBytes "index_00" (bucketFileBytes 5 [1, 0]
        [⟨⟨8, 1⟩, 2, .default⟩, ⟨⟨7, 1⟩, 2, .default⟩] [⟨1, 40⟩, ⟨2, 9⟩]) = .ok file
      ∧ file.sortedIndex = [1, 0]
      ∧ file.entry = [⟨⟨8, 1⟩, 2, .default⟩, ⟨⟨7, 1⟩, 2, .default⟩]
      ∧ file.sizes.sizes = [⟨1, 40⟩, ⟨2, 9⟩])
    ∧ ∃ file, deserializeBytes "index_00" (legacyFileBytes ⟨2, 0, 2, 0⟩ [1, 0]
        [⟨⟨8, 1⟩, 2, ⟨0, 4, 4, 5, 1⟩⟩, ⟨⟨7, 1⟩, 2, ⟨0, 3, 3, 5, 1⟩⟩] [12, 13]) = .ok file
      ∧ file.sortedIndex = [1, 0]
      ∧ file.entry = [⟨⟨8, 1⟩, 2, ⟨0, 4, 4, 5, 1, 0⟩⟩, ⟨⟨7, 1⟩, 2, ⟨0, 3, 3, 5, 1, 0⟩⟩] := by
  refine ⟨?_, ?_⟩
  · obtain ⟨file, hr, hi, he, hsi⟩ :=
      (bucketFile_readsBack "index_00" .lazyFanOut).1 (.inr rfl) [1, 0]
        [⟨⟨8, 1⟩, 2, .default⟩, ⟨⟨7, 1⟩, 2, .default⟩]
        (⟨1, 40⟩ :: ⟨2, 9⟩ :: replicate 11 ⟨0, 0⟩) [⟨1, 40⟩, ⟨2, 9⟩] (some 2) rfl rfl
        (by decide)
    exact ⟨file, hr, hi, he, (hsi (by decide)).1⟩
  · exact (bucketFile_readsBack "index_00" .lastAccessTimestamps).2.2 (.inl rfl)
      ⟨2, 0, 2, 0⟩ [1, 0] [12, 13] [⟨⟨8, 1⟩, 2, ⟨0, 4, 4, 5, 1⟩⟩, ⟨⟨7, 1⟩, 2, ⟨0, 3, 3, 5, 1⟩⟩]
      rfl rfl rfl rfl

/-- The file of an empty bucket is read as recording no sizes, and an entry of the initial
version, counted by the size of the later entry, is not found. -/
theorem bucketFile_loses_sizes_and_initial_entries :
    (recordableSizes (⟨1, 40⟩ :: replicate 12 ⟨0, 0⟩) (some 1) = some [⟨1, 40⟩]
      ∧ deserializeBytes "index_00" (bucketFileBytes 5 [] [] [⟨1, 40⟩]) = .ok .empty
      ∧ BucketFile.empty.sizes = .unrecorded)
    ∧ deserializeBytes "index_00" (legacyFileBytes ⟨1, 0, 1, 0⟩ [0]
        [⟨⟨7, 1⟩, 2, ⟨0, 3, 3, 5, 1⟩⟩] []) = .ok .empty := by
  refine ⟨⟨by decide, ?_, rfl⟩, ?_⟩
  · rw [bucketFileBytes_eq]
    exact deserializeBytes_current "index_00" (.inr rfl) rfl rfl rfl (by decide)
  · have hbytes : legacyFileBytes ⟨1, 0, 1, 0⟩ [0] [⟨⟨7, 1⟩, 2, ⟨0, 3, 3, 5, 1⟩⟩] []
        = headerLayout.encode ⟨1, 0, 1, 0⟩ ++ ((u32.encodeAll [0]
          ++ entryBeforeLastAccessLayout.encodeAll [⟨⟨7, 1⟩, 2, ⟨0, 3, 3, 5, 1⟩⟩])
            ++ u32.encodeAll []) := rfl
    have hper : perEntrySize (1 : UInt32) = some 100 := rfl
    -- 92 bytes of index and entry, divided by 100
    have hz : ((u32.encodeAll [0] ++ entryBeforeLastAccessLayout.encodeAll
        [⟨⟨7, 1⟩, 2, ⟨0, 3, 3, 5, 1⟩⟩]) ++ u32.encodeAll []).length / 100 = 0 := by
      rfl
    exact deserializeBytes_eq "index_00" hbytes hper (by decide) hz (absurd rfl)

end Lore.Storage
