import Lore.Storage.Tree
import Lore.Storage.WindowCut

/-!
# WriteSpec — what a finished write has stored

The fragments a write stores are known before it starts: the chunks of the content,
the lists of references to them, level by level, and the root. `contentTree` says
which they are. A write that ends well has each of them in the store, and no
fragment is ever replaced. From the leaves up, level by level, the store then holds
the content as a tree.
-/

namespace Lore.Storage

open Lore.Lib List FragmentFlags

/-! ## What the third-party code promises -/

/-- The content-defined cutter cuts a chunk of at least one byte and at most one
fragment off every suffix. -/
def Host.CutsFragments (host : Host) : Prop :=
  ∀ bytes, bytes ≠ [] →
    0 < host.cut bytes ∧ host.cut bytes ≤ bytes.length ∧ host.cut bytes ≤ fragmentSizeThreshold

theorem plainHost_cutsFragments : plainHost.CutsFragments := by
  intro bytes hne
  have hpos := length_pos_iff.mpr hne
  simp only [plainHost, fragmentSizeThreshold]
  omega

/-- Decompressing undoes compressing. -/
def Host.DecodesEncoded (host : Host) : Prop :=
  ∀ codec bytes compressed, host.encode codec bytes = some compressed →
    host.decode codec compressed bytes.length = some bytes

/-! ## The chunks -/

theorem cutBoundaries_tiles {cut : Bytes → Nat}
    (hcut : ∀ bytes, bytes ≠ [] → 0 < cut bytes ∧ cut bytes ≤ bytes.length ∧
      cut bytes ≤ fragmentSizeThreshold) {fuel offset rest} (hlen : rest.length ≤ fuel) :
    Tiles offset (cutBoundaries cut fuel offset rest) (offset + rest.length) ∧
      ∀ s ∈ cutBoundaries cut fuel offset rest, s.length ≤ fragmentSizeThreshold := by
  induction fuel generalizing offset rest with
  | zero =>
    obtain rfl : rest = [] := length_eq_zero_iff.mp (by omega)
    exact ⟨rfl, by simp [cutBoundaries]⟩
  | succ fuel ih =>
    unfold cutBoundaries
    cases rest with
    | nil => exact ⟨rfl, by simp⟩
    | cons b rest =>
      obtain ⟨hpos, hle, hsiz⟩ := hcut (b :: rest) (by simp)
      generalize cut (b :: rest) = n at hpos hle hsiz
      obtain ⟨ht, hsi⟩ := @ih (offset + n) ((b :: rest).drop n) (by
        rw [length_drop]
        omega)
      rw [length_drop, show offset + n + ((b :: rest).length - n)
        = offset + (b :: rest).length by omega] at ht
      refine ⟨⟨rfl, by simp only; omega, ht⟩, fun s hs => ?_⟩
      rcases mem_cons.mp hs with rfl | hs
      · simp only [Span.length]
        omega
      · exact hsi s hs

theorem WriteOptions.cutSize_bounds {options : WriteOptions} {step : Nat}
    (h : options.cutSize = some step) : 0 < step ∧ step ≤ fragmentSizeThreshold := by
  obtain ⟨_, h⟩ := Option.ite_none_right_eq_some.mp h
  cases h
  have : 0 < fragmentSizeThreshold := by decide
  omega

/-- The mode a write's options open the chunker in. -/
def cutMode (options : WriteOptions) : CutMode :=
  match options.cutSize with
  | some step => .fixedSize step
  | none => .contentDefined

theorem fixedBoundaries_eq_chunksFrom {step} (hst : 0 < step) {m k} {file : Bytes}
    (hk : k + m = (file.length + (step - 1)) / step) :
    ((range' k m).map fun i => (⟨i * step, min (i * step + step) file.length⟩ : Span))
      = chunksFrom (fun rest => min step rest.length) file (k * step) := by
  induction m generalizing k with
  | zero =>
    have hdiv := Nat.lt_mul_div_succ (file.length + (step - 1)) hst
    rw [← hk, Nat.mul_succ, Nat.mul_comm step k] at hdiv
    exact (chunksFrom_end (by omega)).symm
  | succ m ih =>
    have hmul : (k + 1) * step ≤ file.length + (step - 1) :=
      (Nat.le_div_iff_mul_le hst).mp (by omega)
    rw [Nat.succ_mul] at hmul
    rw [range'_succ, map_cons, ih (k := k + 1) (by omega), Nat.succ_mul,
      chunksFrom_cons (greedyCut_fixedSize hst) (by omega : k * step < file.length),
      length_drop]
    by_cases hf : k * step + step ≤ file.length
    · rw [Nat.min_eq_left hf, Nat.min_eq_left (by omega : step ≤ file.length - k * step)]
    · -- the last chunk: nothing follows it, wherever the next would start
      rw [chunksFrom_end (by omega : file.length ≤ k * step + step),
        chunksFrom_end (by omega), Nat.min_eq_right (by omega),
        Nat.min_eq_right (by omega : file.length - k * step ≤ step),
        Nat.add_sub_cancel' (by omega)]

theorem chunkBoundaries_eq_chunksFrom (host : Host) (options : WriteOptions) (file : Bytes) :
    chunkBoundaries host options.cutSize file
      = chunksFrom ((cutMode options).cutter host.cut) file 0 := by
  unfold cutMode
  cases hsi : options.cutSize with
  | none => rfl
  | some step =>
    have h := fixedBoundaries_eq_chunksFrom (WriteOptions.cutSize_bounds hsi).1
      (Nat.zero_add ((file.length + (step - 1)) / step))
    rw [Nat.zero_mul, ← range_eq_range'] at h
    exact h

/-- **The chunks of a write** cover the content in order, and each fits one fragment. -/
theorem chunkBoundaries_tiles {host : Host} (hcut : host.CutsFragments) (options : WriteOptions)
    (buffer : Bytes) :
    Tiles 0 (chunkBoundaries host options.cutSize buffer) buffer.length ∧
      ∀ s ∈ chunkBoundaries host options.cutSize buffer, s.length ≤ fragmentSizeThreshold := by
  rw [chunkBoundaries_eq_chunksFrom]
  have h := @cutBoundaries_tiles ((cutMode options).cutter host.cut) (fun bytes hne => ?_) _ 0 buffer
    (Nat.le_refl _)
  · rw [Nat.zero_add] at h
    exact h
  · unfold cutMode
    cases hsi : options.cutSize with
    | none => exact hcut bytes hne
    | some step =>
      obtain ⟨hpos, hle⟩ := WriteOptions.cutSize_bounds hsi
      have hg := greedyCut_fixedSize hpos
      exact ⟨hg.pos _ hne, hg.le_length _ hne, Nat.le_trans (hg.le_limit _ hne) hle⟩

theorem chunkBoundaries_head?_ne {host : Host} (hcut : host.CutsFragments) (options : WriteOptions)
    {content} (h : fragmentSizeThreshold < content.length) :
    (chunkBoundaries host options.cutSize content).head? ≠ some ⟨0, content.length⟩ := by
  intro hh
  have hsi := (chunkBoundaries_tiles hcut options content).2 _ (mem_of_mem_head? hh)
  simp only [Span.length] at hsi
  omega

theorem chunkBoundaries_ne_nil (host : Host) (options : WriteOptions) {content : Bytes}
    (h : 0 < content.length) : chunkBoundaries host options.cutSize content ≠ [] := by
  unfold chunkBoundaries
  cases hsi : options.cutSize with
  | none =>
    cases content with
    | nil => cases h
    | cons byte rest => exact cons_ne_nil _ _
  | some step =>
    have hpos := (WriteOptions.cutSize_bounds hsi).1
    have hdiv : 0 < (content.length + (step - 1)) / step := Nat.div_pos (by omega) hpos
    simp only [ne_eq, map_eq_nil_iff, range_eq_nil]
    omega

/-! ## One fragment -/

/-- The entry is what storing the task leaves: of the same tier, for as much content,
and with a payload that expands to the task's bytes. -/
structure StandsFor (host : Host) (entry : Fragment × Bytes) (task : ChunkTask) : Prop where
  tier : entry.1.isFragmented = task.fragment.isFragmented
  size : entry.1.sizeContent = task.fragment.sizeContent
  plain : entry.1.isFragmented = true → entry.1.isCompressed = false
  expands : ∃ f, expandPayload host entry.1 entry.2 = .ok (f, task.bytes)

/-- A task of a write: a chunk of content or of a list, either no larger than one
fragment. -/
inductive WriteTask (options : WriteOptions) : ChunkTask → Prop where
  | leaf {bytes : Bytes} (offset : Nat) : bytes.length ≤ fragmentSizeThreshold →
      WriteTask options (leafTask options bytes offset)
  | list {references : List FragmentReference} (size offset : Nat) :
      references.length * referenceSize ≤ fragmentSizeThreshold →
      WriteTask options (listTask options references size offset)

theorem asU32_leaf (options : WriteOptions) (p : UInt32) (c : UInt64) :
    (⟨options.asU32, p, c⟩ : Fragment).isFragmented = false ∧
      (⟨options.asU32 &&& ~~~payloadStoredDurable, p, c⟩ : Fragment).isFragmented
        = false ∧
      (⟨options.asU32 &&& ~~~payloadStoredDurable, p, c⟩ : Fragment).isCompressed
        = false := by
  simp only [Fragment.isFragmented, Fragment.isCompressed, WriteOptions.asU32]
  cases options.revisionState <;> cases options.localCachePriority <;> decide

theorem asU32_list (options : WriteOptions) (p : UInt32) (c : UInt64) :
    (⟨options.asU32 ||| payloadFragmented, p, c⟩ : Fragment).isFragmented = true ∧
      (⟨(options.asU32 ||| payloadFragmented)
        &&& ~~~payloadStoredDurable, p, c⟩ : Fragment).isFragmented = true ∧
      (⟨(options.asU32 ||| payloadFragmented)
        &&& ~~~payloadStoredDurable, p, c⟩ : Fragment).isCompressed = false := by
  simp only [Fragment.isFragmented, Fragment.isCompressed, WriteOptions.asU32]
  cases options.revisionState <;> cases options.localCachePriority <;> decide

/-- The flag marks a payload the codec compressed. -/
def Marks (flag : BitVec 32) (codec : Codec) : Prop :=
  codec = .lz4 ∧ flag = payloadCompressedLZ4 ∨ codec = .zstd ∧ flag = payloadCompressedZstd

theorem asU32_compressed (options : WriteOptions) {codec flag} (h : Marks flag codec)
    (p : UInt32) (c : UInt64) :
    selectCodec ((options.asU32 ||| flag) &&& ~~~payloadStoredDurable) = .ok codec ∧
      (⟨(options.asU32 ||| flag) &&& ~~~payloadStoredDurable, p, c⟩ :
        Fragment).isFragmented = false ∧
      (⟨(options.asU32 ||| flag) &&& ~~~payloadStoredDurable, p, c⟩ :
        Fragment).isCompressed = true := by
  simp only [Fragment.isFragmented, Fragment.isCompressed, WriteOptions.asU32]
  rcases h with ⟨rfl, rfl⟩ | ⟨rfl, rfl⟩ <;> cases options.revisionState <;>
    cases options.localCachePriority <;> decide

theorem checkPayloadSizes_of_fits {fragment len} (hlen : fragment.sizePayload.toNat = len)
    (hle : len ≤ fragmentSizeThreshold)
    (hc : fragment.isFragmented = true ∨ fragment.sizeContent.toNat ≤ fragmentSizeThreshold)
    (hp : payloadIsPlain fragment = true → len = fragment.sizeContent.toNat) :
    checkPayloadSizes fragment len = .ok () := by
  have hv : validateFragmentSize fragment = .ok () := by
    simp only [validateFragmentSize]
    rw [if_neg (by omega)]
    rcases hc with hf | hle'
    · simp [hf]
    · simp [hle']
  simp only [checkPayloadSizes, validateFragmentPayload, hv, hlen, bne_self_eq_false,
    Bool.false_eq_true, if_false, validatePlainPayloadSize]
  split
  · next h =>
      simp only [Bool.and_eq_true, bne_iff_ne] at h
      exact absurd (hp h.1) h.2
  · rfl

section Fragment

variable {host : Host} {mode : CompressionMode} {partition : Partition} {context : Context}
  {options : WriteOptions}

theorem compress_list {fragment payload} (h : fragment.isFragmented = true) :
    compress host fragment payload mode = none := by
  unfold compress
  split
  · rfl
  · rw [if_pos (.inr (.inl h))]

/-- What compression leaves: a smaller payload, marked with the codec that undoes it. -/
theorem compress_some {fragment f payload b}
    (h : compress host fragment payload mode = some (f, b)) :
    ∃ codec flag, Marks flag codec ∧ host.encode codec payload = some b ∧
      b.length < fragment.sizePayload.toNat * 95 / 100 ∧
      f = ⟨fragment.flags ||| flag, UInt32.ofNat b.length, fragment.sizeContent⟩ := by
  have hi : ∀ codec flag, compressImpl host codec flag fragment payload = some (f, b) →
      host.encode codec payload = some b ∧ b.length < fragment.sizePayload.toNat * 95 / 100 ∧
        f = ⟨fragment.flags ||| flag, UInt32.ofNat b.length, fragment.sizeContent⟩ := by
    intro codec flag h
    unfold compressImpl at h
    cases he : host.encode codec payload with
    | none => simp [he] at h
    | some compressed =>
      simp only [he] at h
      obtain ⟨_, h⟩ := Option.ite_none_right_eq_some.mp h
      cases h
      exact ⟨rfl, by assumption, rfl⟩
  unfold compress at h
  split at h
  · cases h
  split at h
  · cases h
  split at h
  · cases h
  cases mode with
  | lz4 => exact ⟨_, _, .inl ⟨rfl, rfl⟩, hi _ _ h⟩
  | zstd | notSpecified => exact ⟨_, _, .inr ⟨rfl, rfl⟩, hi _ _ h⟩
  | oodle | noCompression => cases h

variable {bytes : Bytes}

theorem toNat_ofNat_length (h : bytes.length ≤ fragmentSizeThreshold) :
    (UInt32.ofNat bytes.length).toNat = bytes.length ∧
      (UInt64.ofNat bytes.length).toNat = bytes.length := by
  unfold fragmentSizeThreshold at h
  exact ⟨UInt32.toNat_ofNat_of_lt' (by simp [UInt32.size]; omega),
    UInt64.toNat_ofNat_of_lt' (by simp [UInt64.size]; omega)⟩

theorem standsFor_compressed (hcod : host.DecodesEncoded) {compressed codec flag} (offset : Nat)
    (hle : bytes.length ≤ fragmentSizeThreshold) (hfl : Marks flag codec)
    (he : host.encode codec bytes = some compressed) (hsm : compressed.length ≤ bytes.length) :
    StandsFor host
      (⟨(options.asU32 ||| flag) &&& ~~~payloadStoredDurable,
        UInt32.ofNat compressed.length, UInt64.ofNat bytes.length⟩, compressed)
      (leafTask options bytes offset) := by
  obtain ⟨hse, hfr, hc⟩ :=
    asU32_compressed options hfl (UInt32.ofNat compressed.length) (UInt64.ofNat bytes.length)
  obtain ⟨-, hco⟩ := toNat_ofNat_length hle
  obtain ⟨hp, -⟩ := toNat_ofNat_length (Nat.le_trans hsm hle)
  generalize hf : (⟨(options.asU32 ||| flag) &&& ~~~payloadStoredDurable,
    UInt32.ofNat compressed.length, UInt64.ofNat bytes.length⟩ : Fragment) = f
  rw [hf] at hfr hc
  have hsC : f.sizeContent.toNat = bytes.length := by rw [← hf, hco]
  have hsP : f.sizePayload.toNat = compressed.length := by rw [← hf, hp]
  constructor
  · rw [hfr]
    exact (asU32_leaf options _ _).1.symm
  · rw [← hf]
    rfl
  · simp [hfr]
  · have hch : checkPayloadSizes f compressed.length = .ok () :=
      checkPayloadSizes_of_fits hsP (by omega) (.inr (by omega))
        fun h => by simp [payloadIsPlain, hc] at h
    refine ⟨f.expanded, ?_⟩
    simp only [expandPayload, hch, hc, if_true, decompressInto]
    rw [if_neg (by omega)]
    simp only [show f.flags = (options.asU32 ||| flag) &&& ~~~payloadStoredDurable by
      rw [← hf], hse, hsP, take_length, hsC,
      hcod _ _ _ he, bne_self_eq_false]
    rfl

theorem preparePayload_leaf (hcod : host.DecodesEncoded) (offset : Nat)
    (hle : bytes.length ≤ fragmentSizeThreshold) :
    StandsFor host (preparePayload host mode (leafTask options bytes offset).fragment bytes)
      (leafTask options bytes offset) := by
  obtain ⟨hta, hfr, hcom⟩ :=
    asU32_leaf options (UInt32.ofNat bytes.length) (UInt64.ofNat bytes.length)
  obtain ⟨hp, hco⟩ := toNat_ofNat_length hle
  have hpl : StandsFor host (⟨options.asU32 &&& ~~~payloadStoredDurable, UInt32.ofNat bytes.length,
        UInt64.ofNat bytes.length⟩, bytes) (leafTask options bytes offset) := by
    constructor
    · exact hfr.trans hta.symm
    · rfl
    · exact fun _ => hcom
    · have hch : checkPayloadSizes ⟨options.asU32 &&& ~~~payloadStoredDurable,
          UInt32.ofNat bytes.length, UInt64.ofNat bytes.length⟩ bytes.length = .ok () :=
        checkPayloadSizes_of_fits hp hle (.inr (by simp only [hco]; exact hle)) fun _ => hco.symm
      exact ⟨_, by simp only [expandPayload, hch, hcom]; rfl⟩
  have ht : bytes.take (leafTask options bytes offset).fragment.sizePayload.toNat = bytes := by
    rw [show (leafTask options bytes offset).fragment.sizePayload.toNat = bytes.length from
      hp, take_length]
  unfold preparePayload
  rw [ht]
  by_cases hm : mode = .noCompression
  · rw [if_neg (by simp [hm])]
    exact hpl
  · rw [if_pos hm]
    cases hc : compress host (leafTask options bytes offset).fragment bytes mode with
    | none => exact hpl
    | some compressed =>
      obtain ⟨f, b⟩ := compressed
      obtain ⟨codec, flag, hf, he, hsm, rfl⟩ := compress_some hc
      exact standsFor_compressed hcod offset hle hf he (by
        rw [show (leafTask options bytes offset).fragment.sizePayload.toNat = bytes.length from
          hp] at hsm
        omega)

theorem preparePayload_list {references} (size offset : Nat)
    (hle : references.length * referenceSize ≤ fragmentSizeThreshold) :
    StandsFor host (preparePayload host mode (listTask options references size offset).fragment
      (listBytes references)) (listTask options references size offset) := by
  obtain ⟨hl, hf, hco⟩ := asU32_list options
    (UInt32.ofNat (references.length * referenceSize)) (UInt64.ofNat size)
  have hpr : preparePayload host mode (listTask options references size offset).fragment
      (listBytes references)
      = (⟨(options.asU32 ||| payloadFragmented) &&& ~~~payloadStoredDurable,
        UInt32.ofNat (references.length * referenceSize), UInt64.ofNat size⟩,
        listBytes references) := by
    have hl' : (listTask options references size offset).fragment.isFragmented = true := hl
    unfold preparePayload
    rw [compress_list hl']
    simp only [Option.getD_none, ite_self]
    rfl
  have hp : (UInt32.ofNat (references.length * referenceSize)).toNat
      = (listBytes references).length := by
    rw [length_listBytes]
    unfold fragmentSizeThreshold at hle
    exact UInt32.toNat_ofNat_of_lt' (by simp only [UInt32.size]; omega)
  rw [hpr]
  constructor
  · exact hf.trans hl.symm
  · rfl
  · exact fun _ => hco
  · have hc : checkPayloadSizes ⟨(options.asU32 ||| payloadFragmented) &&& ~~~payloadStoredDurable,
        UInt32.ofNat (references.length * referenceSize), UInt64.ofNat size⟩
        (listBytes references).length = .ok () :=
      checkPayloadSizes_of_fits hp (by rw [length_listBytes]; exact hle)
        (.inl hf) fun h => by
          rw [payloadIsPlain, hf] at h
          cases h
    exact ⟨_, by simp only [expandPayload, hc, hco]; rfl⟩

theorem WriteTask.standsFor (hc : host.DecodesEncoded) {task} (h : WriteTask options task) :
    StandsFor host (preparePayload host mode task.fragment task.bytes) task := by
  cases h with
  | leaf offset hle => exact preparePayload_leaf hc offset hle
  | list size offset hle => exact preparePayload_list size offset hle

end Fragment

/-! ## The tasks of a write -/

/-- The lists above `references`, level by level, and the references of the root. -/
def packLists (host : Host) (options : WriteOptions) (contentSize : Nat) :
    Nat → List FragmentReference →
      Except StorageError (List ChunkTask × List FragmentReference)
  | fuel, references =>
      if references.length * referenceSize ≤ fragmentSizeThreshold then .ok ([], references)
      else
        match fuel with
        | 0 => .error .exhausted
        | fuel + 1 => do
            let tasks ← listTasks options contentSize references.length references 0
            let (above, root) ←
              packLists host options contentSize fuel (tasks.map (·.reference host))
            .ok (tasks ++ above, root)

/-- The fragments a write stores: the chunks of the content, the lists between them and
the root, and the root. Content that is one fragment is its own root. -/
structure ContentTree where
  leaves : List ChunkTask
  lists : List ChunkTask
  root : ChunkTask
deriving DecidableEq, Repr

/-- All fragments of the tree, in the order they are stored. -/
def ContentTree.tasks (tree : ContentTree) : List ChunkTask :=
  tree.leaves ++ tree.lists ++ [tree.root]

/-- The chunks of content larger than one fragment. -/
def leafTasks (host : Host) (options : WriteOptions) (content : Bytes) : List ChunkTask :=
  (chunkBoundaries host options.cutSize content).map fun s =>
    leafTask options (slice content s) s.start

/-- The tree a write of `content` stores. -/
def contentTree (host : Host) (options : WriteOptions) (content : Bytes) :
    Except StorageError ContentTree :=
  if content.length ≤ fragmentSizeThreshold then
    .ok ⟨[], [], leafTask options content 0⟩
  else if (chunkBoundaries host options.cutSize content).head? = some ⟨0, content.length⟩ then
    .ok ⟨[], [], leafTask options content 0⟩
  else do
    let leaves := leafTasks host options content
    let (lists, root) ← packLists host options content.length leaves.length
      (leaves.map (·.reference host))
    .ok ⟨leaves, lists, listTask options root content.length 0⟩

section Run

variable {host : Host} {mode : CompressionMode} {partition : Partition} {context : Context}
  {options : WriteOptions}

variable {task : ChunkTask} {store store' : ContentStore} {address : Address}

theorem storeChunk_address
    (h : storeChunk host mode partition context options task store = .ok (address, store')) :
    address = ⟨host.hash task.bytes, context⟩ := by
  unfold storeChunk at h
  split at h
  · cases h
    rfl
  · obtain ⟨store'', -, h⟩ := bind_eq_ok.mp h
    cases h
    rfl

theorem storeChunks_cons {task tasks store store' list} :
    storeChunks host mode partition context options (task :: tasks) store = .ok (list, store') ↔
      ∃ store₁ list', storeChunk host mode partition context options task store
          = .ok (⟨host.hash task.bytes, context⟩, store₁) ∧
        storeChunks host mode partition context options tasks store₁ = .ok (list', store') ∧
        list = task.reference host :: list' := by
  constructor
  · intro h
    obtain ⟨⟨address, store₁⟩, hf, h⟩ := bind_eq_ok.mp h
    obtain ⟨⟨list', store₂⟩, hr, ⟨⟩⟩ := bind_eq_ok.mp h
    obtain rfl := storeChunk_address hf
    exact ⟨store₁, list', hf, hr, rfl⟩
  · rintro ⟨store₁, list', hf, hr, rfl⟩
    rw [storeChunks, hf, ok_bind]
    simp only
    rw [hr]
    rfl

theorem storeChunks_list {tasks list}
    (h : storeChunks host mode partition context options tasks store = .ok (list, store')) :
    list = tasks.map (·.reference host) := by
  induction tasks generalizing store list with
  | nil =>
    cases h
    rfl
  | cons task tasks ih =>
    obtain ⟨store₁, list', -, hr, rfl⟩ := storeChunks_cons.mp h
    rw [ih hr, map_cons]

theorem storeChunks_append {xs ys list} :
    storeChunks host mode partition context options (xs ++ ys) store = .ok (list, store') ↔
      ∃ store₁ list₁ list₂,
        storeChunks host mode partition context options xs store = .ok (list₁, store₁) ∧
        storeChunks host mode partition context options ys store₁ = .ok (list₂, store') ∧
        list = list₁ ++ list₂ := by
  induction xs generalizing store list with
  | nil =>
    constructor
    · exact fun h => ⟨store, [], list, rfl, h, rfl⟩
    · rintro ⟨_, _, _, ⟨⟩, h, rfl⟩
      exact h
  | cons task xs ih =>
    simp only [cons_append, storeChunks_cons, ih]
    constructor
    · rintro ⟨store₂, _, hf, ⟨store₁, list₁, list₂, hx, hy, rfl⟩, rfl⟩
      exact ⟨store₁, _, list₂, ⟨store₂, list₁, hf, hx, rfl⟩, hy, rfl⟩
    · rintro ⟨store₁, _, list₂, ⟨store₂, list₁, hf, hx, rfl⟩, hy, rfl⟩
      exact ⟨store₂, _, hf, ⟨store₁, list₁, list₂, hx, hy, rfl⟩, rfl⟩

theorem storeChunks_singleton :
    storeChunk host mode partition context options task store = .ok (address, store') ↔
      address = ⟨host.hash task.bytes, context⟩ ∧
        ∃ list, storeChunks host mode partition context options [task] store
          = .ok (list, store') := by
  constructor
  · intro h
    obtain rfl := storeChunk_address h
    exact ⟨rfl, _, storeChunks_cons.mpr ⟨_, [], h, rfl, rfl⟩⟩
  · rintro ⟨rfl, list, h⟩
    obtain ⟨_, _, h, ⟨⟩, -⟩ := storeChunks_cons.mp h
    exact h

/-- The levels above `references` are stored in order, the root last. -/
theorem writeFragmentlistWith_iff {contentSize fuel references} :
    writeFragmentlistWith host mode partition context options contentSize fuel references store
        = .ok (address, store') ↔
      ∃ lists root, packLists host options contentSize fuel references = .ok (lists, root) ∧
        address = ⟨host.hash (listBytes root), context⟩ ∧
        ∃ list, storeChunks host mode partition context options
          (lists ++ [listTask options root contentSize 0]) store = .ok (list, store') := by
  fun_induction packLists host options contentSize fuel references generalizing store with
  | case1 fuel references hf =>
    unfold writeFragmentlistWith
    rw [if_pos hf, storeChunks_singleton]
    exact ⟨fun h => ⟨[], references, rfl, h⟩, fun ⟨_, _, hp, h⟩ => by cases hp; exact h⟩
  | case2 references hf =>
    rw [writeFragmentlistWith, if_neg hf]
    exact ⟨nofun, fun ⟨_, _, hp, _⟩ => nomatch hp⟩
  | case3 references hf fuel ih =>
    rw [writeFragmentlistWith, if_neg hf]
    constructor
    · intro h
      obtain ⟨tasks, ht, h⟩ := bind_eq_ok.mp h
      obtain ⟨⟨list, store₁⟩, hst, h⟩ := bind_eq_ok.mp h
      obtain rfl := storeChunks_list hst
      obtain ⟨lists, root, hp, ha, list', hr⟩ := (ih tasks).mp h
      refine ⟨tasks ++ lists, root, by simp [ht, hp], ha, ?_⟩
      rw [append_assoc]
      exact ⟨_, storeChunks_append.mpr ⟨_, _, _, hst, hr, rfl⟩⟩
    · rintro ⟨lists, root, hp, ha, list, hr⟩
      obtain ⟨tasks, ht, hp⟩ := bind_eq_ok.mp hp
      obtain ⟨⟨above, root'⟩, hab, ⟨⟩⟩ := bind_eq_ok.mp hp
      rw [append_assoc] at hr
      obtain ⟨store₁, _, list₂, hst, hr, -⟩ := storeChunks_append.mp hr
      obtain rfl := storeChunks_list hst
      simp only [ht, hst, ok_bind]
      exact (ih tasks).mpr ⟨above, _, hab, ha, list₂, hr⟩

theorem writeContent_ne_nil {content} (hk : options.hashOnly = false)
    (h : writeContent host mode partition context options content store = .ok (address, store')) :
    content ≠ [] := by
  rintro rfl
  rw [writeContent, length_nil, if_pos (Nat.zero_le _), writeSingleFragment, storeChunk,
    if_neg (by simp [hk])] at h
  obtain ⟨stored, hput, -⟩ := bind_eq_ok.mp h
  simp [storeFragment, leafTask] at hput


/-- **A finished write** has stored the tree of its content, root last, and returns
the root's address. -/
theorem writeContent_iff {content} :
    writeContent host mode partition context options content store = .ok (address, store') ↔
      ∃ tree list, contentTree host options content = .ok tree ∧
        address = ⟨host.hash tree.root.bytes, context⟩ ∧
        storeChunks host mode partition context options tree.tasks store = .ok (list, store') := by
  have hone : storeChunk host mode partition context options (leafTask options content 0) store
        = .ok (address, store') ↔
      ∃ tree list, Except.ok ⟨[], [], leafTask options content 0⟩
          = (.ok tree : Except StorageError ContentTree) ∧
        address = ⟨host.hash tree.root.bytes, context⟩ ∧
        storeChunks host mode partition context options tree.tasks store = .ok (list, store') := by
    refine storeChunks_singleton.trans ⟨fun ⟨ha, list, hrun⟩ => ⟨_, list, rfl, ha, hrun⟩, ?_⟩
    rintro ⟨_, list, ⟨⟩, ha, hrun⟩
    exact ⟨ha, list, hrun⟩
  unfold writeContent contentTree
  by_cases hsm : content.length ≤ fragmentSizeThreshold
  · rw [if_pos hsm, if_pos hsm]
    exact hone
  · rw [if_neg hsm, if_neg hsm]
    unfold writeFragmented
    by_cases hw : (chunkBoundaries host options.cutSize content).head? = some ⟨0, content.length⟩
    · simp only [if_pos hw]
      exact hone
    · simp only [if_neg hw]
      constructor
      · intro h
        obtain ⟨⟨list, store₁⟩, hl, h⟩ := bind_eq_ok.mp h
        obtain ⟨_, h⟩ := ite_error_eq_ok.mp h
        obtain rfl := storeChunks_list hl
        obtain ⟨lists, root, hp, ha, list', hr⟩ := writeFragmentlistWith_iff.mp h
        rw [length_map] at hp
        have hall := storeChunks_append.mpr ⟨_, _, _, hl, hr, rfl⟩
        rw [← append_assoc] at hall
        exact ⟨⟨leafTasks host options content, lists, listTask options root content.length 0⟩, _,
          bind_eq_ok.mpr ⟨_, hp, rfl⟩, ha, hall⟩
      · rintro ⟨tree, list, htr, ha, hrun⟩
        obtain ⟨⟨lists, root⟩, hp, ⟨⟩⟩ := bind_eq_ok.mp htr
        rw [ContentTree.tasks, append_assoc] at hrun
        obtain ⟨store₁, _, list', hl, hr, -⟩ := storeChunks_append.mp hrun
        obtain rfl := storeChunks_list hl
        refine bind_eq_ok.mpr ⟨_, hl, ite_error_eq_ok.mpr ⟨?_, ?_⟩⟩
        · simpa [leafTasks] using chunkBoundaries_ne_nil host options (by omega)
        · rw [writeFragmentlist, length_map]
          exact writeFragmentlistWith_iff.mpr ⟨lists, root, hp, ha, list', hr⟩

/-! ## Writes that end well -/

/-- A task that `store_fragment` does not refuse. -/
structure Storable (host : Host) (options : WriteOptions) (task : ChunkTask) : Prop where
  shape : WriteTask options task
  nonempty : task.bytes ≠ []
  hash_ne : isZero (host.hash task.bytes) = false

theorem WriteTask.sizePayload (h : WriteTask options task) :
    task.fragment.sizePayload.toNat = task.bytes.length ∧
      task.bytes.length ≤ fragmentSizeThreshold := by
  cases h with
  | leaf offset hle => exact ⟨(toNat_ofNat_length hle).1, hle⟩
  | @list references size offset hle =>
    have hlen : (listBytes references).length ≤ fragmentSizeThreshold := by
      rw [length_listBytes]
      exact hle
    have hsi := (toNat_ofNat_length hlen).1
    rw [length_listBytes] at hsi
    exact ⟨hsi.trans (length_listBytes references).symm, hlen⟩

theorem Storable.storeChunk (h : Storable host options task) (store : ContentStore) :
    ∃ store', storeChunk host mode partition context options task store
      = .ok (⟨host.hash task.bytes, context⟩, store') := by
  unfold Lore.Storage.storeChunk
  by_cases hk : options.hashOnly = true
  · exact ⟨store, if_pos hk⟩
  · obtain ⟨hsi, hle⟩ := h.shape.sizePayload
    have hpos := length_pos_iff.mpr h.nonempty
    have he : task.bytes.isEmpty = false := by simpa using h.nonempty
    obtain ⟨store', hput⟩ : ∃ store', storeFragment host mode partition
        ⟨host.hash task.bytes, context⟩ task.fragment task.bytes store = .ok store' := by
      unfold storeFragment
      simp only [h.hash_ne, he, hsi, Bool.false_eq_true, false_or]
      rw [if_neg (by omega), if_neg (by omega), if_neg (by simp)]
      cases store partition ⟨host.hash task.bytes, context⟩ with
      | some entry | none => exact ⟨_, rfl⟩
    simp [if_neg hk, hput]

theorem storeChunks_total (mode : CompressionMode) (partition : Partition) (context : Context)
    {tasks} (h : ∀ t ∈ tasks, Storable host options t) (store : ContentStore) :
    ∃ store', storeChunks host mode partition context options tasks store
      = .ok (tasks.map (·.reference host), store') := by
  induction tasks generalizing store with
  | nil => exact ⟨store, rfl⟩
  | cons task tasks ih =>
    obtain ⟨store₁, hf⟩ := (h task (by simp)).storeChunk store
    obtain ⟨store', hr⟩ := ih (fun t ht => h t (by simp [ht])) store₁
    refine ⟨store', ?_⟩
    rw [storeChunks, hf, ok_bind]
    simp only
    rw [hr]
    rfl

end Run

end Lore.Storage
