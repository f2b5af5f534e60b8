import Lore.Storage.Fragment

/-!
# Load — loading one fragment from the local store

The content store as the readers see it, a map from addresses to fragments and
their payloads, and the load of one fragment: its sizes are checked against the
payload and a compressed payload is expanded. The decompressors are third-party
code and enter as a parameter; the checks around them are the source's. There is
no remote session here, so a miss is `AddressNotFound`.
-/

namespace Lore.Storage

open Lore.Lib

/-- The compressors this build decodes. -/
inductive Codec where
  | lz4
  | zstd
deriving DecidableEq, Repr

/-- The third-party code below the storage layer: the content hash, the greedy
content-defined cutter (the length of the first chunk of a suffix), and the
compressors. `decode codec payload size` is given the size the content claims. -/
structure Host where
  hash : Bytes → Hash
  cut : Bytes → Nat
  encode : Codec → Bytes → Option Bytes
  decode : Codec → Bytes → Nat → Option Bytes

/-- A host without compressors, whose hash is the number the bytes spell. -/
def plainHost : Host :=
  { hash := fun bytes => BitVec.ofNat 256 (ofLE bytes)
    cut := fun bytes => min bytes.length fragmentSizeThreshold
    encode := fun _ _ => none
    decode := fun _ _ _ => none }

/-- What the store holds under each address of each partition. -/
abbrev ContentStore := Partition → Address → Option (Fragment × Bytes)

/-- The store once `fragment` and `payload` were put under `address`. -/
def ContentStore.put (store : ContentStore) (partition : Partition) (address : Address)
    (fragment : Fragment) (payload : Bytes) : ContentStore :=
  fun p a => if p = partition ∧ a = address then some (fragment, payload) else store p a

theorem ContentStore.put_same (store : ContentStore) (partition : Partition)
    (address : Address) (fragment : Fragment) (payload : Bytes) :
    store.put partition address fragment payload partition address = some (fragment, payload) :=
  if_pos ⟨rfl, rfl⟩

theorem ContentStore.put_ne (store : ContentStore) (partition : Partition) {address other}
    (fragment : Fragment) (payload : Bytes) (h : other ≠ address) :
    store.put partition address fragment payload partition other = store partition other :=
  if_neg fun hc => h hc.2

/-- `ReadOptions`: the fields a local read looks at. -/
structure ReadOptions where
  decompress : Bool
  maxContentSize : Option Nat
deriving DecidableEq, Repr

/-- `ReadOptions::default()`. -/
def ReadOptions.default : ReadOptions := ⟨true, none⟩

/-- `ReadOptions::with_decompress`. -/
def ReadOptions.withDecompress (options : ReadOptions) : ReadOptions :=
  { options with decompress := true }

@[simp] theorem ReadOptions.decompress_withDecompress (options : ReadOptions) :
    options.withDecompress.decompress = true := rfl

/-! ## Size checks -/

section

variable (fragment : Fragment)

/-- `validate_fragment_size`. -/
def validateFragmentSize : Except StorageError Unit :=
  let sizePayload := fragment.sizePayload.toNat
  let sizeContent := fragment.sizeContent.toNat
  if sizePayload > fragmentSizeThreshold then
    .error (.oversized
      s!"fragment size_payload {sizePayload} exceeds FRAGMENT_SIZE_THRESHOLD {fragmentSizeThreshold}")
  else if !fragment.isFragmented && decide (sizeContent > fragmentSizeThreshold) then
    .error (.oversized
      s!"unfragmented size_content {sizeContent} exceeds FRAGMENT_SIZE_THRESHOLD {fragmentSizeThreshold}")
  else .ok ()

/-- `validate_fragment_payload`. -/
def validateFragmentPayload (payloadLen : Nat) : Except StorageError Unit :=
  match validateFragmentSize fragment with
  | .error e => .error e
  | .ok () =>
      let sizePayload := fragment.sizePayload.toNat
      if payloadLen != sizePayload then
        .error (.internal
          s!"fragment payload length mismatch: buffer {payloadLen} vs size_payload {sizePayload}")
      else .ok ()

/-- `payload_is_plain`: neither a fragment list nor compressed. -/
def payloadIsPlain : Bool := !fragment.isFragmented && !fragment.isCompressed

/-- `payload_is_content`: the stored payload is the content itself. -/
def payloadIsContent : Bool :=
  payloadIsPlain fragment && fragment.sizePayload.toNat == fragment.sizeContent.toNat

/-- `validate_plain_payload_size`. -/
def validatePlainPayloadSize : Except StorageError Unit :=
  let sizePayload := fragment.sizePayload.toNat
  let sizeContent := fragment.sizeContent.toNat
  if payloadIsPlain fragment && sizePayload != sizeContent then
    .error (.internal
      s!"uncompressed unfragmented fragment has mismatching size_payload {sizePayload} and size_content {sizeContent}")
  else .ok ()

/-- `check_payload_sizes`. -/
def checkPayloadSizes (len : Nat) : Except StorageError Unit :=
  match validateFragmentPayload fragment len with
  | .error e => .error e
  | .ok () => validatePlainPayloadSize fragment

/-! ## Decompression -/

/-- The decompressor the flags select. -/
def selectCodec (flags : BitVec 32) : Except StorageError Codec :=
  if (flags &&& FragmentFlags.payloadCompressedLZ4) != 0#32 then .ok .lz4
  else if (flags &&& FragmentFlags.payloadCompressedOodle2) != 0#32 then
    .error (.notSupported
      "encountered an Oodle compressed fragment but this client was built without Oodle support")
  else if (flags &&& FragmentFlags.payloadCompressedZstd) != 0#32 then .ok .zstd
  else
    .error (.notSupported
      "encountered a fragment with an unknown compression algorithm; update the client")

/-- The fragment describing expanded content. -/
def Fragment.expanded : Fragment :=
  { flags := fragment.flags &&& ~~~FragmentFlags.payloadCompressed
    sizePayload := UInt32.ofNat fragment.sizeContent.toNat
    sizeContent := fragment.sizeContent }

end

/-- `decompress_into_slice`, and `decompress` on a buffer of the content's size:
expands `compressed` into at most `capacity` bytes. -/
def decompressInto (host : Host) (fragment : Fragment) (compressed : Bytes)
    (capacity : Nat) : Except StorageError (Fragment × Bytes) :=
  let sizeContent := fragment.sizeContent.toNat
  let sizePayload := fragment.sizePayload.toNat
  if sizeContent > fragmentSizeThreshold ∨ capacity < sizeContent
      ∨ compressed.length < sizePayload then
    .error (.internal "fragment has invalid sizes")
  else
    match selectCodec fragment.flags with
    | .error e => .error e
    | .ok codec =>
        match host.decode codec (compressed.take sizePayload) sizeContent with
        | none => .error (.internal "invalid compressed data")
        | some content =>
            if content.length != sizeContent then .error (.internal "invalid compressed data")
            else .ok (fragment.expanded, content)

/-- `expand_payload`: the content a payload holds, its sizes checked. -/
def expandPayload (host : Host) (fragment : Fragment) (payload : Bytes) :
    Except StorageError (Fragment × Bytes) :=
  match checkPayloadSizes fragment payload.length with
  | .error e => .error e
  | .ok () =>
      if fragment.isCompressed then
        decompressInto host fragment payload fragment.sizeContent.toNat
      else .ok (fragment, payload)

/-! ## Loading -/

/-- `load_fragment` with no remote session. A payload this build cannot decode is
reported as such; one that fails its size check or does not expand is a miss. -/
def loadFragment (host : Host) (store : ContentStore) (partition : Partition)
    (address : Address) (options : ReadOptions) : Except StorageError (Fragment × Bytes) :=
  if isZero address.hash then .ok (Fragment.default, [])
  else
    match store partition address with
    | none => .error (.addressNotFound address)
    | some (fragment, payload) =>
        let loaded :=
          if options.decompress then expandPayload host fragment payload
          else (checkPayloadSizes fragment payload.length).map fun _ => (fragment, payload)
        match loaded with
        | .ok result => .ok result
        | .error (.notSupported operation) => .error (.notSupported operation)
        | .error _ => .error (.addressNotFound address)

theorem checkPayloadSizes_ok {fragment len} (h : checkPayloadSizes fragment len = .ok ()) :
    len = fragment.sizePayload.toNat ∧ len ≤ fragmentSizeThreshold ∧
      (fragment.isFragmented = false → fragment.sizeContent.toNat ≤ fragmentSizeThreshold) ∧
      (payloadIsPlain fragment = true → len = fragment.sizeContent.toNat) := by
  unfold checkPayloadSizes at h
  split at h
  · cases h
  · next hp =>
    unfold validateFragmentPayload at hp
    split at hp
    · cases hp
    · next hsi =>
      simp only [validateFragmentSize] at hsi
      simp only [validatePlainPayloadSize] at h
      split_ifs at hp hsi h
      simp_all

end Lore.Storage
