import Lore.Lib.Producer
import Lore.Storage.Load

/-!
# PutCheck — the two checks of a put

A put is checked by one expression over its flags and sizes, and a refused one once more by a
chain of early returns that says why. The two agree on every fragment.
-/

namespace Lore.Storage

open Lore.Lib FragmentFlags

namespace FragmentFlags

def payloadObliteration : BitVec 32 := 0b1100000000#32
def payloadDoNotReplicate : BitVec 32 := 0b1000000000000000000000#32

/-- `FragmentFlags::all()`. -/
def all : BitVec 32 := 0b1111110000001111111111#32

/-- `FRAGMENT_FLAGS_SERVER_MANAGED_INGRESS_REJECTED`. -/
def serverManagedIngressRejected : BitVec 32 := payloadObliteration ||| payloadDoNotReplicate

/-- `FRAGMENT_FLAGS_DEFINED_COMPRESSORS`. -/
def definedCompressors : BitVec 32 :=
  payloadCompressedLZ4 ||| payloadCompressedOodle2 ||| payloadCompressedZstd

end FragmentFlags

/-- A flags word as the messages print it. -/
def hex (bits : BitVec 32) : String := "0x" ++ String.ofList (Nat.toDigits 16 bits.toNat)

/-! ## In one expression -/

section

variable (fragment : Fragment)

def fragmentIsConsistent : Bool :=
  let compressed := fragment.flags &&& FragmentFlags.payloadCompressed
  let fragmented := fragment.isFragmented
  let sizePayload := fragment.sizePayload.toNat
  let sizeContent := fragment.sizeContent.toNat
  fragment.flags &&& FragmentFlags.serverManagedIngressRejected == 0#32
    && compressed &&& (compressed - 1#32) == 0#32
    && (compressed == 0#32 || !fragmented)
    && sizePayload != 0
    && decide (sizePayload ≤ fragmentSizeThreshold)
    && decide (sizePayload ≤ sizeContent)
    && (fragmented || decide (sizeContent ≤ fragmentSizeThreshold))
    && (compressed != 0#32 || fragmented || sizePayload == sizeContent)

def putIsValid (payloadLen : Option Nat) : Bool :=
  fragmentIsConsistent fragment
    && (!fragment.isFragmented || fragment.sizePayload.toNat % referenceSize == 0)
    && payloadLen.all (· == fragment.sizePayload.toNat)

def fragmentMetadataIsValid : Bool :=
  fragment.flags &&& ~~~FragmentFlags.all == 0#32
    && fragment.flags &&& FragmentFlags.payloadCompressed
      &&& ~~~FragmentFlags.definedCompressors == 0#32
    && fragmentIsConsistent fragment

/-! ## Check by check -/

def refuseInconsistency : Except StorageError Unit := do
  validateFragmentSize fragment
  let rejected := fragment.flags &&& FragmentFlags.serverManagedIngressRejected
  let compressedBits := fragment.flags &&& FragmentFlags.payloadCompressed
  let sizePayload := fragment.sizePayload.toNat
  let sizeContent := fragment.sizeContent.toNat
  if rejected ≠ 0#32 then
    .error (.internal
      s!"fragment flags contain server-managed bits not permitted on ingress: {hex rejected}")
  else if compressedBits.cpop.toNat > 1 then
    .error (.internal s!"fragment has multiple compression flags set: {hex compressedBits}")
  else if fragment.isCompressed ∧ fragment.isFragmented then
    .error (.internal "fragment flags cannot combine compressed and fragmented")
  else if sizePayload = 0 then .error (.internal "fragment size_payload must be > 0")
  else if sizePayload > sizeContent then
    .error (.internal s!"fragment size_payload {sizePayload} exceeds size_content {sizeContent}")
  else if fragment.isCompressed ∧ sizeContent > fragmentSizeThreshold then
    .error (.oversized
      s!"compressed fragment size_content {sizeContent} exceeds FRAGMENT_SIZE_THRESHOLD {fragmentSizeThreshold}")
  else validatePlainPayloadSize fragment

def refusePut (payloadLen : Option Nat) (enforced : Bool) : Except StorageError Unit :=
  if enforced then do
    refuseInconsistency fragment
    let sizePayload := fragment.sizePayload.toNat
    if fragment.isFragmented ∧ sizePayload % referenceSize ≠ 0 then
      .error (.internal s!"fragment list of {sizePayload} bytes is not a whole number of references")
    else
      match payloadLen with
      | some len => validateFragmentPayload fragment len
      | none => .ok ()
  else
    match payloadLen with
    | some len => validateFragmentPayload fragment len
    | none => validateFragmentSize fragment

def refuseFragmentMetadata : Except StorageError Unit :=
  let unknown := fragment.flags &&& ~~~FragmentFlags.all
  let reserved := fragment.flags &&& FragmentFlags.payloadCompressed
    &&& ~~~FragmentFlags.definedCompressors
  if unknown ≠ 0#32 then
    .error (.internal s!"fragment flags contain unknown bits: {hex unknown}")
  else if reserved ≠ 0#32 then
    .error (.internal s!"fragment has reserved compression bit set: {hex reserved}")
  else refuseInconsistency fragment

/-! ## Agreement -/

/-- At most one bit of the group is set where nothing is left without the lowest. -/
theorem compressed_single_iff (flags : BitVec 32) :
    let compressed := flags &&& payloadCompressed
    compressed &&& (compressed - 1#32) = 0#32 ↔ compressed.cpop.toNat ≤ 1 := by
  -- the group lies in the low byte
  have hlow : flags &&& payloadCompressed
      = (flags.setWidth 8).setWidth 32 &&& payloadCompressed := by
    ext i hi
    by_cases h : i < 8
    · simp [h, BitVec.getLsbD_eq_getElem hi]
    · have hout : payloadCompressed.getLsbD i = false :=
        BitVec.getLsbD_of_ge 0b11111110#8 i (Nat.le_of_not_lt h)
      simp [← BitVec.getLsbD_eq_getElem, hout]
  have hbyte : ∀ byte : BitVec 8,
      let compressed := byte.setWidth 32 &&& payloadCompressed
      compressed &&& (compressed - 1#32) = 0#32 ↔ compressed.cpop.toNat ≤ 1 := by
    decide +kernel
  rw [hlow]
  exact hbyte _

theorem validateFragmentSize_eq_ok :
    validateFragmentSize fragment = .ok () ↔
      fragment.sizePayload.toNat ≤ fragmentSizeThreshold ∧
        (fragment.isFragmented = true ∨ fragment.sizeContent.toNat ≤ fragmentSizeThreshold) := by
  unfold validateFragmentSize
  simp only [ite_error_eq_ok]
  cases fragment.isFragmented <;> simp

theorem refuseInconsistency_eq_ok :
    refuseInconsistency fragment = .ok () ↔ fragmentIsConsistent fragment = true := by
  have hsingle := compressed_single_iff fragment.flags
  simp only [refuseInconsistency, seq_eq_ok, ite_error_eq_ok, validateFragmentSize_eq_ok,
    validatePlainPayloadSize]
  simp only [payloadIsPlain, fragmentIsConsistent, Fragment.isCompressed]
  grind

theorem validateFragmentPayload_eq_ok {len} :
    validateFragmentPayload fragment len = .ok () ↔
      validateFragmentSize fragment = .ok () ∧ len = fragment.sizePayload.toNat := by
  unfold validateFragmentPayload
  cases validateFragmentSize fragment <;> grind

/-- The check in one expression passes a put exactly when the explaining one does, and so do
the checks of the metadata alone. -/
theorem put_checks_agree (payloadLen : Option Nat) :
    (putIsValid fragment payloadLen = true ↔ refusePut fragment payloadLen true = .ok ()) ∧
      (fragmentMetadataIsValid fragment = true ↔ refuseFragmentMetadata fragment = .ok ()) := by
  constructor
  · simp only [putIsValid, refusePut, if_true, seq_eq_ok, ite_error_eq_ok,
      refuseInconsistency_eq_ok]
    cases payloadLen with
    | none => grind
    | some len =>
      -- a consistent fragment has passed the check of its sizes already
      have hsize : fragmentIsConsistent fragment = true → validateFragmentSize fragment = .ok () :=
        fun h => (seq_eq_ok.mp ((refuseInconsistency_eq_ok fragment).mpr h)).1
      simp only [validateFragmentPayload_eq_ok]
      grind
  · simp only [refuseFragmentMetadata, ite_error_eq_ok, refuseInconsistency_eq_ok]
    simp [fragmentMetadataIsValid, and_assoc]

end

end Lore.Storage
