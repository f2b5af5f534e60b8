import Lore.Lib.ByteNumber
import Lore.Lib.Span

/-!
# Fragment — the stored records and their byte layout

The records the storage layer keeps: addresses, the fragment header, and the
reference a fragment list names each of its children by. A fragment list is
stored as the bytes of its references one after another, 40 bytes each: the 32
bytes of the hash, then the content offset as a little-endian `u64`.
-/

namespace Lore.Storage

open Lore.Lib List

abbrev Bytes := List UInt8

/-- A 32-byte content hash, read as one big-endian number: the derived byte
order of the source is then the numeric order. -/
abbrev Hash := BitVec 256

/-- A 16-byte context identifier. -/
abbrev Context := BitVec 128

/-- A 16-byte partition identifier. -/
abbrev Partition := BitVec 128

/-- Full address of a piece of content. -/
structure Address where
  hash : Hash
  context : Context
deriving DecidableEq, Repr

/-- `Hash::is_zero`: the zero hash names zero-length content. -/
def isZero (hash : Hash) : Bool := hash == 0#256

/-! ## Sizes -/

/-- `FRAGMENT_SIZE_THRESHOLD`: the largest payload one fragment holds. -/
def fragmentSizeThreshold : Nat := 262144

/-- `FRAGMENT_SIZE_MINIMUM`: the smallest fragment content-defined chunking cuts. -/
def fragmentSizeMinimum : Nat := 32768

/-- `size_of::<FragmentReference>()`. -/
def referenceSize : Nat := 40

/-- The first number a `u64` cannot hold. -/
def u64Limit : Nat := 18446744073709551616

/-! ## Fragment flags -/

namespace FragmentFlags

def payloadFragmented : BitVec 32 := 0b1#32
def payloadCompressedLZ4 : BitVec 32 := 0b10#32
def payloadCompressedOodle2 : BitVec 32 := 0b100#32
def payloadCompressedZstd : BitVec 32 := 0b1000#32
def payloadCompressed : BitVec 32 := 0b11111110#32
def payloadObliterated : BitVec 32 := 0b100000000#32
def payloadLocalCachePriority : BitVec 32 := 0b10000000000000000#32
def payloadRevisionState : BitVec 32 := 0b100000000000000000#32
def payloadStoredDurable : BitVec 32 := 0b1000000000000000000#32
def payloadStoredLocal : BitVec 32 := 0b100000000000000000000#32
def payloadStored : BitVec 32 := 0b111000000000000000000#32

end FragmentFlags

/-- Header describing a stored piece of content. -/
structure Fragment where
  flags : BitVec 32
  sizePayload : UInt32
  sizeContent : UInt64
deriving DecidableEq, Repr

/-- `Fragment::default()`. -/
def Fragment.default : Fragment := ⟨0#32, 0, 0⟩

/-- The payload is a list of fragment references. -/
def Fragment.isFragmented (fragment : Fragment) : Bool :=
  (fragment.flags &&& FragmentFlags.payloadFragmented) == FragmentFlags.payloadFragmented

/-- The payload is compressed, by any compressor. -/
def Fragment.isCompressed (fragment : Fragment) : Bool :=
  (fragment.flags &&& FragmentFlags.payloadCompressed) != 0#32

/-- Names one fragment within larger content and where its bytes sit there. -/
structure FragmentReference where
  hash : Hash
  offsetContent : UInt64
deriving DecidableEq, Repr

/-! ## Errors -/

/-- The errors of the storage layer. `abort` is no value of the source's error
type: it stands for the abort of a build with overflow checks when unchecked
arithmetic leaves its type or an index leaves its slice. `exhausted` is the
model's own: the bound on the recursion ran out. -/
inductive StorageError where
  | addressNotFound (address : Address)
  | oversized (context : String)
  | notSupported (operation : String)
  | internal (message : String)
  | abort
  | exhausted
deriving DecidableEq, Repr

/-- `StorageError::is_oversized`. -/
def StorageError.isOversized : StorageError → Bool
  | .oversized _ => true
  | _ => false

/-- `u64::checked_add`. -/
def checkedAdd (a b : Nat) : Option Nat := if a + b < u64Limit then some (a + b) else none

/-- `u64::checked_sub`. -/
def checkedSub (a b : Nat) : Option Nat := if b ≤ a then some (a - b) else none

/-- Unchecked `u64` addition, which aborts where it overflows. -/
def addU64 (a b : Nat) : Except StorageError Nat :=
  if a + b < u64Limit then .ok (a + b) else .error .abort

/-- Unchecked `u64` subtraction, which aborts where it underflows. -/
def subU64 (a b : Nat) : Except StorageError Nat :=
  if b ≤ a then .ok (a - b) else .error .abort

theorem checkedAdd_eq_some {a b c} (h : checkedAdd a b = some c) :
    c = a + b ∧ a + b < u64Limit := by
  obtain ⟨_, h⟩ := Option.ite_none_right_eq_some.mp h
  cases h
  exact ⟨rfl, by assumption⟩

theorem addU64_eq_ok {a b c} (h : addU64 a b = .ok c) : c = a + b := by
  unfold addU64 at h
  split at h
  · cases h
    rfl
  · cases h

theorem addU64_ok {a b} (h : a + b < u64Limit) : addU64 a b = .ok (a + b) := if_pos h

theorem subU64_ok {a b} (h : b ≤ a) : subU64 a b = .ok (a - b) := if_pos h

/-! ## The byte layout of a fragment list -/

/-- The 40 bytes of one reference. -/
def FragmentReference.toBytes (reference : FragmentReference) : Bytes :=
  (toLE 32 reference.hash.toNat).reverse ++ toLE 8 reference.offsetContent.toNat

/-- The reference the first 40 bytes of `bytes` hold. -/
def FragmentReference.ofBytes (bytes : Bytes) : FragmentReference :=
  { hash := BitVec.ofNat 256 (ofLE (bytes.take 32).reverse)
    offsetContent := UInt64.ofNat (ofLE ((bytes.drop 32).take 8)) }

/-- The bytes of a fragment list. -/
def listBytes (references : List FragmentReference) : Bytes :=
  references.flatMap FragmentReference.toBytes

/-- `as_type_slice::<FragmentReference>()`: the whole references a buffer holds. -/
def asReferences (buffer : Bytes) : List FragmentReference :=
  (List.range (buffer.length / referenceSize)).map fun i =>
    FragmentReference.ofBytes (buffer.drop (i * referenceSize))

@[simp] theorem FragmentReference.length_toBytes (reference : FragmentReference) :
    reference.toBytes.length = referenceSize := by
  simp [FragmentReference.toBytes, referenceSize]

theorem FragmentReference.ofBytes_toBytes_append (reference : FragmentReference)
    (rest : Bytes) : ofBytes (reference.toBytes ++ rest) = reference := by
  have hh : ofLE (toLE 32 reference.hash.toNat) = reference.hash.toNat :=
    ofLE_toLE (Nat.lt_of_lt_of_le reference.hash.isLt (by decide))
  have ho : ofLE (toLE 8 reference.offsetContent.toNat) = reference.offsetContent.toNat :=
    ofLE_toLE (Nat.lt_of_lt_of_le reference.offsetContent.toNat_lt (by decide))
  have hlen : (toLE 32 reference.hash.toNat).reverse.length = 32 := by simp
  have ht : (reference.toBytes ++ rest).take 32 = (toLE 32 reference.hash.toNat).reverse := by
    rw [toBytes, append_assoc, take_left' hlen]
  have hd : ((reference.toBytes ++ rest).drop 32).take 8
      = toLE 8 reference.offsetContent.toNat := by
    rw [toBytes, append_assoc, drop_left' hlen, take_left' (by simp)]
  rw [ofBytes, ht, hd, reverse_reverse, hh, ho]
  simp

@[simp] theorem listBytes_cons (reference : FragmentReference)
    (references : List FragmentReference) :
    listBytes (reference :: references) = reference.toBytes ++ listBytes references := rfl

@[simp] theorem length_listBytes (references : List FragmentReference) :
    (listBytes references).length = references.length * referenceSize := by
  induction references with
  | nil => simp [listBytes]
  | cons r rs ih => simp [Nat.succ_mul]; omega

theorem asReferences_listBytes (references : List FragmentReference) :
    asReferences (listBytes references) = references := by
  induction references with
  | nil => rfl
  | cons r rs ih =>
    have hc : (listBytes (r :: rs)).length / referenceSize
        = (listBytes rs).length / referenceSize + 1 := by
      simp only [length_listBytes, length_cons]
      rw [Nat.mul_div_cancel _ (by decide), Nat.mul_div_cancel _ (by decide)]
    rw [asReferences, hc, range_succ_eq_map, map_cons, map_map]
    refine congrArg₂ cons ?_ ?_
    · rw [Nat.zero_mul, drop_zero, listBytes_cons, FragmentReference.ofBytes_toBytes_append]
    · refine Eq.trans (map_congr_left fun i _ => ?_) ih
      simp only [Function.comp_apply, listBytes_cons, Nat.succ_mul]
      rw [Nat.add_comm, ← drop_drop, drop_left' (by simp)]

theorem listBytes_injective {xs ys} (h : listBytes xs = listBytes ys) : xs = ys := by
  rw [← asReferences_listBytes xs, h, asReferences_listBytes]

end Lore.Storage
