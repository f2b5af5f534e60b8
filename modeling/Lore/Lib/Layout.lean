import Lore.Lib.ByteNumber

/-!
# Layout — records of a fixed number of bytes

A `Layout α` lays the values of `α` out in `size` bytes each and reads them back from
the front of any bytes that start with such an encoding. Layouts of records are built
from those of their fields, one after another. `encodeAll` is an array of records and
`readArray` reads so many of them off the front of a reader.
-/

namespace Lore.Lib

open List

/-- A fixed-size byte layout, with the proof that reading undoes writing. -/
structure Layout (α : Type) where
  size : Nat
  encode : α → List UInt8
  decode : List UInt8 → α
  length_encode : ∀ a, (encode a).length = size
  decode_encode : ∀ a rest, decode (encode a ++ rest) = a

namespace Layout

/-- A little-endian `u32`. -/
def u32 : Layout UInt32 where
  size := 4
  encode x := toLE 4 x.toNat
  decode bytes := UInt32.ofNat (ofLE (bytes.take 4))
  length_encode _ := length_toLE ..
  decode_encode x rest := by
    rw [List.take_left' (length_toLE ..), ofLE_toLE (Nat.lt_of_lt_of_le x.toNat_lt (by decide))]
    simp

/-- A little-endian `u64`. -/
def u64 : Layout UInt64 where
  size := 8
  encode x := toLE 8 x.toNat
  decode bytes := UInt64.ofNat (ofLE (bytes.take 8))
  length_encode _ := length_toLE ..
  decode_encode x rest := by
    rw [List.take_left' (length_toLE ..), ofLE_toLE (Nat.lt_of_lt_of_le x.toNat_lt (by decide))]
    simp

/-- `k` bytes read as one number, most significant first. -/
def bytes (k : Nat) : Layout (BitVec (8 * k)) where
  size := k
  encode x := (toLE k x.toNat).reverse
  decode bytes := BitVec.ofNat (8 * k) (ofLE (bytes.take k).reverse)
  length_encode _ := by simp
  decode_encode x rest := by
    have hlt : x.toNat < 256 ^ k := by
      have h := x.isLt
      rwa [Nat.pow_mul] at h
    rw [List.take_left' (by simp), List.reverse_reverse, ofLE_toLE hlt]
    simp

/-- Two fields, one after the other. -/
def pair {α β : Type} (first : Layout α) (second : Layout β) : Layout (α × β) where
  size := first.size + second.size
  encode x := first.encode x.1 ++ second.encode x.2
  decode bytes := (first.decode bytes, second.decode (bytes.drop first.size))
  length_encode x := by rw [List.length_append, first.length_encode, second.length_encode]
  decode_encode x rest := by
    rw [List.append_assoc, first.decode_encode,
      List.drop_left' (first.length_encode x.1), second.decode_encode]

/-- The layout of a record, given as that of the tuple of its fields. -/
def record {α β : Type} (fields : Layout α) (make : α → β) (take : β → α)
    (make_take : ∀ b, make (take b) = b) : Layout β where
  size := fields.size
  encode b := fields.encode (take b)
  decode bytes := make (fields.decode bytes)
  length_encode b := fields.length_encode (take b)
  decode_encode b rest := by rw [fields.decode_encode, make_take]

variable {α : Type} (layout : Layout α)

theorem encode_append_inj {a b : α} {rest others}
    (h : layout.encode a ++ rest = layout.encode b ++ others) : a = b ∧ rest = others := by
  have hlen : (layout.encode a).length = (layout.encode b).length := by
    rw [layout.length_encode, layout.length_encode]
  refine ⟨?_, (append_inj h hlen).2⟩
  rw [← layout.decode_encode a rest, h, layout.decode_encode]

/-! ## Arrays -/

/-- The bytes of an array of records. -/
def encodeAll (xs : List α) : List UInt8 := xs.flatMap layout.encode

/-- The records the first `count` places of `bytes` hold. -/
def decodeAll : Nat → List UInt8 → List α
  | 0, _ => []
  | count + 1, bytes => layout.decode bytes :: decodeAll count (bytes.drop layout.size)

/-- Reads `count` records off the front of a reader, which must hold that many. -/
def readArray (count : Nat) (reader : List UInt8) : Option (List α × List UInt8) :=
  if count * layout.size ≤ reader.length then
    some (layout.decodeAll count reader, reader.drop (count * layout.size))
  else none

@[simp] theorem length_encodeAll (xs : List α) :
    (layout.encodeAll xs).length = xs.length * layout.size := by
  induction xs with
  | nil => simp [encodeAll]
  | cons x xs ih =>
    have hc : layout.encodeAll (x :: xs) = layout.encode x ++ layout.encodeAll xs := rfl
    rw [hc, length_append, layout.length_encode, length_cons, Nat.succ_mul]
    omega

theorem decodeAll_encodeAll (xs : List α) (rest : List UInt8) :
    layout.decodeAll xs.length (layout.encodeAll xs ++ rest) = xs := by
  induction xs with
  | nil => rfl
  | cons x xs ih =>
    have hc : layout.encodeAll (x :: xs) ++ rest
        = layout.encode x ++ (layout.encodeAll xs ++ rest) := by
      simp [encodeAll]
    rw [hc, length_cons, decodeAll, layout.decode_encode,
      drop_left' (layout.length_encode x), ih]

theorem readArray_encodeAll (xs : List α) (rest : List UInt8) :
    layout.readArray xs.length (layout.encodeAll xs ++ rest) = some (xs, rest) := by
  have hlen : xs.length * layout.size ≤ (layout.encodeAll xs ++ rest).length := by
    rw [length_append, length_encodeAll]
    omega
  rw [readArray, if_pos hlen, decodeAll_encodeAll, drop_left' (by simp)]

end Layout

end Lore.Lib
