import Mathlib.Data.List.Nodup
import Mathlib.Data.List.Perm.Basic
import Mathlib.Data.List.InsertIdx

/-!
# Indexed — an append-only array under a sorted index

Elements are kept in the order they were added, and a second array lists their positions
in another order. `slots` reads the elements in that order. Every operation on the pair is
given as an operation on `slots`, so that users of the structure reason about one list.
-/

namespace Lore.Lib

open List Option

theorem insertIdx_eq_take_cons_drop {α : Type} {xs : List α} {i : Nat} (h : i ≤ xs.length)
    (a : α) : xs.insertIdx i a = xs.take i ++ a :: xs.drop i := by
  induction i generalizing xs with
  | zero => rfl
  | succ i ih =>
    cases xs with
    | nil => simp at h
    | cons x xs =>
      rw [insertIdx_succ_cons, ih (by simpa using h)]
      rfl

theorem getElem?_modify_cases {α : Type} {xs : List α} {index i : Nat} {f : α → α} {y : α}
    (h : (xs.modify index f)[i]? = some y) :
    (i = index ∧ ∃ x, xs[index]? = some x ∧ y = f x) ∨ (i ≠ index ∧ xs[i]? = some y) := by
  rw [getElem?_modify] at h
  by_cases hi : index = i
  · left
    subst hi
    simp only [Option.map_eq_map, map_eq_some_iff] at h
    obtain ⟨x, hx, rfl⟩ := h
    exact ⟨rfl, x, hx, rfl⟩
  · right
    simp only [if_neg hi, Option.map_eq_map, Option.map_id'] at h
    exact ⟨Ne.symm hi, h⟩

theorem mem_modify_exists {α : Type} {xs : List α} {index : Nat} {f : α → α} {y : α}
    (h : y ∈ xs.modify index f) : y ∈ xs ∨ ∃ x, xs[index]? = some x ∧ y = f x := by
  obtain ⟨i, hi⟩ := mem_iff_getElem?.mp h
  exact (getElem?_modify_cases hi).symm.imp (fun hk => mem_of_getElem? hk.2) And.right

theorem mem_modify_cases {α : Type} {xs : List α} {index : Nat} {x y : α} {f : α → α}
    (hx : xs[index]? = some x) (h : y ∈ xs.modify index f) : y ∈ xs ∨ y = f x :=
  (mem_modify_exists h).imp_right fun ⟨_, hx', hy⟩ => some.inj (hx.symm.trans hx') ▸ hy

/-- Elements in the order added, and the positions of them in sorted order. -/
structure Indexed (α : Type) where
  sortedIndex : List Nat
  entry : List α
deriving DecidableEq, Repr

namespace Indexed

variable {α : Type}

/-- No elements. -/
def empty : Indexed α := ⟨[], []⟩

variable (x : Indexed α)

/-- The element the index names at `slot`. -/
def at? (slot : Nat) : Option α := x.sortedIndex[slot]?.bind fun i => x.entry[i]?

/-- The elements in the order of the index. -/
def slots : List α := x.sortedIndex.filterMap fun i => x.entry[i]?

/-- Changes the element the index names at `slot`. -/
def modifyAt (slot : Nat) (f : α → α) : Indexed α :=
  match x.sortedIndex[slot]? with
  | some i => { x with entry := x.entry.modify i f }
  | none => x

/-- Adds an element, which the index names at `slot`. -/
def insertAt (slot : Nat) (a : α) : Indexed α :=
  ⟨x.sortedIndex.insertIdx slot x.entry.length, x.entry ++ [a]⟩

/-- Changes every element in place. -/
def mapEntries (f : α → α) : Indexed α := { x with entry := x.entry.map f }

/-- The elements of a list, each added in its order. -/
def ofList (xs : List α) : Indexed α := ⟨List.range xs.length, xs⟩

/-- The index names every element once. -/
def WellIndexed (x : Indexed α) : Prop := x.sortedIndex.Perm (List.range x.entry.length)

namespace WellIndexed

variable {x : Indexed α}

theorem lt_length (h : x.WellIndexed) {i} (hi : i ∈ x.sortedIndex) : i < x.entry.length :=
  mem_range.mp (h.mem_iff.mp hi)

theorem nodup (h : x.WellIndexed) : x.sortedIndex.Nodup := h.nodup_iff.mpr nodup_range

theorem length_eq (h : x.WellIndexed) : x.sortedIndex.length = x.entry.length := by
  rw [List.Perm.length_eq h, length_range]

end WellIndexed

theorem empty_wellIndexed : (empty : Indexed α).WellIndexed := List.Perm.refl []

theorem getElem?_filterMap_of_lt {entry : List α} {index : List Nat}
    (h : ∀ i ∈ index, i < entry.length) (slot : Nat) :
    (index.filterMap fun i => entry[i]?)[slot]? = index[slot]?.bind fun i => entry[i]? := by
  induction index generalizing slot with
  | nil => rfl
  | cons i index ih =>
    obtain ⟨a, hi⟩ : ∃ a, entry[i]? = some a := ⟨_, getElem?_eq_getElem (h i (by simp))⟩
    rw [filterMap_cons, hi]
    cases slot with
    | zero => simp [hi]
    | succ slot =>
      exact ih (fun j hj => h j (by simp [hj])) slot

variable {x : Indexed α}

theorem getElem?_slots (h : x.WellIndexed) (slot : Nat) : x.slots[slot]? = x.at? slot :=
  getElem?_filterMap_of_lt (fun _ hi => h.lt_length hi) slot

theorem length_slots (h : x.WellIndexed) : x.slots.length = x.entry.length := by
  have hall : ∀ slot, x.slots[slot]? = none ↔ x.sortedIndex.length ≤ slot := by
    intro slot
    rw [getElem?_slots h, at?, ← getElem?_eq_none_iff]
    constructor
    · intro hn
      cases hi : x.sortedIndex[slot]? with
      | none => rfl
      | some i =>
        have hlt := h.lt_length (mem_of_getElem? hi)
        rw [hi] at hn
        simp only [bind_some, getElem?_eq_none_iff] at hn
        omega
    · intro hn
      rw [hn, bind_none]
  have hle := (hall x.slots.length).mp (getElem?_eq_none_iff.mpr (Nat.le_refl _))
  have hge := getElem?_eq_none_iff.mp ((hall x.sortedIndex.length).mpr (Nat.le_refl _))
  rw [← h.length_eq]
  omega

theorem slots_perm (h : x.WellIndexed) : x.slots.Perm x.entry := by
  have hall : (range x.entry.length).filterMap (fun i => x.entry[i]?) = x.entry := by
    ext k : 1
    rw [getElem?_filterMap_of_lt (fun i hi => mem_range.mp hi)]
    by_cases hk : k < x.entry.length
    · rw [getElem?_range hk, bind_some]
    · rw [getElem?_eq_none (by simpa using hk), getElem?_eq_none (by omega)]
      rfl
  conv_rhs => rw [← hall]
  exact h.filterMap _

theorem mem_slots (h : x.WellIndexed) {a : α} : a ∈ x.slots ↔ a ∈ x.entry := (slots_perm h).mem_iff

/-! ## The operations, on the slots -/

section

variable (h : x.WellIndexed)
include h

theorem modifyAt_wellIndexed (slot : Nat) (f : α → α) : (x.modifyAt slot f).WellIndexed := by
  rw [modifyAt]
  split
  · rw [WellIndexed, length_modify]
    exact h
  · exact h

theorem slots_modifyAt (slot : Nat) (f : α → α) :
    (x.modifyAt slot f).slots = x.slots.modify slot f := by
  ext k : 1
  rw [getElem?_slots (modifyAt_wellIndexed h slot f), getElem?_modify, getElem?_slots h,
    modifyAt]
  cases hsl : x.sortedIndex[slot]? with
  | none =>
    by_cases hk : slot = k
    · rw [← hk, at?, hsl]
      rfl
    · simp [if_neg hk]
  | some i =>
    simp only [at?]
    cases hj : x.sortedIndex[k]? with
    | none => simp
    | some j =>
      -- the index names an element once, so the changed element is at `slot` alone
      have hij : i = j ↔ slot = k := by
        constructor
        · rintro rfl
          exact (getElem?_inj (List.getElem?_eq_some_iff.mp hsl).1 h.nodup).mp
            (hsl.trans hj.symm)
        · rintro rfl
          exact some.inj (hsl.symm.trans hj)
      simp [getElem?_modify, hij]

theorem insertAt_wellIndexed {slot} (hsl : slot ≤ x.entry.length) (a : α) :
    (x.insertAt slot a).WellIndexed := by
  have hle : slot ≤ x.sortedIndex.length := by rwa [h.length_eq]
  rw [WellIndexed, insertAt]
  simp only [length_append, length_singleton, range_succ]
  exact (perm_insertIdx _ _ hle).trans ((List.Perm.cons _ h).trans (perm_append_singleton _ _).symm)

theorem slots_insertAt {slot} (hsl : slot ≤ x.entry.length) (a : α) :
    (x.insertAt slot a).slots = x.slots.insertIdx slot a := by
  have hle : slot ≤ x.sortedIndex.length := by rwa [h.length_eq]
  have hlen : slot ≤ x.slots.length := by rwa [length_slots h]
  -- an element of the old array is found where it was, the new one after them
  have hold : ∀ j, (x.sortedIndex[j]?.bind fun i => (x.entry ++ [a])[i]?) = x.at? j := by
    intro j
    rw [at?]
    cases hi : x.sortedIndex[j]? with
    | none => rfl
    | some i =>
      have hlt := h.lt_length (mem_of_getElem? hi)
      simp [getElem?_append_left hlt]
  ext k : 1
  rw [getElem?_slots (insertAt_wellIndexed h hsl a), at?, insertAt, getElem?_insertIdx,
    getElem?_insertIdx]
  by_cases hlt : k < slot
  · rw [if_pos hlt, if_pos hlt, hold, getElem?_slots h]
  · rw [if_neg hlt, if_neg hlt]
    by_cases heq : k = slot
    · rw [heq, if_pos hle, if_pos hlen]
      simp
    · rw [if_neg heq, if_neg heq, hold, getElem?_slots h]

theorem mapEntries_wellIndexed (f : α → α) : (x.mapEntries f).WellIndexed := by
  rw [WellIndexed, mapEntries, length_map]
  exact h

end

theorem slots_mapEntries (x : Indexed α) (f : α → α) : (x.mapEntries f).slots = x.slots.map f := by
  rw [slots, slots, mapEntries, map_filterMap]
  simp

theorem ofList_wellIndexed (xs : List α) : (ofList xs).WellIndexed := List.Perm.refl _

theorem slots_ofList (xs : List α) : (ofList xs).slots = xs := by
  ext k : 1
  rw [getElem?_slots (ofList_wellIndexed xs), at?, ofList]
  by_cases hk : k < xs.length
  · rw [getElem?_range hk]
    rfl
  · rw [getElem?_eq_none_iff.mpr (by rw [length_range]; omega),
      getElem?_eq_none_iff.mpr (by omega)]
    rfl

end Indexed

end Lore.Lib
