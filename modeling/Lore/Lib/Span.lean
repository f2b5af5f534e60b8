import Mathlib.Algebra.GroupWithZero.Nat
import Mathlib.Data.List.Forall2
import Mathlib.Tactic.Common

/-!
# Spans — half-open ranges, tilings and slices

A `Span` is a half-open range of natural numbers. A list of spans *tiles* a
range when the spans are non-empty, follow one another without gap or overlap,
and cover exactly that range. Clipping every span of a tiling to a window gives
a tiling of the part of the range the window reaches, and the slices of a list
along a tiling concatenate to the slice along the whole range.
-/

namespace Lore.Lib

open List

/-- The half-open range `start ≤ i < stop`. -/
structure Span where
  start : Nat
  stop : Nat
deriving DecidableEq, Repr

namespace Span

/-- How many numbers the span holds. -/
def length (s : Span) : Nat := s.stop - s.start

/-- Whether the span holds no number. -/
def isEmpty (s : Span) : Bool := decide (s.stop ≤ s.start)

/-- The part of `s` inside `w`, or `none` when the two do not overlap. -/
def overlap (s w : Span) : Option Span :=
  if max s.start w.start < min s.stop w.stop then
    some ⟨max s.start w.start, min s.stop w.stop⟩
  else none

theorem overlap_eq_some {s w o : Span} (h : s.overlap w = some o) :
    o.start = max s.start w.start ∧ o.stop = min s.stop w.stop ∧ o.start < o.stop := by
  obtain ⟨_, h⟩ := Option.ite_none_right_eq_some.mp h
  cases h
  exact ⟨rfl, rfl, by assumption⟩

theorem overlap_eq_none {s w : Span} (h : s.overlap w = none) :
    min s.stop w.stop ≤ max s.start w.start := by
  unfold overlap at h
  split at h
  · cases h
  · omega

end Span

/-! ## Tilings -/

/-- The spans are non-empty, adjacent, start at `lo` and end at `hi`. -/
def Tiles : Nat → List Span → Nat → Prop
  | lo, [], hi => lo = hi
  | lo, s :: rest, hi => s.start = lo ∧ s.start < s.stop ∧ Tiles s.stop rest hi

variable {lo hi : Nat} {s : Span} {spans : List Span}

theorem Tiles.le (h : Tiles lo spans hi) : lo ≤ hi := by
  induction spans generalizing lo with
  | nil => exact Nat.le_of_eq h
  | cons s rest ih =>
    obtain ⟨hs, hlt, hr⟩ := h
    have := ih hr
    omega

theorem Tiles.append {mid xs ys} (hx : Tiles lo xs mid) (hy : Tiles mid ys hi) :
    Tiles lo (xs ++ ys) hi := by
  induction xs generalizing lo with
  | nil =>
    obtain rfl : lo = mid := hx
    exact hy
  | cons s rest ih =>
    obtain ⟨hs, hlt, hr⟩ := hx
    exact ⟨hs, hlt, ih hr⟩

section

variable (h : Tiles lo spans hi)
include h

theorem Tiles.sum_length : (spans.map Span.length).sum = hi - lo := by
  induction spans generalizing lo with
  | nil =>
    obtain rfl : lo = hi := h
    simp
  | cons s rest ih =>
    obtain ⟨hs, hlt, hr⟩ := h
    have hle := hr.le
    simp only [map_cons, sum_cons, ih hr, Span.length]
    omega

theorem Tiles.length_le : lo + spans.length ≤ hi := by
  induction spans generalizing lo with
  | nil => exact Nat.le_of_eq h
  | cons s rest ih =>
    obtain ⟨hs, hlt, hr⟩ := h
    have := ih hr
    rw [length_cons]
    omega

theorem Tiles.mem_bounds (hs : s ∈ spans) : lo ≤ s.start ∧ s.start < s.stop ∧ s.stop ≤ hi := by
  induction spans generalizing lo with
  | nil => cases hs
  | cons t rest ih =>
    obtain ⟨ht, hlt, hr⟩ := h
    rcases mem_cons.mp hs with rfl | hmem
    · exact ⟨by omega, hlt, hr.le⟩
    · obtain ⟨h1, h2, h3⟩ := ih hr hmem
      exact ⟨by omega, h2, h3⟩

theorem Tiles.getElem?_le {i j : Nat} {t : Span} (hij : i ≤ j)
    (hs : spans[i]? = some s) (ht : spans[j]? = some t) :
    s.start ≤ t.start ∧ s.stop ≤ t.stop ∧ (i < j → s.stop ≤ t.start) := by
  induction spans generalizing lo i j with
  | nil => simp at hs
  | cons u rest ih =>
    obtain ⟨-, hlt, hr⟩ := h
    cases j with
    | zero =>
      obtain rfl : i = 0 := by omega
      rw [hs] at ht
      cases ht
      exact ⟨Nat.le_refl _, Nat.le_refl _, fun h => absurd h (Nat.lt_irrefl 0)⟩
    | succ j =>
      cases i with
      | zero =>
        obtain rfl : u = s := by simpa using hs
        have := hr.mem_bounds (mem_of_getElem? (by simpa using ht))
        exact ⟨by omega, by omega, fun _ => this.1⟩
      | succ i =>
        obtain ⟨h1, h2, h3⟩ := ih hr (by omega : i ≤ j) (by simpa using hs) (by simpa using ht)
        exact ⟨h1, h2, fun h => h3 (by omega)⟩

theorem Tiles.adjacent {i t} (hs : spans[i]? = some s) (ht : spans[i + 1]? = some t) :
    s.stop = t.start := by
  induction spans generalizing lo i with
  | nil => simp at hs
  | cons u rest ih =>
    obtain ⟨-, -, hr⟩ := h
    cases i with
    | zero =>
      obtain rfl : u = s := by simpa using hs
      cases rest with
      | nil => simp at ht
      | cons v rest =>
        obtain rfl : v = t := by simpa using ht
        exact hr.1.symm
    | succ i => exact ih hr (by simpa using hs) (by simpa using ht)

theorem Tiles.overlap_past {w} (hw : w.stop ≤ lo) : spans.filterMap (·.overlap w) = [] := by
  refine filterMap_eq_nil_iff.mpr fun s hs => ?_
  have := h.mem_bounds hs
  unfold Span.overlap
  rw [if_neg (by omega)]

theorem Tiles.overlap (w : Span) :
    (max lo w.start < min hi w.stop →
      Tiles (max lo w.start) (spans.filterMap (·.overlap w)) (min hi w.stop)) ∧
    (min hi w.stop ≤ max lo w.start → spans.filterMap (·.overlap w) = []) := by
  induction spans generalizing lo with
  | nil =>
    obtain rfl : lo = hi := h
    exact ⟨fun hlt => by omega, fun _ => rfl⟩
  | cons s rest ih =>
    obtain ⟨hs, hlt, hr⟩ := h
    have hle := hr.le
    obtain ⟨hin, hout⟩ := ih hr
    cases ho : s.overlap w with
    | none =>
      have hno := Span.overlap_eq_none ho
      simp only [filterMap_cons, ho]
      by_cases hp : w.stop ≤ s.start
      · have hnil := hr.overlap_past (w := w) (by omega)
        rw [hnil]
        exact ⟨fun h => by omega, fun _ => rfl⟩
      · -- the span ends before the window starts
        refine ⟨fun h => ?_, fun h => hout (by omega)⟩
        have ht := hin (by omega)
        rwa [show max s.stop w.start = max lo w.start by omega] at ht
    | some o =>
      obtain ⟨ho1, ho2, ho3⟩ := Span.overlap_eq_some ho
      simp only [filterMap_cons, ho]
      refine ⟨fun _ => ⟨by omega, ho3, ?_⟩, fun h => by omega⟩
      by_cases hm : s.stop < w.stop ∧ s.stop < hi
      · have ht := hin (by omega)
        rwa [show max s.stop w.start = o.stop by omega] at ht
      · rw [hout (by omega)]
        exact show o.stop = min hi w.stop by omega

theorem Tiles.refine {parts}
    (hp : List.Forall₂ (fun (s : Span) part => Tiles s.start part s.stop) spans parts) :
    Tiles lo parts.flatten hi := by
  induction hp generalizing lo with
  | nil => exact h
  | cons hpa _ ih =>
    obtain ⟨rfl, -, hr⟩ := h
    exact hpa.append (ih hr)

end

theorem Tiles.of_shift {c a b}
    (h : Tiles (c + a) (spans.map fun s => ⟨c + s.start, c + s.stop⟩) (c + b)) :
    Tiles a spans b := by
  induction spans generalizing a with
  | nil => exact Nat.add_left_cancel h
  | cons s rest ih =>
    obtain ⟨hs, hlt, hr⟩ := h
    exact ⟨Nat.add_left_cancel hs, Nat.lt_of_add_lt_add_left hlt, ih hr⟩

/-! ## Contiguous hits -/

/-- Where `f` hits exactly the elements at the indices `a ≤ i < b`, the hits are
those of the indices `a, …, b - 1` in order. -/
theorem forall₂_range'_filterMap {α β : Type} {f : α → Option β} {xs : List α} {a b : Nat}
    (hb : b ≤ xs.length) (h : ∀ i x, xs[i]? = some x → ((∃ y, f x = some y) ↔ a ≤ i ∧ i < b)) :
    List.Forall₂ (fun i y => ∃ x, xs[i]? = some x ∧ f x = some y)
      (range' a (b - a)) (xs.filterMap f) := by
  induction xs generalizing a b with
  | nil =>
    obtain rfl : b = 0 := by simpa using hb
    simp
  | cons x xs ih =>
    have hx := h 0 x rfl
    -- the tail's hits are the same indices moved down by one
    have ht : ∀ a', (∀ i, a' ≤ i ↔ a ≤ i + 1) →
        List.Forall₂ (fun i y => ∃ z, (x :: xs)[i]? = some z ∧ f z = some y)
          (range' (a' + 1) (b - 1 - a')) (xs.filterMap f) := by
      intro a' ha'
      have hrec := ih (a := a') (b := b - 1) (by simp at hb; omega) (by
        intro i z hz
        rw [h (i + 1) z (by simpa using hz), ← ha' i]
        omega)
      rw [Nat.add_comm a' 1, ← map_add_range', forall₂_map_left_iff]
      refine hrec.imp fun i y ⟨z, hz, hy⟩ => ⟨z, ?_, hy⟩
      rw [Nat.add_comm]
      simpa using hz
    by_cases ha : a = 0 ∧ 0 < b
    · obtain ⟨rfl, hpos⟩ := ha
      obtain ⟨y, hy⟩ := hx.mpr ⟨Nat.le_refl 0, hpos⟩
      rw [filterMap_cons_some hy, show b - 0 = (b - 1 - 0) + 1 by omega]
      exact List.Forall₂.cons ⟨x, rfl, hy⟩ (ht 0 fun i => by omega)
    · have hn : f x = none := by
        cases hfx : f x with
        | none => rfl
        | some y => exact absurd (hx.mp ⟨y, hfx⟩) (by omega)
      rw [filterMap_cons_none hn]
      have hrec := ht (a - 1) fun i => by omega
      by_cases ha0 : a = 0
      · obtain rfl : b = 0 := by omega
        simpa using hrec
      · rwa [show a - 1 + 1 = a by omega, show b - 1 - (a - 1) = b - a by omega] at hrec

theorem Forall₂.join {α β γ : Type} {R : α → β → Prop} {S : α → γ → Prop} {T : β → γ → Prop}
    {xs ys zs} (hR : List.Forall₂ R xs ys) (hS : List.Forall₂ S xs zs)
    (h : ∀ x ∈ xs, ∀ y z, R x y → S x z → T y z) : List.Forall₂ T ys zs := by
  induction hR generalizing zs with
  | nil =>
    cases hS
    exact List.Forall₂.nil
  | cons hxy _ ih =>
    cases hS with
    | cons hxz ht =>
      exact List.Forall₂.cons (h _ (by simp) _ _ hxy hxz) (ih ht fun x hx => h x (by simp [hx]))

theorem Forall₂.exists_right {α β : Type} {R : α → β → Prop} {xs ys} (h : List.Forall₂ R xs ys)
    {x : α} (hx : x ∈ xs) : ∃ y ∈ ys, R x y := by
  induction h with
  | nil => cases hx
  | cons hR _ ih =>
    rcases mem_cons.mp hx with rfl | hmem
    · exact ⟨_, by simp, hR⟩
    · obtain ⟨y, hy, hRy⟩ := ih hmem
      exact ⟨y, by simp [hy], hRy⟩

/-! ## Slices -/

/-- The elements of `xs` at the positions of `s`. -/
def slice {α : Type} (xs : List α) (s : Span) : List α := (xs.drop s.start).take s.length

variable {α : Type}

@[simp] theorem length_slice (xs : List α) (s : Span) :
    (slice xs s).length = min s.length (xs.length - s.start) := by
  simp [slice]

theorem length_slice_of_le {xs : List α} {s : Span} (h : s.stop ≤ xs.length) :
    (slice xs s).length = s.length := by
  rw [length_slice, Span.length]
  omega

@[simp] theorem slice_empty (xs : List α) (a : Nat) : slice xs ⟨a, a⟩ = [] := by
  simp [slice, Span.length]

theorem slice_of_isEmpty (xs : List α) {s} (h : s.isEmpty = true) : slice xs s = [] := by
  have hle : s.stop ≤ s.start := of_decide_eq_true h
  rw [slice, Span.length, Nat.sub_eq_zero_of_le hle, take_zero]

theorem slice_all (xs : List α) : slice xs ⟨0, xs.length⟩ = xs := by
  simp [slice, Span.length]

theorem slice_append_slice (xs : List α) {a b c} (hab : a ≤ b) (hbc : b ≤ c) :
    slice xs ⟨a, b⟩ ++ slice xs ⟨b, c⟩ = slice xs ⟨a, c⟩ := by
  simp only [slice, Span.length]
  rw [show c - a = (b - a) + (c - b) by omega, take_add, drop_drop, show a + (b - a) = b by omega]

theorem slice_slice (xs : List α) {s t} (h : t.stop ≤ s.length) :
    slice (slice xs s) t = slice xs ⟨s.start + t.start, s.start + t.stop⟩ := by
  simp only [slice, Span.length] at h ⊢
  rw [drop_take, drop_drop, take_take]
  congr 1
  omega

theorem slice_map {β : Type} (f : α → β) (xs : List α) (s : Span) :
    slice (xs.map f) s = (slice xs s).map f := by
  simp [slice]

theorem Tiles.flatten_slices {lo hi spans} (h : Tiles lo spans hi) (xs : List α) :
    (spans.map (slice xs)).flatten = slice xs ⟨lo, hi⟩ := by
  induction spans generalizing lo with
  | nil =>
    obtain rfl : lo = hi := h
    simp
  | cons s rest ih =>
    obtain ⟨rfl, hlt, hr⟩ := h
    rw [map_cons, flatten_cons, ih hr]
    exact slice_append_slice xs (Nat.le_of_lt hlt) hr.le

end Lore.Lib
