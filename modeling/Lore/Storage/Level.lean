import Lore.Storage.Walk

/-!
# Level — what the checks of a list establish

The windows a fragment list gives its entries, as one list of spans, and what a
list that passed `wanted_entries` is: no zero hash, and the windows tile the
level from the first entry's offset to the level's end. The wanted entries are
then exactly those whose window the read's window reaches.
-/

namespace Lore.Storage

open Lore.Lib List

/-- Where the first of `rest` starts, or the level's end after the last entry. -/
def nextOffset (rest : List FragmentReference) (levelEnd : Nat) : Nat :=
  match rest with
  | [] => levelEnd
  | r :: _ => r.offsetContent.toNat

/-- The windows of a list's entries, in order. -/
def entryWindows : List FragmentReference → Nat → List Span
  | [], _ => []
  | r :: rest, levelEnd =>
      ⟨r.offsetContent.toNat, nextOffset rest levelEnd⟩ :: entryWindows rest levelEnd

@[simp] theorem nextOffset_nil (levelEnd : Nat) : nextOffset [] levelEnd = levelEnd := rfl

@[simp] theorem nextOffset_cons (r : FragmentReference) (rest : List FragmentReference)
    (levelEnd : Nat) : nextOffset (r :: rest) levelEnd = r.offsetContent.toNat := rfl

@[simp] theorem length_entryWindows (list : List FragmentReference) (levelEnd : Nat) :
    (entryWindows list levelEnd).length = list.length := by
  induction list with
  | nil => rfl
  | cons r rest ih => simp [entryWindows, ih]

theorem getElem?_entryWindows (list : List FragmentReference) (levelEnd i : Nat) :
    (entryWindows list levelEnd)[i]?
      = list[i]?.map fun r =>
          (⟨r.offsetContent.toNat, nextOffset (list.drop (i + 1)) levelEnd⟩ : Span) := by
  induction list generalizing i with
  | nil => simp
  | cons r rest ih =>
    cases i with
    | zero => simp [entryWindows]
    | succ i => simp [entryWindows, ih]

theorem nextOffset_drop (list : List FragmentReference) (levelEnd i : Nat) :
    nextOffset (list.drop (i + 1)) levelEnd = entryStop list i levelEnd := by
  unfold entryStop
  cases hn : list[i + 1]? with
  | none =>
    rw [drop_eq_nil_of_le (getElem?_eq_none_iff.mp hn), nextOffset_nil]
  | some next =>
    obtain ⟨hlt, rfl⟩ := List.getElem?_eq_some_iff.mp hn
    rw [drop_eq_getElem_cons hlt, nextOffset_cons]

/-! ## One entry -/

variable {list : List FragmentReference} {i levelEnd : Nat} {window : Span}

theorem indexSlice_eq_ok {α : Type} {list} {x : α} :
    indexSlice list i = .ok x ↔ list[i]? = some x := by
  unfold indexSlice
  cases list[i]? <;> simp

theorem indexSlice_of_getElem? {α : Type} {list} {x : α} (h : list[i]? = some x) :
    indexSlice list i = .ok x := indexSlice_eq_ok.mpr h

theorem entryWindow_eq_ok {w} :
    entryWindow list i levelEnd = .ok w ↔
      ∃ r, list[i]? = some r ∧ isZero r.hash = false ∧
        (entryWindows list levelEnd)[i]? = some w ∧ w.start < w.stop := by
  rw [getElem?_entryWindows, nextOffset_drop]
  cases hr : list[i]? with
  | none => simp [entryWindow, indexSlice, hr]
  | some r =>
    simp only [entryWindow, indexSlice, hr, bind, Except.bind, checkedSub]
    generalize entryStop list i levelEnd = stop
    cases hz : isZero r.hash with
    | true => simp [hz]
    | false =>
      by_cases hlt : r.offsetContent.toNat < stop
      · have hsi : stop - r.offsetContent.toNat ≠ 0 := by omega
        simp only [Nat.le_of_lt hlt, if_true, hsi]
        constructor
        · intro h
          cases h
          exact ⟨r, rfl, hz, rfl, hlt⟩
        · rintro ⟨_, _, _, hw, -⟩
          cases hw
          rfl
      · constructor
        · intro h
          by_cases hle : r.offsetContent.toNat ≤ stop
          · simp [hle, show stop - r.offsetContent.toNat = 0 by omega] at h
          · simp [hle] at h
        · rintro ⟨_, _, _, hw, hpos⟩
          cases hw
          exact absurd hpos hlt

/-! ## A whole level -/

/-- A list whose entries all pass their checks: no zero hash, and the windows tile
the level. -/
structure ValidLevel (list : List FragmentReference) (levelEnd : Nat) : Prop where
  hashes : ∀ r ∈ list, isZero r.hash = false
  tiles : Tiles (nextOffset list levelEnd) (entryWindows list levelEnd) levelEnd

theorem tiles_entryWindows (h : ∀ w ∈ entryWindows list levelEnd, w.start < w.stop) :
    Tiles (nextOffset list levelEnd) (entryWindows list levelEnd) levelEnd := by
  induction list with
  | nil => exact rfl
  | cons r rest ih =>
    refine ⟨rfl, h _ (by simp [entryWindows]), ih fun w hw => h w ?_⟩
    simp [entryWindows, hw]

theorem validLevel_of_entryWindow {list levelEnd}
    (h : ∀ i < list.length, ∃ w, entryWindow list i levelEnd = .ok w) :
    ValidLevel list levelEnd := by
  constructor
  · intro r hr
    obtain ⟨i, hi, rfl⟩ := getElem_of_mem hr
    obtain ⟨w, hw⟩ := h i hi
    obtain ⟨r, hr, hz, -⟩ := entryWindow_eq_ok.mp hw
    rw [getElem?_eq_getElem hi] at hr
    cases hr
    exact hz
  · refine tiles_entryWindows fun s hs => ?_
    obtain ⟨i, hi, rfl⟩ := getElem_of_mem hs
    obtain ⟨w, hw⟩ := h i (by simpa using hi)
    obtain ⟨_, -, -, hget, hlt⟩ := entryWindow_eq_ok.mp hw
    rw [getElem?_eq_getElem hi] at hget
    cases hget
    exact hlt

theorem ValidLevel.entryWindow {s} (h : ValidLevel list levelEnd)
    (hs : (entryWindows list levelEnd)[i]? = some s) : entryWindow list i levelEnd = .ok s := by
  have hlen : i < list.length := by
    have := (List.getElem?_eq_some_iff.mp hs).1
    simpa using this
  refine entryWindow_eq_ok.mpr
    ⟨list[i], getElem?_eq_getElem hlen, h.hashes _ (getElem_mem hlen), hs, ?_⟩
  exact (h.tiles.mem_bounds (mem_of_getElem? hs)).2.1

/-- Clipping never underflows: it is the overlap, moved to the entry's start. -/
theorem clipToWindow_eq (entry window : Span) :
    clipToWindow entry window
      = .ok ((entry.overlap window).map fun o => ⟨o.start - entry.start, o.stop - entry.start⟩) := by
  by_cases hlt : max entry.start window.start < min entry.stop window.stop
  · simp only [clipToWindow, Span.overlap, if_pos hlt]
    rw [subU64_ok (by omega), subU64_ok (by omega)]
    rfl
  · simp only [clipToWindow, Span.overlap, if_neg hlt, Option.map_none]

/-- The window reaches entry `i` of the list. -/
def Reached (list : List FragmentReference) (levelEnd : Nat) (window : Span) (i : Nat) : Prop :=
  ∃ s o, (entryWindows list levelEnd)[i]? = some s ∧ s.overlap window = some o

/-- `wanted` holds the first and one past the last reached index below `n`. -/
def WantedBelow (list : List FragmentReference) (levelEnd : Nat) (window : Span) (n : Nat) :
    Option Span → Prop
  | none => ∀ i < n, ¬ Reached list levelEnd window i
  | some r =>
      r.start < r.stop ∧ r.stop ≤ n ∧ Reached list levelEnd window r.start ∧
        Reached list levelEnd window (r.stop - 1) ∧
        ∀ i < n, Reached list levelEnd window i → r.start ≤ i ∧ i < r.stop

theorem wantEntry_ok {n wanted wanted'} (h : wantEntry list levelEnd window wanted n = .ok wanted')
    (hw : WantedBelow list levelEnd window n wanted) :
    (∃ s, entryWindow list n levelEnd = .ok s) ∧
      WantedBelow list levelEnd window (n + 1) wanted' := by
  unfold wantEntry at h
  cases he : Lore.Storage.entryWindow list n levelEnd with
  | error e => simp [he] at h
  | ok s =>
    obtain ⟨_, -, -, hget, -⟩ := entryWindow_eq_ok.mp he
    refine ⟨⟨s, rfl⟩, ?_⟩
    have hb : ∀ i < n + 1, i < n ∨ i = n := by omega
    simp only [he, clipToWindow_eq, bind, Except.bind] at h
    cases ho : s.overlap window with
    | none =>
      have hn : ¬ Reached list levelEnd window n := by
        rintro ⟨s', o, hs', ho'⟩
        rw [hget] at hs'
        cases hs'
        rw [ho] at ho'
        cases ho'
      simp only [ho] at h
      cases h
      cases wanted with
      | none =>
        intro i hi hr
        rcases hb i hi with hlt | rfl
        · exact hw i hlt hr
        · exact hn hr
      | some r =>
        obtain ⟨h1, h2, h3, h4, h5⟩ := hw
        refine ⟨h1, by omega, h3, h4, fun i hi hr => ?_⟩
        rcases hb i hi with hlt | rfl
        · exact h5 i hlt hr
        · exact absurd hr hn
    | some o =>
      have hn : Reached list levelEnd window n := ⟨s, o, hget, ho⟩
      simp only [ho] at h
      cases wanted with
      | none =>
        cases h
        refine ⟨by simp, by simp, hn, by simpa using hn, fun i hi hr => ?_⟩
        rcases hb i hi with hlt | rfl
        · exact absurd hr (hw i hlt)
        · simp
      | some r =>
        cases h
        obtain ⟨h1, h2, h3, h4, h5⟩ := hw
        refine ⟨by simp; omega, by simp, h3, by simpa using hn, fun i hi hr => ?_⟩
        rcases hb i hi with hlt | rfl
        · have := h5 i hlt hr
          simp
          omega
        · simp
          omega

theorem wantEntry_of_valid {n} (h : ValidLevel list levelEnd) (hn : n < list.length)
    (wanted : Option Span) : ∃ wanted', wantEntry list levelEnd window wanted n = .ok wanted' := by
  obtain ⟨s, hs⟩ : ∃ s, (entryWindows list levelEnd)[n]? = some s :=
    ⟨_, getElem?_eq_getElem (by simpa using hn)⟩
  simp only [wantEntry, h.entryWindow hs, clipToWindow_eq, ok_bind]
  cases s.overlap window <;> cases wanted <;> simp

/-- What `wanted_entries` has established after its first `n` rounds. -/
theorem wantedEntries_rounds {n wanted}
    (h : (range n).foldlM (wantEntry list levelEnd window) none = .ok wanted) :
    (∀ i < n, ∃ s, entryWindow list i levelEnd = .ok s) ∧
      WantedBelow list levelEnd window n wanted := by
  induction n generalizing wanted with
  | zero =>
    cases h
    exact ⟨fun i hi => by omega, fun i hi => by omega⟩
  | succ n ih =>
    rw [foldlM_range_succ] at h
    obtain ⟨before, hp, hst⟩ := bind_eq_ok.mp h
    obtain ⟨hwin, hw⟩ := ih hp
    obtain ⟨hn, hw'⟩ := wantEntry_ok hst hw
    refine ⟨fun i hi => ?_, hw'⟩
    rcases Nat.lt_succ_iff_lt_or_eq.mp hi with hlt | rfl
    · exact hwin i hlt
    · exact hn

/-- The index range of the entries a window reaches, `none` where it reaches none. -/
def WantedIs (list : List FragmentReference) (levelEnd : Nat) (window : Span) :
    Option Span → Prop
  | none => ∀ i, ¬ Reached list levelEnd window i
  | some r =>
      r.start < r.stop ∧ r.stop ≤ list.length ∧
        ∀ i, Reached list levelEnd window i ↔ r.start ≤ i ∧ i < r.stop

theorem Reached.lt_length (h : Reached list levelEnd window i) : i < list.length := by
  obtain ⟨s, o, hs, -⟩ := h
  simpa using (List.getElem?_eq_some_iff.mp hs).1

theorem reached_iff_lt {s a b} (hs : (entryWindows list levelEnd)[i]? = some s) :
    Reached list levelEnd ⟨a, b⟩ i ↔ max s.start a < min s.stop b := by
  simp [Reached, hs, Span.overlap]

theorem Reached.exists_window {a b} (h : Reached list levelEnd ⟨a, b⟩ i) :
    ∃ s, (entryWindows list levelEnd)[i]? = some s ∧ max s.start a < min s.stop b := by
  obtain ⟨s, -, hs, -⟩ := id h
  exact ⟨s, hs, (reached_iff_lt hs).mp h⟩

theorem Reached.between {j k} (hv : ValidLevel list levelEnd) (hi : Reached list levelEnd window i)
    (hk : Reached list levelEnd window k) (hij : i ≤ j) (hjk : j ≤ k) :
    Reached list levelEnd window j := by
  obtain ⟨si, hsi, hi⟩ := hi.exists_window
  obtain ⟨sk, hsk, hk⟩ := hk.exists_window
  obtain ⟨sj, hsj⟩ : ∃ sj, (entryWindows list levelEnd)[j]? = some sj :=
    ⟨_, getElem?_eq_getElem (by
      have := (List.getElem?_eq_some_iff.mp hsk).1
      omega)⟩
  have h1 := hv.tiles.getElem?_le hij hsi hsj
  have h2 := hv.tiles.getElem?_le hjk hsj hsk
  have hj := hv.tiles.mem_bounds (mem_of_getElem? hsj)
  rw [reached_iff_lt hsj]
  omega

/-- **Wanted entries.** A list `wanted_entries` accepts is a valid level, and the
answer is exactly the entries the window reaches. -/
theorem wantedEntries_ok {list levelEnd window wanted}
    (h : wantedEntries list levelEnd window = .ok wanted) :
    ValidLevel list levelEnd ∧ WantedIs list levelEnd window wanted := by
  obtain ⟨hwin, hb⟩ := wantedEntries_rounds h
  have hv := validLevel_of_entryWindow hwin
  refine ⟨hv, ?_⟩
  cases wanted with
  | none => exact fun i hr => hb i hr.lt_length hr
  | some r =>
    obtain ⟨h1, h2, h3, h4, h5⟩ := hb
    refine ⟨h1, h2, fun i => ⟨fun hr => h5 i hr.lt_length hr, fun ⟨hle, hlt⟩ => ?_⟩⟩
    exact Reached.between hv h3 h4 hle (by omega)

theorem wantedEntries_of_valid (h : ValidLevel list levelEnd) (window : Span) :
    ∃ wanted, wantedEntries list levelEnd window = .ok wanted := by
  have hr : ∀ n ≤ list.length, ∃ wanted,
      (range n).foldlM (wantEntry list levelEnd window) none = .ok wanted := by
    intro n hn
    induction n with
    | zero => exact ⟨none, rfl⟩
    | succ n ih =>
      obtain ⟨before, hb⟩ := ih (by omega)
      obtain ⟨wanted, hw⟩ : ∃ wanted, wantEntry list levelEnd window before n = .ok wanted :=
        wantEntry_of_valid h (by omega : n < list.length) before
      refine ⟨wanted, ?_⟩
      rw [foldlM_range_succ]
      exact bind_eq_ok.mpr ⟨before, hb, hw⟩
  exact hr _ (Nat.le_refl _)

theorem WantedIs.overlaps {r} (h : WantedIs list levelEnd window (some r)) :
    List.Forall₂ (fun i o => ∃ s, (entryWindows list levelEnd)[i]? = some s ∧
        s.overlap window = some o)
      (range' r.start (r.stop - r.start))
      ((entryWindows list levelEnd).filterMap (·.overlap window)) := by
  obtain ⟨-, hle, hiff⟩ := h
  refine forall₂_range'_filterMap (by simpa using hle) fun i s hs => ?_
  rw [← hiff i]
  exact ⟨fun ⟨o, ho⟩ => ⟨s, o, hs, ho⟩, fun ⟨s', o, hs', ho⟩ => by
    rw [hs] at hs'
    cases hs'
    exact ⟨o, ho⟩⟩

theorem WantedIs.no_overlaps (h : WantedIs list levelEnd window none) :
    (entryWindows list levelEnd).filterMap (·.overlap window) = [] := by
  refine filterMap_eq_nil_iff.mpr fun s hs => ?_
  obtain ⟨i, hi⟩ := getElem?_of_mem hs
  cases ho : s.overlap window with
  | none => rfl
  | some o => exact absurd ⟨s, o, hi, ho⟩ (h i)

end Lore.Storage
