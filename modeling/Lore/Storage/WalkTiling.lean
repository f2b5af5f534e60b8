import Lore.Storage.Level

/-!
# WalkTiling — the leaves a walk sends tile the range it was asked for

Whatever the store holds, a walk that finishes with its receiver still there has
sent leaves that cover the requested range exactly, in order, without gap or
overlap. The argument follows the walk: a leaf level sends the overlaps of its
entries' windows with the read's window, a sublist that passed its coverage check
stands for exactly its entry's window, and so each intermediate level refines the
tiling its own windows give.
-/

namespace Lore.Storage

open Lore.Lib Producer List FragmentFlags

/-- The part of the output a leaf fills, counted from the start of the range. -/
def LeafReference.target (leaf : LeafReference) : Span :=
  ⟨leaf.targetOffset, leaf.targetOffset + leaf.clip.length⟩

/-- The part of the content a leaf delivers, for a read of `window`. -/
def LeafReference.placed (window : Span) (leaf : LeafReference) : Span :=
  ⟨window.start + leaf.targetOffset, window.start + leaf.targetOffset + leaf.clip.length⟩

/-- A leaf is one fragment's content at most, and its clip a non-empty part of it. -/
structure LeafReference.WellFormed (leaf : LeafReference) : Prop where
  nonempty : leaf.clip.start < leaf.clip.stop
  inside : leaf.clip.stop ≤ leaf.expectedSize
  sized : leaf.expectedSize ≤ fragmentSizeThreshold

/-- The leaf an entry with window `entry` yields for a read of `window`. -/
def leafOf (context : Context) (window : Span) (reference : FragmentReference) (entry : Span) :
    Option LeafReference :=
  (entry.overlap window).map fun o =>
    { hash := reference.hash
      targetOffset := o.start - window.start
      expectedSize := entry.length
      clip := ⟨o.start - entry.start, o.stop - entry.start⟩
      context := context }

/-- The leaves a leaf level yields for a read of `window`. -/
def levelLeaves (context : Context) (window : Span) (list : List FragmentReference)
    (levelEnd : Nat) : List LeafReference :=
  (list.zip (entryWindows list levelEnd)).filterMap fun p => leafOf context window p.1 p.2

/-! ## No abort -/

/-- The errors no walk may end with: an abort, or the end of the model's recursion. -/
def Faulty (e : StorageError) : Prop := e = .abort ∨ e = .exhausted

/-- The step does not end with a fault. -/
def NoFault {α : Type} (x : Except StorageError α) : Prop := ∀ e, x = .error e → ¬ Faulty e

section Faults

variable {host : Host} {store : ContentStore} {partition : Partition} {options : ReadOptions}
  {list : List FragmentReference} {levelEnd i : Nat} {α : Type}

theorem noFault_ok (a : α) : NoFault (.ok a) := failsOnly_ok a

theorem noFault_error {e} (hf : ¬ Faulty e) : NoFault (.error e : Except StorageError α) := by
  intro e' h
  cases h
  exact hf

theorem noFault_internal (message : String) :
    NoFault (.error (.internal message) : Except StorageError α) :=
  noFault_error (by rintro (h | h) <;> cases h)

theorem noFault_bind {β : Type} {x} {f : α → Except StorageError β} (hx : NoFault x)
    (hf : ∀ a, x = .ok a → NoFault (f a)) : NoFault (x >>= f) := failsOnly_bind hx hf

theorem noFault_indexSlice {list : List α} (h : i < list.length) : NoFault (indexSlice list i) := by
  rw [indexSlice_of_getElem? (getElem?_eq_getElem h)]
  exact noFault_ok _

theorem noFault_entryWindow (h : i < list.length) : NoFault (entryWindow list i levelEnd) := by
  refine noFault_bind (noFault_indexSlice h) fun entry _ => ?_
  split
  · exact noFault_internal _
  · simp only
    split
    · exact noFault_internal _
    · split
      · exact noFault_internal _
      · exact noFault_ok _

theorem noFault_wantedEntries (list : List FragmentReference) (levelEnd : Nat) (window : Span) :
    NoFault (wantedEntries list levelEnd window) := by
  have hr : ∀ n ≤ list.length,
      NoFault ((range n).foldlM (wantEntry list levelEnd window) none) := by
    intro n hn
    induction n with
    | zero => exact noFault_ok _
    | succ n ih =>
      rw [foldlM_range_succ]
      refine noFault_bind (ih (by omega)) fun wanted _ => ?_
      refine noFault_bind (noFault_entryWindow (by omega)) fun entry _ => ?_
      rw [clipToWindow_eq, ok_bind]
      split <;> exact noFault_ok _
  exact hr _ (Nat.le_refl _)

theorem noFault_sublistCoverage (parent : FragmentReference) (subList : List FragmentReference)
    (subContentSize : Nat) (window : Span) :
    NoFault (sublistCoverage parent subList subContentSize window) := by
  unfold sublistCoverage
  simp only
  split
  · exact noFault_internal _
  split
  · exact noFault_internal _
  next hw =>
    split
    · exact noFault_internal _
    split
    · exact noFault_internal _
    split
    · exact noFault_internal _
    split
    · exact noFault_internal _
    split
    · rw [subU64_ok (by omega)]
      exact noFault_internal _
    · exact noFault_ok _

theorem noFault_openSublist (h : i < list.length) (frag : Fragment) (buf : Bytes) :
    NoFault (openSublist list levelEnd i frag buf) := by
  unfold openSublist
  split
  · exact noFault_internal _
  · exact noFault_bind (noFault_entryWindow h) fun _ _ =>
      noFault_bind (noFault_indexSlice h) fun _ _ =>
        noFault_bind (noFault_sublistCoverage _ _ _ _) fun _ _ => noFault_ok _

theorem noFault_loadFragment (address : Address) :
    NoFault (loadFragment host store partition address options) := by
  unfold loadFragment
  split
  · exact noFault_ok _
  · split
    · exact noFault_error (by rintro (h | h) <;> cases h)
    · simp only
      split
      · exact noFault_ok _
      · exact noFault_error (by rintro (h | h) <;> cases h)
      · exact noFault_error (by rintro (h | h) <;> cases h)

variable {bad : StorageError → Prop} (hbad : ∀ e, bad e → Faulty e)
include hbad

theorem meets_internal {message} {P : List α → Prop} : Meets bad (.fail (.internal message)) P :=
  meets_fail fun hb => noFault_internal (α := Unit) message _ rfl (hbad _ hb)

theorem meets_check {β : Type} {x} {k : β → Producer StorageError α} {P} (hx : NoFault x)
    (hk : ∀ b, x = .ok b → Meets bad (k b) P) : Meets bad (require x k) P :=
  meets_require (fun e he hb => hx e he (hbad e hb)) hk

end Faults

/-! ## The leaf level -/

/-- A level in order, of entries a leaf can fill. -/
structure LeafLevel (list : List FragmentReference) (levelEnd : Nat) : Prop where
  valid : ValidLevel list levelEnd
  sized : ∀ s ∈ entryWindows list levelEnd, s.length ≤ fragmentSizeThreshold

/-- What a finished leaf loop says: it has checked the entries from `k` on, and sent what they
yield. -/
def YieldsFrom (context : Context) (window : Span) (list : List FragmentReference)
    (levelEnd k : Nat) (xs : List LeafReference) : Prop :=
  (∀ i, k ≤ i → i < list.length →
    ∃ s, entryWindow list i levelEnd = .ok s ∧ s.length ≤ fragmentSizeThreshold)
  ∧ xs = levelLeaves context window (list.drop k) levelEnd

section LeafLevel

variable {context : Context} {list : List FragmentReference} {contentEnd : Nat} {window : Span}

theorem drop_entryWindows (list : List FragmentReference) (contentEnd k : Nat) :
    (entryWindows list contentEnd).drop k = entryWindows (list.drop k) contentEnd := by
  induction list generalizing k with
  | nil => simp [entryWindows]
  | cons r rest ih =>
    cases k with
    | zero => rfl
    | succ k => simp [entryWindows, ih]

theorem levelLeaves_drop {k r s} (hr : list[k]? = some r)
    (hs : (entryWindows list contentEnd)[k]? = some s) :
    levelLeaves context window (list.drop k) contentEnd
      = (leafOf context window r s).toList
        ++ levelLeaves context window (list.drop (k + 1)) contentEnd := by
  obtain ⟨hk, rfl⟩ := List.getElem?_eq_some_iff.mp hr
  obtain ⟨hk', rfl⟩ := List.getElem?_eq_some_iff.mp hs
  unfold levelLeaves
  rw [← drop_entryWindows, drop_eq_getElem_cons hk, drop_eq_getElem_cons hk',
    zip_cons_cons, drop_entryWindows, filterMap_cons]
  cases leafOf context window list[k] (entryWindows list contentEnd)[k] <;> rfl

/-- One round of the leaf loop, written with the leaf the entry yields. -/
theorem walkLeafEntries_cons {k rest r s} (hr : list[k]? = some r)
    (hs : entryWindow list k contentEnd = .ok s) (hend : s.stop < u64Limit) :
    walkLeafEntries context list contentEnd window (k :: rest) =
      if s.length > fragmentSizeThreshold then
        fail (.internal
          s!"fragment list chunk size {s.length} exceeds FRAGMENT_SIZE_THRESHOLD {fragmentSizeThreshold}")
      else
        match leafOf context window r s with
        | none => walkLeafEntries context list contentEnd window rest
        | some leaf =>
          unlessClosed (andThen (send leaf)
            (walkLeafEntries context list contentEnd window rest)) := by
  have hlt : s.start < s.stop := (entryWindow_eq_ok.mp hs).choose_spec.2.2.2
  rw [walkLeafEntries, indexSlice_of_getElem? hr, hs]
  simp only [require_ok, subU64_ok (Nat.le_of_lt hlt), clipToWindow_eq]
  unfold leafOf Span.length
  cases ho : s.overlap window with
  | none => rfl
  | some o =>
    obtain ⟨h1, h2, h3⟩ := Span.overlap_eq_some ho
    have hadd : s.start + (o.start - s.start) = o.start := by omega
    simp [hadd, addU64_ok (show s.start + (o.start - s.start) < u64Limit
      by omega), subU64_ok (show window.start ≤ o.start by omega)]

theorem entryWindow_stop_lt {k s} (hend : contentEnd < u64Limit)
    (hs : entryWindow list k contentEnd = .ok s) : s.stop < u64Limit := by
  obtain ⟨r, -, -, hget, -⟩ := entryWindow_eq_ok.mp hs
  rw [getElem?_entryWindows] at hget
  obtain ⟨_, -, rfl⟩ := Option.map_eq_some_iff.mp hget
  show nextOffset (list.drop (k + 1)) contentEnd < u64Limit
  cases list.drop (k + 1) with
  | nil => exact hend
  | cons next _ => exact Nat.lt_of_lt_of_le next.offsetContent.toNat_lt (by decide)

theorem yieldsFrom_entry {k r s} (hr : list[k]? = some r)
    (hs : entryWindow list k contentEnd = .ok s) (hsi : s.length ≤ fragmentSizeThreshold) (xs)
    (h : YieldsFrom context window list contentEnd (k + 1) xs) :
    YieldsFrom context window list contentEnd k ((leafOf context window r s).toList ++ xs) := by
  have hget := (entryWindow_eq_ok.mp hs).choose_spec.2.2.1
  obtain ⟨hwin, rfl⟩ := h
  refine ⟨fun i h1 h2 => ?_, (levelLeaves_drop hr hget).symm⟩
  rcases Nat.lt_or_ge k i with hlt | hge
  · exact hwin i hlt h2
  · obtain rfl : i = k := by omega
    exact ⟨s, hs, hsi⟩

/-- The loop of a leaf level sends what the level yields. It fails only by the checks of its
entries, and not at all where the level is in order. -/
theorem meets_walkLeafEntries {bad} (hbad : (∀ e, bad e → Faulty e) ∨ LeafLevel list contentEnd)
    (hend : contentEnd < u64Limit) {m k} (hk : k + m = list.length) :
    Meets bad (walkLeafEntries context list contentEnd window (range' k m))
      (YieldsFrom context window list contentEnd k) := by
  induction m generalizing k with
  | zero =>
    refine meets_done ⟨fun i h1 h2 => by omega, ?_⟩
    rw [drop_eq_nil_of_le (by omega)]
    rfl
  | succ m ih =>
    rw [range'_succ]
    obtain ⟨r, hr⟩ : ∃ r, list[k]? = some r := ⟨_, getElem?_eq_getElem (by omega)⟩
    cases hs : entryWindow list k contentEnd with
    | error e =>
      rw [walkLeafEntries, indexSlice_of_getElem? hr, hs]
      refine meets_fail fun hb => ?_
      rcases hbad with hbad | h
      · exact noFault_entryWindow (by omega) e hs (hbad e hb)
      · rw [h.valid.entryWindow (getElem?_eq_getElem (by simp; omega))] at hs
        cases hs
    | ok s =>
      rw [walkLeafEntries_cons hr hs (entryWindow_stop_lt hend hs)]
      split
      · refine hbad.elim (fun hbad => meets_internal hbad) fun h => ?_
        have := h.sized s (mem_of_getElem? (entryWindow_eq_ok.mp hs).choose_spec.2.2.1)
        omega
      · next hsi =>
          have hall := @yieldsFrom_entry context _ _ window _ _ _ hr hs (Nat.le_of_not_lt hsi)
          have hre := ih (k := k + 1) (by omega)
          cases hl : leafOf context window r s with
          | none =>
            rw [hl] at hall
            exact hre.mono hall
          | some leaf =>
            rw [hl] at hall
            refine meets_unlessClosed (meets_andThen (P := (· = [leaf])) (meets_send rfl) hre ?_)
            rintro _ ys rfl hys
            exact hall ys hys

variable {totalContentSize baseOffset : Nat} (he : baseOffset + totalContentSize = contentEnd)
include he

theorem meets_walkLeafLevel {bad}
    (hbad : (∀ e, bad e → Faulty e) ∨ contentEnd < u64Limit ∧ LeafLevel list contentEnd) :
    Meets bad (walkLeafLevel context list totalContentSize baseOffset window) (fun xs =>
      LeafLevel list contentEnd ∧ xs = levelLeaves context window list contentEnd) := by
  subst he
  unfold walkLeafLevel
  cases hadd : checkedAdd baseOffset totalContentSize with
  | none =>
    refine hbad.elim (fun hbad => meets_internal hbad) fun h => ?_
    rw [checkedAdd, if_pos h.1] at hadd
    cases hadd
  | some contentEnd =>
    obtain ⟨rfl, hlt⟩ := checkedAdd_eq_some hadd
    rw [range_eq_range']
    refine (meets_walkLeafEntries (hbad.imp_right (·.2)) hlt (Nat.zero_add _)).mono ?_
    rintro xs ⟨hwin, rfl⟩
    have hv : ValidLevel list (baseOffset + totalContentSize) :=
      validLevel_of_entryWindow fun i hi => (hwin i (Nat.zero_le i) hi).imp fun _ h => h.1
    refine ⟨⟨hv, fun t ht => ?_⟩, rfl⟩
    obtain ⟨i, hi⟩ := getElem?_of_mem ht
    have hilt := (List.getElem?_eq_some_iff.mp hi).1
    obtain ⟨s, hs, hle⟩ := hwin i (Nat.zero_le i) (by simpa using hilt)
    rw [hv.entryWindow hi] at hs
    cases hs
    exact hle

theorem emits_walkLeafLevel (hlt : contentEnd < u64Limit) (h : LeafLevel list contentEnd) :
    Emits (walkLeafLevel context list totalContentSize baseOffset window)
      (levelLeaves context window list contentEnd) :=
  Meets.emits ((meets_walkLeafLevel he (.inr ⟨hlt, h⟩)).mono fun _ hy => hy.2)

end LeafLevel

/-! ## Coverage of a window -/

/-- The leaves cover the part of `lo ≤ i < hi` that the window reaches. -/
structure Covers (window : Span) (lo hi : Nat) (leaves : List LeafReference) : Prop where
  tiles : max lo window.start < min hi window.stop →
    Tiles (max lo window.start) (leaves.map (·.placed window)) (min hi window.stop)
  nothing : min hi window.stop ≤ max lo window.start → leaves = []
  wellFormed : ∀ leaf ∈ leaves, leaf.WellFormed

variable {context : Context} {window : Span} {list : List FragmentReference} {levelEnd : Nat}

theorem leafOf_placed {entry r} :
    (leafOf context window r entry).map (·.placed window) = entry.overlap window := by
  unfold leafOf
  cases ho : entry.overlap window with
  | none => rfl
  | some o =>
    obtain ⟨h1, h2, h3⟩ := Span.overlap_eq_some ho
    simp only [Option.map_some, LeafReference.placed, Span.length]
    have e1 : window.start + (o.start - window.start) = o.start := by omega
    have e2 : o.start + (o.stop - entry.start - (o.start - entry.start)) = o.stop := by omega
    rw [e1, e2]

theorem levelLeaves_placed (context : Context) (window : Span) (list : List FragmentReference)
    (levelEnd : Nat) :
    (levelLeaves context window list levelEnd).map (·.placed window)
      = (entryWindows list levelEnd).filterMap (·.overlap window) := by
  unfold levelLeaves
  rw [map_filterMap]
  simp only [leafOf_placed]
  induction list with
  | nil => rfl
  | cons r rest ih =>
    simp [entryWindows, filterMap_cons, ih]

namespace LeafLevel

variable (h : LeafLevel list levelEnd)
include h

theorem wellFormed {leaf} (hl : leaf ∈ levelLeaves context window list levelEnd) :
    leaf.WellFormed := by
  obtain ⟨⟨r, s⟩, hmem, hof⟩ := mem_filterMap.mp hl
  have hs := h.sized s (of_mem_zip hmem).2
  obtain ⟨o, ho, rfl⟩ := Option.map_eq_some_iff.mp hof
  obtain ⟨h1, h2, h3⟩ := Span.overlap_eq_some (s := s) ho
  constructor
  · show o.start - s.start < o.stop - s.start
    omega
  · show o.stop - s.start ≤ s.stop - s.start
    omega
  · exact hs

theorem covers : Covers window (nextOffset list levelEnd) levelEnd
    (levelLeaves context window list levelEnd) := by
  obtain ⟨ht, hnil⟩ := h.valid.tiles.overlap window
  refine ⟨?_, ?_, fun leaf => h.wellFormed⟩
  · rw [levelLeaves_placed]
    exact ht
  · intro h
    have := hnil h
    rw [← levelLeaves_placed context] at this
    exact map_eq_nil_iff.mp this

end LeafLevel

theorem WantedIs.covers {window r list levelEnd parts} (hv : ValidLevel list levelEnd)
    (hw : WantedIs list levelEnd window (some r))
    (hp : List.Forall₂ (fun i xs => ∀ s, (entryWindows list levelEnd)[i]? = some s →
        Covers window s.start s.stop xs)
      (range' r.start (r.stop - r.start)) parts) :
    Covers window (nextOffset list levelEnd) levelEnd parts.flatten := by
  have hj : List.Forall₂ (fun (o : Span) xs =>
      Tiles o.start (map (LeafReference.placed window) xs) o.stop ∧
        ∀ leaf ∈ xs, leaf.WellFormed)
      ((entryWindows list levelEnd).filterMap (·.overlap window)) parts := by
    refine Forall₂.join hw.overlaps hp ?_
    rintro i - o xs ⟨s, hs, ho⟩ hcov
    obtain ⟨h1, h2, h3⟩ := Span.overlap_eq_some ho
    have hc := hcov s hs
    refine ⟨?_, hc.wellFormed⟩
    rw [h1, h2]
    exact hc.tiles (by omega)
  obtain ⟨ht, hnil⟩ := hv.tiles.overlap window
  refine ⟨fun hlt => ?_, fun hle => ?_, ?_⟩
  · rw [map_flatten]
    exact (ht hlt).refine (forall₂_map_right_iff.mpr (hj.imp fun _ _ h => h.1))
  · have hsp := hnil hle
    rw [hsp] at hj
    cases hj
    rfl
  · intro leaf hl
    obtain ⟨xs, hxs, hmem⟩ := mem_flatten.mp hl
    obtain ⟨i, hi, rfl⟩ := getElem_of_mem hxs
    have hlen := hj.length_eq
    exact (hj.get (by omega : i < _) hi).2 leaf hmem

/-! ## Sublists -/

theorem sublistCoverage_ok {parent subList subContentSize}
    (h : sublistCoverage parent subList subContentSize window = .ok ()) :
    ∃ head rest, subList = head :: rest ∧ head.offsetContent.toNat = window.start ∧
      window.start + subContentSize = window.stop ∧ window.stop < u64Limit := by
  unfold sublistCoverage at h
  cases subList with
  | nil =>
    simp only at h
    split_ifs at h
  | cons head rest =>
    simp only at h
    split_ifs at h with h1 h2 h3 h4
    cases hadd : checkedAdd parent.offsetContent.toNat subContentSize with
    | none => simp [hadd] at h
    | some sum =>
      obtain ⟨rfl, hlt⟩ := checkedAdd_eq_some hadd
      simp only [hadd] at h
      split_ifs at h with h5
      · obtain ⟨_, -, herr⟩ := bind_eq_ok.mp h
        cases herr
      · exact ⟨head, rest, rfl, by omega, by omega, by omega⟩

theorem openSublist_ok {i subFrag subBuf sub}
    (h : openSublist list levelEnd i subFrag subBuf = .ok sub) :
    sub.1 = asReferences subBuf ∧ sub.2.1 = subFrag.sizeContent.toNat ∧
      entryWindow list i levelEnd = .ok sub.2.2 ∧
      (∃ head rest, sub.1 = head :: rest ∧ head.offsetContent.toNat = sub.2.2.start) ∧
      sub.2.2.start + sub.2.1 = sub.2.2.stop ∧ sub.2.2.stop < u64Limit := by
  unfold openSublist at h
  split at h
  · cases h
  · obtain ⟨entry, he, h⟩ := bind_eq_ok.mp h
    obtain ⟨parent, -, h⟩ := bind_eq_ok.mp h
    obtain ⟨⟨⟩, hcov, h⟩ := bind_eq_ok.mp h
    cases h
    obtain ⟨head, rest, hsub, hoff, hsum, hlt⟩ := sublistCoverage_ok hcov
    exact ⟨rfl, rfl, he, ⟨head, rest, hsub, hoff⟩, hsum, hlt⟩

/-! ## The intermediate level -/

section Levels

variable {host : Host} {store : ContentStore} {partition : Partition} {context : Context}
  {options : ReadOptions} {bad : StorageError → Prop}

/-- A finished intermediate level walked every wanted child in turn. `R` is what
the walk of one child's list establishes. -/
theorem meets_walkIntermediateLevel {recur list levelEnd depth window wanted first reference}
    {R : Nat → List LeafReference → Prop} (hbad : ∀ e, bad e → Faulty e)
    (hw : wanted.start < wanted.stop) (hle : wanted.stop ≤ list.length)
    (href : list[wanted.start]? = some reference)
    (hlo : loadFragment host store partition ⟨reference.hash, context⟩ options = .ok first)
    (hc : ∀ i r loaded sub leaves, wanted.start ≤ i → i < wanted.stop → list[i]? = some r →
      loadFragment host store partition ⟨r.hash, context⟩ options = .ok loaded →
      openSublist list levelEnd i loaded.1 loaded.2 = .ok sub →
      Meets bad (walkSublist context recur leaves sub.1 sub.2.1 window depth) (R i)) :
    Meets bad
      (walkIntermediateLevel host store partition context options recur list levelEnd window
        wanted first.1 first.2 depth)
      (fun xs => ∃ parts, List.Forall₂ R
        (range' wanted.start (wanted.stop - wanted.start)) parts ∧ xs = parts.flatten) := by
  refine meets_check hbad (noFault_openSublist (by omega) _ _) fun sub hsub =>
    meets_check hbad (noFault_wantedEntries _ _ _) fun peek hp => ?_
  obtain ⟨-, hpI⟩ := wantedEntries_ok hp
  cases peek with
  | none => exact meets_internal hbad
  | some peek =>
    obtain ⟨hplt, hple, -⟩ := hpI
    refine meets_check hbad (noFault_indexSlice (by omega)) fun _ _ =>
      meets_check hbad (noFault_loadFragment _) fun peeked _ => ?_
    refine meets_andThen (hc _ _ first sub _ (Nat.le_refl _) hw href hlo hsub)
      (meets_forEachOpen (R := R) fun i hi => ?_) ?_
    · obtain ⟨h1, h2⟩ := mem_range'_1.mp hi
      refine meets_check hbad (noFault_indexSlice (by omega)) fun r hr =>
        meets_check hbad (noFault_loadFragment _) fun loaded hl =>
          meets_check hbad (noFault_openSublist (by omega) _ _) fun sub' hsub' => ?_
      exact hc i r loaded sub' _ (by omega) (by omega) (indexSlice_eq_ok.mp hr) hl hsub'
    · rintro xs ys hxs ⟨parts, hp, rfl⟩
      refine ⟨xs :: parts, ?_, rfl⟩
      rw [show wanted.stop - wanted.start = (wanted.stop - (wanted.start + 1)) + 1 by omega]
      exact List.Forall₂.cons hxs hp

/-- A finished walk of a level covers the content from its first offset on. -/
def LevelCovers (list : List FragmentReference) (totalContentSize : Nat) (window : Span)
    (leaves : List LeafReference) : Prop :=
  ∃ head rest, list = head :: rest ∧
    Covers window head.offsetContent.toNat (head.offsetContent.toNat + totalContentSize) leaves

variable {recur : LevelWalk} {list : List FragmentReference} {levelEnd i depth : Nat}

theorem meets_walkSublist {window frag buf leaves sub} (hbad : ∀ e, bad e → Faulty e)
    (hr : ∀ l total w, Meets bad (recur l total w (depth + 1)) (LevelCovers l total w))
    (hsub : openSublist list levelEnd i frag buf = .ok sub) :
    Meets bad (walkSublist context recur leaves sub.1 sub.2.1 window depth)
      (fun xs => ∀ s, (entryWindows list levelEnd)[i]? = some s →
        Covers window s.start s.stop xs) := by
  obtain ⟨-, -, he, ⟨head, rest, hl, hoff⟩, hsum, -⟩ := openSublist_ok hsub
  obtain ⟨_, -, -, hget, -⟩ := entryWindow_eq_ok.mp he
  rw [hget, hl]
  unfold walkSublist
  split
  · refine meets_check hbad (noFault_indexSlice (Nat.succ_pos _)) fun first hf => ?_
    cases indexSlice_eq_ok.mp hf
    refine (meets_walkLeafLevel (hoff ▸ hsum) (.inl hbad)).mono ?_
    rintro xs ⟨hle, rfl⟩ s hs
    cases hs
    have hcov : Covers window _ _ (levelLeaves context window _ _) := hle.covers
    rwa [nextOffset_cons, hoff] at hcov
  · refine (hr _ _ _).mono ?_
    rintro xs ⟨_, _, hc, hcov⟩ s hs
    cases hs
    cases hc
    rwa [hoff, hsum] at hcov

/-- **Coverage of a level.** A finished walk of a level covers exactly the content
the level stands for, as far as the window reaches it. A walk neither aborts nor, given
one call per depth, runs out of calls. -/
theorem meets_walkFragmentLevel {fuel list totalContentSize window depth}
    (hbad : ∀ e, bad e → Faulty e ∧ 0 < fuel ∧ maxFragmentTreeDepth + 1 < fuel + depth) :
    Meets bad (walkFragmentLevel host store partition context options fuel list
      totalContentSize window depth) (LevelCovers list totalContentSize window) := by
  induction fuel generalizing list totalContentSize window depth with
  | zero => exact meets_fail fun hb => Nat.lt_irrefl _ (hbad _ hb).2.1
  | succ fuel ih =>
    have hf := fun e hb => (hbad e hb).1
    refine meets_unlessClosed ?_
    split
    · exact meets_internal hf
    cases list with
    | nil => exact meets_internal hf
    | cons head rest =>
      simp only
      cases hadd : checkedAdd head.offsetContent.toNat totalContentSize with
      | none => exact meets_internal hf
      | some levelEnd =>
        obtain ⟨rfl, hlt⟩ := checkedAdd_eq_some hadd
        refine meets_check hf (noFault_wantedEntries _ _ _) fun wanted hwa => ?_
        obtain ⟨hv, hw⟩ := wantedEntries_ok hwa
        cases wanted with
        | none =>
          refine meets_done ⟨head, rest, rfl, fun hlt => ?_, fun _ => rfl, by simp⟩
          have hn := (hv.tiles.overlap window).1 hlt
          rw [hw.no_overlaps] at hn
          exact hn
        | some wanted =>
          have hle := Nat.lt_of_lt_of_le hw.1 hw.2.1
          refine meets_check hf (noFault_indexSlice hle) fun reference href =>
            meets_check hf (noFault_loadFragment _) fun first hl => ?_
          split
          · -- each child covers its own window, so together they cover the level
            refine (meets_walkIntermediateLevel hf hw.1 hw.2.1 (indexSlice_eq_ok.mp href) hl
              fun i r loaded sub leaves _ _ _ _ hsub => meets_walkSublist hf (fun _ _ _ => ih ?_)
                hsub).mono ?_
            · intro e hb
              have := (hbad e hb).2
              exact ⟨hf e hb, by omega, by omega⟩
            · rintro xs ⟨parts, hp, rfl⟩
              exact ⟨head, rest, rfl, hw.covers hv hp⟩
          · refine (meets_walkLeafLevel rfl (.inl hf)).mono ?_
            rintro xs ⟨hle, rfl⟩
            exact ⟨head, rest, rfl, hle.covers⟩

/-! ## A bounded recursion -/

theorem walkIntermediateLevel_congr {recur'}
    (h : ∀ l total w, recur l total w (depth + 1) = recur' l total w (depth + 1))
    (list : List FragmentReference) (levelEnd : Nat) (window wanted : Span) (frag : Fragment)
    (buf : Bytes) :
    walkIntermediateLevel host store partition context options recur list levelEnd window
        wanted frag buf depth
      = walkIntermediateLevel host store partition context options recur' list levelEnd window
        wanted frag buf depth := by
  have hsub : ∀ leaves l total w, walkSublist context recur leaves l total w depth
      = walkSublist context recur' leaves l total w depth := by
    intro leaves l total w
    simp only [walkSublist, h]
  have hc : ∀ leaves,
      walkChild host store partition context options recur leaves list levelEnd window depth
        = walkChild host store partition context options recur' leaves list levelEnd window
          depth := by
    intro leaves
    funext i
    simp only [walkChild, hsub]
  simp only [walkIntermediateLevel, hsub, hc]

/-- Below the first refused depth no call is made: more calls change nothing. -/
theorem walkFragmentLevel_fuel {fuel fuel' list totalContentSize window depth}
    (h : maxFragmentTreeDepth < fuel + depth) (h' : maxFragmentTreeDepth < fuel' + depth) :
    walkFragmentLevel host store partition context options (fuel + 1) list totalContentSize
        window depth
      = walkFragmentLevel host store partition context options (fuel' + 1) list
        totalContentSize window depth := by
  induction fuel generalizing fuel' list totalContentSize window depth with
  | zero =>
    simp only [walkFragmentLevel, if_pos (show depth > maxFragmentTreeDepth by omega)]
  | succ fuel ih =>
    by_cases hd : depth > maxFragmentTreeDepth
    · simp only [walkFragmentLevel, if_pos hd]
    · obtain ⟨fuel', rfl⟩ : ∃ k, fuel' = k + 1 := ⟨fuel' - 1, by omega⟩
      have hc : ∀ list levelEnd window wanted frag buf,
          walkIntermediateLevel host store partition context options
              (walkFragmentLevel host store partition context options (fuel + 1)) list
              levelEnd window wanted frag buf depth
            = walkIntermediateLevel host store partition context options
              (walkFragmentLevel host store partition context options (fuel' + 1)) list
              levelEnd window wanted frag buf depth :=
        walkIntermediateLevel_congr fun l total w => ih (by omega) (by omega)
      rw [walkFragmentLevel.eq_def, walkFragmentLevel.eq_def _ _ _ _ _ (fuel' + 1 + 1)]
      simp only [hc]

end Levels

/-! ## The whole tree -/

variable {store : ContentStore} {partition : Partition} {context : Context} {options : ReadOptions}
  {fragment : Fragment} {sourceBuffer : Bytes}

theorem meets_walkFragmentTree {host range} (ho : range.start ≤ range.stop)
    (hi : range.stop ≤ fragment.sizeContent.toNat) :
    Meets Faulty
      (walkFragmentTree host store partition context options fragment sourceBuffer range)
      (fun leaves => Tiles 0 (leaves.map (·.target)) range.length ∧
        ∀ leaf ∈ leaves, leaf.WellFormed) := by
  have hbad : ∀ e, Faulty e → Faulty e := fun _ => id
  unfold walkFragmentTree walkFragmentTreeWith
  split
  · exact meets_internal hbad
  split
  · exact meets_internal hbad
  split
  · next head rest _ _ _ start stop hst hsto =>
      obtain ⟨rfl, -⟩ := checkedAdd_eq_some hst
      obtain ⟨rfl, -⟩ := checkedAdd_eq_some hsto
      refine (meets_walkFragmentLevel fun e he => ⟨he, by omega, by omega⟩).mono ?_
      rintro leaves ⟨_, _, hc, hcov⟩
      cases hc
      refine ⟨?_, hcov.wellFormed⟩
      obtain ⟨ht, hnil, -⟩ := hcov
      simp only at ht hnil
      by_cases he : range.start = range.stop
      · rw [hnil (by omega)]
        exact show 0 = range.stop - range.start by omega
      · have h := ht (by omega)
        rw [show max head.offsetContent.toNat (head.offsetContent.toNat + range.start)
            = head.offsetContent.toNat + range.start + 0 by omega,
          show min (head.offsetContent.toNat + fragment.sizeContent.toNat)
              (head.offsetContent.toNat + range.stop)
            = head.offsetContent.toNat + range.start + range.length by
              unfold Span.length; omega] at h
        refine Tiles.of_shift (c := head.offsetContent.toNat + range.start) ?_
        rw [map_map, map_congr_left (g := fun leaf => leaf.placed
          ⟨head.offsetContent.toNat + range.start, head.offsetContent.toNat + range.stop⟩)
          fun leaf _ => by simp [LeafReference.placed, LeafReference.target, Nat.add_assoc]]
        exact h
  · exact meets_internal hbad

theorem walkFragmentTreeWith_fuel {host fuel range} (hf : maxFragmentTreeDepth + 2 ≤ fuel) :
    walkFragmentTreeWith host store partition context options fuel fragment sourceBuffer range
      = walkFragmentTree host store partition context options fragment sourceBuffer range := by
  obtain ⟨fuel, rfl⟩ : ∃ k, fuel = k + 1 := ⟨fuel - 1, by omega⟩
  unfold walkFragmentTree walkFragmentTreeWith
  have hl : ∀ list total window,
      walkFragmentLevel host store partition context options (fuel + 1) list total window 0
        = walkFragmentLevel host store partition context options (maxFragmentTreeDepth + 1 + 1)
          list total window 0 := fun list total window =>
    walkFragmentLevel_fuel (by omega) (by omega)
  simp only [hl]

/-- **The leaves of a walk tile its range.** Whatever the store holds, and whenever
the receiver leaves: a walk of `range` that ends well with its receiver still there
has sent leaves that fill the range from offset 0 to its length, one after the
other, each a non-empty clip of one fragment's content. No walk aborts in its
arithmetic or its indexing, and none calls itself below the first refused depth, so
a bound of `maxFragmentTreeDepth + 2` nested calls is never felt. -/
theorem walkFragmentTree_tiles (host : Host) (store : ContentStore) (partition : Partition)
    (context : Context) (options : ReadOptions) (fragment : Fragment) (sourceBuffer : Bytes)
    (range : Span) (hordered : range.start ≤ range.stop)
    (hinside : range.stop ≤ fragment.sizeContent.toNat) :
    (∀ gone outbox outbox',
      walkFragmentTree host store partition context options fragment sourceBuffer range gone
        outbox = (.ok (), outbox') →
      outbox'.isClosed gone = false →
      ∃ leaves, outbox'.sent = outbox.sent ++ leaves ∧
        Tiles 0 (leaves.map (·.target)) range.length ∧
        (leaves.map (·.clip.length)).sum = range.length ∧
        ∀ leaf ∈ leaves, leaf.clip.start < leaf.clip.stop ∧
          leaf.clip.stop ≤ leaf.expectedSize ∧ 1 ≤ leaf.expectedSize ∧
          leaf.expectedSize ≤ fragmentSizeThreshold) ∧
    (∀ gone outbox, (walkFragmentTree host store partition context options fragment
        sourceBuffer range gone outbox).1 ≠ .error .abort) ∧
    (∀ gone outbox, (walkFragmentTree host store partition context options fragment
        sourceBuffer range gone outbox).1 ≠ .error .exhausted) ∧
    (∀ fuel, maxFragmentTreeDepth + 2 ≤ fuel →
      walkFragmentTreeWith host store partition context options fuel fragment sourceBuffer range
        = walkFragmentTree host store partition context options fragment sourceBuffer range) := by
  have hm : Meets Faulty _ _ := @meets_walkFragmentTree store partition context options fragment
    sourceBuffer host range hordered hinside
  refine ⟨fun gone outbox outbox' hrun ho => ?_, fun gone outbox h => ?_,
    fun gone outbox h => ?_, fun fuel hf => ?_⟩
  · obtain ⟨-, leaves, hse, ht, hwf⟩ := hm.sends gone outbox outbox' hrun ho
    refine ⟨leaves, hse, ht, ?_, fun leaf hl => ?_⟩
    · have hsum := ht.sum_length
      rw [map_map] at hsum
      rw [← Nat.sub_zero range.length, ← hsum]
      congr 1
      exact map_congr_left fun leaf _ => by
        simp [LeafReference.target, Span.length]
    · obtain ⟨h1, h2, h3⟩ := hwf leaf hl
      exact ⟨h1, h2, by omega, h3⟩
  · exact hm.avoids gone outbox _ h (.inl rfl)
  · exact hm.avoids gone outbox _ h (.inr rfl)
  · exact walkFragmentTreeWith_fuel hf

/-- Two leaves, of three and of five bytes. -/
def pairStore : ContentStore := fun _ address =>
  if address.hash = 1#256 then some (⟨0#32, 3, 3⟩, [1, 2, 3])
  else if address.hash = 2#256 then some (⟨0#32, 5, 5⟩, [4, 5, 6, 7, 8])
  else none

/-- The list of the two leaves. -/
def pairList : Bytes := listBytes [⟨1#256, 0⟩, ⟨2#256, 3⟩]

theorem walkFragmentTree_tiles_pair :
    ∃ outbox leaves,
      walkFragmentTree plainHost pairStore 0 0 .default
          ⟨payloadFragmented, 80, 8⟩ pairList ⟨1, 7⟩ none .fresh
        = (.ok (), outbox) ∧
        outbox.sent = leaves ∧ leaves.length = 2 ∧ Tiles 0 (leaves.map (·.target)) 6 := by
  have hrun : (walkFragmentTree plainHost pairStore 0 0 .default
      ⟨payloadFragmented, 80, 8⟩ pairList ⟨1, 7⟩ none .fresh).1 = .ok () := by
    rfl
  obtain ⟨leaves, hse, ht, -, -⟩ := (walkFragmentTree_tiles plainHost pairStore 0 0 .default
      ⟨payloadFragmented, 80, 8⟩ pairList ⟨1, 7⟩ (by decide) (by decide)).1
      none .fresh _ (Prod.ext hrun rfl) rfl
  exact ⟨_, leaves, Prod.ext hrun rfl, hse, (congrArg length hse).symm, ht⟩

end Lore.Storage
