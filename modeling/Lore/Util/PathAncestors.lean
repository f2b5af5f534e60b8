import Mathlib.Data.Char
import Mathlib.Data.List.Lex
import Mathlib.Data.List.Nodup

/-!
# PathAncestors — the ancestors of a list of paths

`expand_path_ancestors` yields the paths to be staged above and at a list of paths. It walks the
paths from the last to the first in byte order, and skips what is a prefix of the path it yielded
last.
-/

namespace Lore.Util

open List

/-- A component of a path. -/
structure Name where
  text : List Char
  nonempty : text ≠ []
  separated : '/' ∉ text
deriving DecidableEq

/-- `RelativePath` and `RelativePathBuf`, which hold the names in their clean form: joined by
single separators, none at either end. -/
abbrev RelativePath := List Name

namespace RelativePath

/-- The names, each followed by a separator. -/
def terminated (path : RelativePath) : List Char := path.flatMap fun name => name.text ++ ['/']

def asStr (path : RelativePath) : List Char := path.terminated.dropLast

end RelativePath

/-- `overlaps_impl`. -/
def overlapsImpl (lhs rhs : List Char) : Bool :=
  if lhs.isEmpty || rhs.isEmpty then true
  else
    let shortest := min lhs.length rhs.length
    lhs.take shortest == rhs.take shortest
      && (lhs[shortest]? == some '/' || rhs[shortest]? == some '/' || lhs.length == rhs.length)

/-- The walk of `next` through the components `remaining` of one path, below those in `built`: the
paths it yields, and the path yielded last. -/
def expandPath (lastYielded built : RelativePath) :
    (remaining : RelativePath) → List RelativePath × RelativePath
  | [] => ([], lastYielded)
  | component :: remaining =>
    let built := built ++ [component]
    if overlapsImpl lastYielded.asStr built.asStr
        && decide (built.asStr.length ≤ lastYielded.asStr.length) then
      expandPath lastYielded built remaining
    else
      let (yielded, lastYielded) := expandPath built built remaining
      (built :: yielded, lastYielded)

def expandPaths (lastYielded : RelativePath) : (paths : List RelativePath) → List RelativePath
  | [] => []
  | path :: paths =>
    let (yielded, lastYielded) := expandPath lastYielded [] path
    yielded ++ expandPaths lastYielded paths

/-- `expand_path_ancestors`: what the iterator yields. -/
def expandPathAncestors (paths : List RelativePath) : List RelativePath :=
  expandPaths [] (paths.mergeSort (·.asStr ≤ ·.asStr)).reverse

/-! ## Prefixes of paths and of their strings -/

theorem Name.eq_of_prefix {a b : Name} {s t : List Char}
    (h : a.text ++ '/' :: s <+: b.text ++ '/' :: t) : a = b ∧ s <+: t := by
  have hname : ∀ (name : Name) (rest : List Char),
      (name.text ++ '/' :: rest).takeWhile (· ≠ '/') = name.text := by
    intro name rest
    rw [takeWhile_append_of_pos]
    · simp
    · intro c hc
      exact decide_eq_true fun heq => name.separated (heq ▸ hc)
  obtain ⟨u, hu⟩ := h
  have htext : a.text = b.text := by
    rw [← hname a (s ++ u), ← hname b t, ← hu, append_assoc, cons_append]
  obtain rfl : a = b := by
    cases a
    cases b
    simpa using htext
  exact ⟨rfl, u, by simpa using hu⟩

namespace RelativePath

variable {p q : RelativePath}

theorem terminated_prefix : p.terminated <+: q.terminated ↔ p <+: q := by
  induction p generalizing q with
  | nil => exact iff_of_true nil_prefix nil_prefix
  | cons a p ih =>
    cases q with
    | nil => simp [terminated]
    | cons b q =>
      rw [cons_prefix_cons, ← ih]
      simp only [terminated, flatMap_cons, append_assoc]
      refine ⟨ Name.eq_of_prefix, ?_⟩
      rintro ⟨rfl, h⟩
      exact (prefix_append_right_inj _).mpr (cons_prefix_cons.mpr ⟨rfl, h⟩)

theorem asStr_terminated (h : p ≠ []) : p.asStr ++ ['/'] = p.terminated := by
  obtain ⟨p, a, rfl⟩ := eq_nil_or_concat p |>.resolve_left h
  simp [asStr, terminated]

theorem asStr_ne_nil (h : p ≠ []) : p.asStr ≠ [] := by
  intro hnil
  obtain ⟨name, rest, rfl⟩ := exists_cons_of_ne_nil h
  obtain ⟨c, text, htext⟩ := exists_cons_of_ne_nil name.nonempty
  simpa [hnil, terminated, htext] using asStr_terminated h

theorem asStr_injective : Function.Injective asStr := by
  intro p q heq
  by_cases hp : p = []
  · subst hp
    by_contra hq
    exact asStr_ne_nil (Ne.symm hq) heq.symm
  · have hq : q ≠ [] := by
      rintro rfl
      exact asStr_ne_nil hp heq
    have hterm : p.terminated = q.terminated := by
      rw [← asStr_terminated hp, ← asStr_terminated hq, heq]
    have hpq : p <+: q := terminated_prefix.mp (hterm ▸ prefix_refl _)
    have hqp : q <+: p := terminated_prefix.mp (hterm ▸ prefix_refl _)
    exact hpq.eq_of_length_le hqp.length_le

theorem asStr_le (h : p <+: q) : p.asStr ≤ q.asStr := by
  have hpre : p.asStr <+: q.asStr := by
    have hterm : p.terminated <+: q.terminated := terminated_prefix.mpr h
    have hp : p.asStr <+: p.terminated := dropLast_prefix _
    have hq : q.asStr <+: q.terminated := dropLast_prefix _
    refine prefix_of_prefix_length_le (hp.trans hterm) hq ?_
    simpa [asStr] using Nat.sub_le_sub_right hterm.length_le 1
  obtain ⟨_ | ⟨c, t⟩, ht⟩ := hpre
  · exact le_of_eq (by simpa using ht)
  · rw [← ht]
    conv_lhs => rw [← append_nil p.asStr]
    exact le_of_lt (Lex.append_left _ Lex.nil _)

end RelativePath

theorem overlapsImpl_iff {lhs rhs : List Char} (h : rhs ≠ []) :
    (overlapsImpl lhs rhs && decide (rhs.length ≤ lhs.length)) = true ↔
      rhs ++ ['/'] <+: lhs ++ ['/'] := by
  constructor
  · rw [Bool.and_eq_true, decide_eq_true_iff]
    rintro ⟨ho, hle⟩
    have hne : lhs ≠ [] := by
      rintro rfl
      exact h (length_eq_zero_iff.mp (Nat.le_zero.mp hle))
    simp only [overlapsImpl, Nat.min_eq_right hle, isEmpty_eq_false_iff.mpr hne,
      isEmpty_eq_false_iff.mpr h, take_length, Bool.or_self, Bool.false_eq_true, if_false,
      Bool.and_eq_true, beq_iff_eq] at ho
    obtain ⟨_ | ⟨c, t⟩, rfl⟩ := prefix_iff_eq_take.mpr ho.1.symm
    · simp
    · obtain rfl : c = '/' := by simpa using ho.2
      exact ⟨t ++ ['/'], by simp⟩
  · rw [prefix_concat_iff, append_left_inj]
    rintro (rfl | ⟨t, rfl⟩) <;> simp [overlapsImpl]

theorem RelativePath.skips_iff {last built : RelativePath} (h : built ≠ []) :
    (overlapsImpl last.asStr built.asStr
      && decide (built.asStr.length ≤ last.asStr.length)) = true ↔ built <+: last := by
  rw [overlapsImpl_iff (asStr_ne_nil h)]
  cases last with
  | nil =>
    refine iff_of_false (fun hp => asStr_ne_nil h ?_) fun hp => h (prefix_nil.mp hp)
    have hl : (built.asStr ++ ['/']).length ≤ 1 := hp.length_le
    simpa using hl
  | cons name rest =>
    rw [asStr_terminated h, asStr_terminated (cons_ne_nil name rest), terminated_prefix]

/-! ## What is yielded -/

/-- The paths yielded so far, with the ancestors of each before it, and those of the last among
them. -/
structure Expanded (yielded : List RelativePath) (lastYielded : RelativePath) : Prop where
  covered : ∀ x ≠ [], x <+: lastYielded → x ∈ yielded
  ordered : ∀ i x, yielded[i]? = some x → x ≠ [] ∧ ∀ y ≠ [], y <+: x → y ≠ x → y ∈ yielded.take i

theorem Expanded.yield {done last built} (h : Expanded done last) (hb : built <+: last)
    (component : Name) :
    Expanded (done ++ [built ++ [component]]) (built ++ [component]) := by
  refine ⟨fun x hx hpre => ?_, fun i x hi => ?_⟩
  · rcases prefix_concat_iff.mp hpre with rfl | hpre
    · simp
    · exact mem_append_left _ (h.covered x hx (hpre.trans hb))
  · by_cases hlt : i < done.length
    · rw [getElem?_append_left hlt] at hi
      rw [take_append_of_le_length (Nat.le_of_lt hlt)]
      exact h.ordered i x hi
    · rw [getElem?_append_right (Nat.le_of_not_lt hlt), getElem?_singleton] at hi
      split at hi
      · cases hi
        refine ⟨by simp, fun y hy hpre hne => ?_⟩
        rw [show i = done.length by omega, take_left]
        exact h.covered y hy (((prefix_concat_iff.mp hpre).resolve_left hne).trans hb)
      · cases hi

/-- One path is walked: all its ancestors are yielded, those that were not are yielded once, and
nothing else is. What is yielded a second time is what was yielded before the path yielded last and
is not above it. -/
theorem Expanded.expandPath {done last built} (h : Expanded done last) (hb : built <+: last)
    (remaining : RelativePath) :
    Expanded (done ++ (expandPath last built remaining).1) (expandPath last built remaining).2
    ∧ (∀ x, x ∈ done ++ (expandPath last built remaining).1 ↔
        x ∈ done ∨ x ≠ [] ∧ x <+: built ++ remaining)
    ∧ built ++ remaining <+: (expandPath last built remaining).2
    ∧ ((done ++ (expandPath last built remaining).1).Nodup ↔
        done.Nodup ∧ ∀ x ∈ done, x <+: built ++ remaining → x <+: last) := by
  induction remaining generalizing done last built with
  | nil =>
    simp only [Util.expandPath, append_nil]
    have hmem : ∀ x, x ∈ done ↔ x ∈ done ∨ x ≠ [] ∧ x <+: built := fun x =>
      ⟨.inl, fun hx => hx.elim id fun hx => h.covered x hx.1 (hx.2.trans hb)⟩
    exact ⟨h, hmem, hb, fun hn => ⟨hn, fun x _ hpre => hpre.trans hb⟩, And.left⟩
  | cons component remaining ih =>
    have hall : built ++ component :: remaining = built ++ [component] ++ remaining := by simp
    rw [hall]
    simp only [Util.expandPath, RelativePath.skips_iff (concat_ne_nil component built)]
    split
    · rename_i hskip
      exact ih h hskip
    · rename_i hyield
      obtain ⟨he, hmem, hpath, hnodup⟩ := ih (h.yield hb component) (prefix_refl _)
      rw [append_cons]
      refine ⟨he, fun x => ?_, hpath, ?_⟩
      · rw [hmem, mem_append, mem_singleton, or_assoc]
        refine or_congr .rfl (or_iff_right_of_imp ?_)
        rintro rfl
        exact ⟨concat_ne_nil _ _, prefix_append _ _⟩
      · rw [hnodup, nodup_append', disjoint_singleton]
        constructor
        · rintro ⟨⟨hn, -, hnew⟩, hdone⟩
          refine ⟨hn, fun x hx hpre => ?_⟩
          rcases prefix_concat_iff.mp (hdone x (mem_append_left _ hx) hpre) with rfl | hx'
          · exact absurd hx hnew
          · exact hx'.trans hb
        · rintro ⟨hn, hdone⟩
          have hnew : built ++ [component] ∉ done := fun hx =>
            hyield (hdone _ hx (prefix_append _ _))
          refine ⟨⟨hn, nodup_singleton _, hnew⟩, fun x hx hpre => ?_⟩
          rcases mem_append.mp hx with hx | hx
          · refine ( prefix_or_prefix_of_prefix hpre (prefix_append _ _)).resolve_right fun h' => ?_
            exact hyield (h'.trans (hdone x hx hpre))
          · exact mem_singleton.mp hx ▸ prefix_refl _

/-! ## Paths in byte order -/

/-- In byte order, the paths at and below any path stand together. -/
def Together (paths : List RelativePath) : Prop :=
  ∀ p ∈ paths, ∀ q ∈ paths, ∀ r ∈ paths, p.asStr ≤ q.asStr → q.asStr ≤ r.asStr →
    ∀ x ≠ [], x <+: p → x <+: r → x <+: q

/-- What was yielded before and is above one of the paths still to be walked is above the path
yielded last and above the paths from there on. -/
def Reached (done : List RelativePath) (last : RelativePath) (paths : List RelativePath) : Prop :=
  ∀ x ∈ done, ∀ p ∈ paths, x <+: p → x <+: last ∧ ∀ q ∈ paths, p.asStr ≤ q.asStr → x <+: q

section Walk

variable {done yielded paths : List RelativePath} {last last' path : RelativePath}

/-- The first of the paths is walked, `last'` is yielded last. -/
theorem together_cons (hle : ∀ p ∈ paths, p.asStr ≤ path.asStr)
    (hmem : ∀ x, x ∈ yielded ↔ x ∈ done ∨ x ≠ [] ∧ x <+: path) (hpath : path <+: last') :
    (∀ x ∈ done, x <+: path → x <+: last) ∧ Reached yielded last' paths ∧ Together paths ↔
      Reached done last (path :: paths) ∧ Together (path :: paths) := by
  have heq : ∀ q ∈ path :: paths, path.asStr ≤ q.asStr → q = path := by
    intro q hq hge
    rcases mem_cons.mp hq with rfl | hq
    · rfl
    · exact RelativePath.asStr_injective (le_antisymm (hle q hq) hge)
  constructor
  · rintro ⟨hdone, hreach, htog⟩
    constructor
    · intro x hx p hp hpre
      rcases mem_cons.mp hp with rfl | hp
      · exact ⟨hdone x hx hpre, fun q hq hge => heq q hq hge ▸ hpre⟩
      · obtain ⟨hx', hrest⟩ := hreach x ((hmem x).mpr (.inl hx)) p hp hpre
        -- where `x` is not above `path`, it is below it, and no later path is
        have habove : x <+: path := by
          rcases prefix_or_prefix_of_prefix hx' hpath with h | h
          · exact h
          · rwa [← heq p (mem_cons_of_mem _ hp) (RelativePath.asStr_le (h.trans hpre))]
        exact ⟨hdone x hx habove, forall_mem_cons.mpr ⟨fun _ => habove, hrest⟩⟩
    · intro p hp q hq r hr hpq hqr x hx hxp hxr
      rcases mem_cons.mp hp with rfl | hp'
      · exact heq q hq hpq ▸ hxp
      · rcases mem_cons.mp hq with rfl | hq'
        · exact heq r hr hqr ▸ hxr
        · rcases mem_cons.mp hr with rfl | hr'
          · exact (hreach x ((hmem x).mpr (.inr ⟨hx, hxr⟩)) p hp' hxp).2 q hq' hpq
          · exact htog p hp' q hq' r hr' hpq hqr x hx hxp hxr
  · rintro ⟨hreach, htog⟩
    refine ⟨fun x hx hpre => (hreach x hx path mem_cons_self hpre).1, ?_, ?_⟩
    · intro x hx p hp hpre
      rcases (hmem x).mp hx with hx | ⟨hne, hx⟩
      · obtain ⟨-, hrest⟩ := hreach x hx p (mem_cons_of_mem _ hp) hpre
        exact ⟨(hrest path mem_cons_self (hle p hp)).trans hpath,
          fun q hq => hrest q (mem_cons_of_mem _ hq)⟩
      · refine ⟨hx.trans hpath, fun q hq hpq => ?_⟩
        exact htog p (mem_cons_of_mem _ hp) q (mem_cons_of_mem _ hq) path mem_cons_self hpq
          (hle q hq) x hne hpre hx
    · intro p hp q hq r hr
      exact htog p (mem_cons_of_mem _ hp) q (mem_cons_of_mem _ hq) r (mem_cons_of_mem _ hr)

/-- Paths are walked downwards in byte order: exactly their ancestors are yielded, and none twice
exactly where the paths stand together. -/
theorem Expanded.expandPaths (h : Expanded done last)
    (hp : paths.Pairwise fun p q => q.asStr ≤ p.asStr) :
    (∃ last', Expanded (done ++ expandPaths last paths) last')
    ∧ (∀ x, x ∈ done ++ expandPaths last paths ↔ x ∈ done ∨ x ≠ [] ∧ ∃ p ∈ paths, x <+: p)
    ∧ ((done ++ expandPaths last paths).Nodup ↔
      done.Nodup ∧ Reached done last paths ∧ Together paths) := by
  induction paths generalizing done last with
  | nil =>
    simp only [Util.expandPaths, append_nil]
    exact ⟨⟨last, h⟩, by simp, fun hn => ⟨hn, nofun, nofun⟩, And.left⟩
  | cons path paths ih =>
    obtain ⟨he, hmem, hpath, hnodup⟩ := h.expandPath nil_prefix path
    obtain ⟨hle, hp⟩ := pairwise_cons.mp hp
    obtain ⟨hex, hiff, hn⟩ := ih he hp
    simp only [Util.expandPaths, ← append_assoc]
    refine ⟨hex, fun x => ?_, ?_⟩
    · rw [hiff, hmem, nil_append, or_assoc, ← and_or_left, exists_mem_cons_iff]
    · rw [hn, hnodup, and_assoc]
      exact and_congr_right fun _ => together_cons hle hmem hpath

end Walk

/-- Every ancestor of the paths is yielded and nothing else, each after those above it; and each
once exactly where the paths stand together. -/
theorem expandPathAncestors_exact (paths : List RelativePath) :
    (∀ x, x ∈ expandPathAncestors paths ↔ x ≠ [] ∧ ∃ p ∈ paths, x <+: p)
    ∧ (∀ i x, (expandPathAncestors paths)[i]? = some x →
      ∀ y ≠ [], y <+: x → y ≠ x → y ∈ (expandPathAncestors paths).take i)
    ∧ ((expandPathAncestors paths).Nodup ↔ Together paths) := by
  have hnew : Expanded [] [] := ⟨fun x hx hpre => absurd (prefix_nil.mp hpre) hx, nofun⟩
  have hsort : (paths.mergeSort (·.asStr ≤ ·.asStr)).reverse.Pairwise
      fun p q => q.asStr ≤ p.asStr := by
    rw [pairwise_reverse]
    refine (pairwise_mergeSort ?_ ?_ paths).imp of_decide_eq_true
    · intro a b c hab hbc
      exact decide_eq_true (le_trans (of_decide_eq_true hab) (of_decide_eq_true hbc))
    · intro a b
      simpa using le_total _ _
  obtain ⟨⟨last, he⟩, hall, hn⟩ := hnew.expandPaths hsort
  refine ⟨?_, fun i x hi => (he.ordered i x hi).2, ?_⟩
  · simpa [expandPathAncestors] using hall
  · have hnone : ∀ paths, Reached [] [] paths := nofun
    simpa [expandPathAncestors, hnone, Together] using hn

def nameA : Name := ⟨['a'], by decide, by decide⟩

def nameADot : Name := ⟨['a', '.'], by decide, by decide⟩

theorem expandPathAncestors_exact_together :
    Together [[nameA], [nameA, nameA]]
      ∧ (expandPathAncestors [[nameA], [nameA, nameA]]).Nodup := by
  have htog : Together [[nameA], [nameA, nameA]] := by
    intro p hp q hq r _ hpq _ x _ hxp _
    simp only [mem_cons, not_mem_nil, or_false] at hp hq
    rcases hq with rfl | rfl
    · rcases hp with rfl | rfl
      · exact hxp
      · exact absurd hpq (by decide)
    · rcases hp with rfl | rfl
      · exact hxp.trans (prefix_append _ [nameA])
      · exact hxp
  exact ⟨htog, (expandPathAncestors_exact _).2.2.mpr htog⟩

/-- The file `a.` sorts between the directory `a` and what is below it. -/
theorem expandPathAncestors_repeats :
    expandPathAncestors [[nameA], [nameADot], [nameA, nameA]]
      = [[nameA], [nameA, nameA], [nameADot], [nameA]] := by
  rw [expandPathAncestors, mergeSort_of_pairwise (by decide)]
  decide

end Lore.Util
