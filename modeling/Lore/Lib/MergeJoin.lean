import Mathlib.Algebra.BigOperators.Group.List.Basic
import Mathlib.Algebra.GroupWithZero.Nat
import Mathlib.Data.List.Nodup
import Mathlib.Order.Lattice
import Mathlib.Tactic.Common

/-!
# MergeJoin — walking two sorted lists side by side

Two lists sorted by a key are walked together: an element whose key stands in one list
alone is met alone, two elements of one key are met as a pair. An element of the left
list may be passed over, and then its partner on the right is met as if it stood alone.
`mem_mergeJoin` says which meetings there are and `mergeJoin_pairwise` that no key has
two of them, so what the walk does at one key is read off at `meetingAt`.
-/

namespace Lore.Lib

open List

/-- What a walk meets at one key. -/
inductive Meeting (α β : Type) where
  | left (a : α)
  | right (b : β)
  | both (a : α) (b : β)

variable {α β γ κ : Type} [LinearOrder κ] (leftKey : α → κ) (rightKey : β → κ)

/-- The key a meeting happens at. -/
def Meeting.key : Meeting α β → κ
  | .left a => leftKey a
  | .right b => rightKey b
  | .both a _ => leftKey a

/-- The meetings of a walk that passes over the left elements `keeps` refuses. -/
def mergeJoin (keeps : α → Bool) : List α → List β → List (Meeting α β)
  | [], bs => bs.map .right
  | a :: as, bs =>
      (bs.takeWhile (rightKey · < leftKey a)).map .right ++
        if keeps a then
          match bs.dropWhile (rightKey · < leftKey a) with
          | [] => .left a :: mergeJoin keeps as []
          | b :: rest =>
              if rightKey b = leftKey a then .both a b :: mergeJoin keeps as rest
              else .left a :: mergeJoin keeps as (b :: rest)
        else mergeJoin keeps as (bs.dropWhile (rightKey · < leftKey a))

/-- Strictly ascending by a key. -/
def Ascending (key : α → κ) (xs : List α) : Prop := xs.Pairwise (key · < key ·)

/-! ## Splitting an ascending list at a key -/

section Split

variable {key : α → κ} {xs : List α}

theorem Ascending.whileBelow (h : Ascending key xs) (x : κ) :
    xs.takeWhile (key · < x) = xs.filter (key · < x) ∧
      xs.dropWhile (key · < x) = xs.filter (¬ key · < x) := by
  induction xs with
  | nil => simp
  | cons y ys ih =>
    obtain ⟨hy, hys⟩ := pairwise_cons.mp h
    obtain ⟨ht, hd⟩ := ih hys
    by_cases hlt : key y < x
    · simp only [takeWhile_cons, dropWhile_cons, filter_cons, hlt, ht, hd]
      simp
    · have hout : ∀ a ∈ y :: ys, ¬ key a < x :=
        forall_mem_cons.mpr ⟨hlt, fun a ha hka => hlt ((hy a ha).trans hka)⟩
      rw [takeWhile_cons_of_neg (by simpa using hlt), dropWhile_cons_of_neg (by simpa using hlt),
        filter_eq_nil_iff.mpr (by simpa using hout), filter_eq_self.mpr (by simpa using hout)]
      exact ⟨rfl, rfl⟩

theorem Ascending.mem_takeWhile (h : Ascending key xs) (x : κ) (a : α) :
    a ∈ xs.takeWhile (key · < x) ↔ a ∈ xs ∧ key a < x := by
  simp [(h.whileBelow x).1]

theorem Ascending.mem_dropWhile (h : Ascending key xs) (x : κ) (a : α) :
    a ∈ xs.dropWhile (key · < x) ↔ a ∈ xs ∧ ¬ key a < x := by
  simp [(h.whileBelow x).2]

theorem Ascending.dropWhile (h : Ascending key xs) (x : κ) :
    Ascending key (xs.dropWhile (key · < x)) := List.Pairwise.sublist (dropWhile_sublist _) h

end Split

/-! ## Which meetings there are -/

variable {leftKey rightKey} {keeps : α → Bool} {as : List α} {bs : List β}

/-- A meeting the walk of `as` and `bs` has. -/
def Meeting.Of (leftKey : α → κ) (rightKey : β → κ) (keeps : α → Bool) (as : List α)
    (bs : List β) : Meeting α β → Prop
  | .left a => a ∈ as ∧ keeps a = true ∧ ∀ b ∈ bs, rightKey b ≠ leftKey a
  | .right b => b ∈ bs ∧ ∀ a ∈ as, keeps a = true → leftKey a ≠ rightKey b
  | .both a b => a ∈ as ∧ b ∈ bs ∧ keeps a = true ∧ rightKey b = leftKey a

theorem mem_mergeJoin (has : Ascending leftKey as) (hbs : Ascending rightKey bs) (m : Meeting α β) :
    m ∈ mergeJoin leftKey rightKey keeps as bs ↔ m.Of leftKey rightKey keeps as bs := by
  induction as generalizing bs with
  | nil =>
    cases m <;> simp [mergeJoin, Meeting.Of]
  | cons a as ih =>
    obtain ⟨ha, has⟩ := pairwise_cons.mp has
    have hd := hbs.mem_dropWhile (leftKey a)
    have ht := hbs.mem_takeWhile (leftKey a)
    have hr := hbs.dropWhile (leftKey a)
    rw [mergeJoin, mem_append]
    by_cases hk : keeps a = true
    · rw [if_pos hk]
      cases hcut : bs.dropWhile (rightKey · < leftKey a) with
      | nil =>
        -- Every right element stands below `a`.
        simp only [mem_cons, ih has (List.Pairwise.nil : Ascending rightKey [])]
        cases m <;> simp only [Meeting.Of] <;> grind
      | cons b rest =>
        rw [hcut] at hd hr
        obtain ⟨hb, hr'⟩ := pairwise_cons.mp hr
        by_cases hkey : rightKey b = leftKey a
        · simp only [if_pos hkey, mem_cons, ih has hr']
          cases m <;> simp only [Meeting.Of] <;> grind
        · simp only [if_neg hkey, mem_cons, ih has hr]
          cases m <;> simp only [Meeting.Of] <;> grind
    · rw [if_neg hk, ih has hr]
      cases m <;> simp only [Meeting.Of] <;> grind

theorem mergeJoin_pairwise (has : Ascending leftKey as) (hbs : Ascending rightKey bs) :
    Ascending (Meeting.key leftKey rightKey) (mergeJoin leftKey rightKey keeps as bs) := by
  induction as generalizing bs with
  | nil => exact pairwise_map.mpr hbs
  | cons a as ih =>
    obtain ⟨ha, has⟩ := pairwise_cons.mp has
    have hr := hbs.dropWhile (leftKey a)
    have ht : ∀ ms : List (Meeting α β), Ascending (Meeting.key leftKey rightKey) ms →
        (∀ m ∈ ms, leftKey a ≤ m.key leftKey rightKey) →
        Ascending (Meeting.key leftKey rightKey)
          ((bs.takeWhile (rightKey · < leftKey a)).map .right ++ ms) := by
      intro ms hms hle
      refine pairwise_append.mpr ⟨?_, hms, ?_⟩
      · exact pairwise_map.mpr (List.Pairwise.sublist (takeWhile_sublist _) hbs)
      · intro m hm m' hm'
        obtain ⟨b, hb, rfl⟩ := mem_map.mp hm
        exact lt_of_lt_of_le ((hbs.mem_takeWhile _ b).mp hb).2 (hle m' hm')
    -- What is left to walk after `a` stands above `a`.
    have hcons : ∀ {m} {rest : List β}, m.key leftKey rightKey = leftKey a →
        Ascending rightKey rest → (∀ b ∈ rest, leftKey a < rightKey b) →
        Ascending (Meeting.key leftKey rightKey)
          ((bs.takeWhile (rightKey · < leftKey a)).map .right ++
            m :: mergeJoin leftKey rightKey keeps as rest) := by
      intro m rest hkey hso hab
      have hah : ∀ m ∈ mergeJoin leftKey rightKey keeps as rest,
          leftKey a < m.key leftKey rightKey := by
        intro m hm
        have hm := (mem_mergeJoin has hso m).mp hm
        cases m with
        | left a' | both a' b => exact ha a' hm.1
        | right b => exact hab b hm.1
      exact ht _ (pairwise_cons.mpr ⟨hkey ▸ hah, ih has hso⟩)
        (forall_mem_cons.mpr ⟨hkey.ge, fun m hm => (hah m hm).le⟩)
    rw [mergeJoin]
    by_cases hk : keeps a = true
    · rw [if_pos hk]
      cases hcut : bs.dropWhile (rightKey · < leftKey a) with
      | nil => exact hcons rfl List.Pairwise.nil fun b hb => absurd hb not_mem_nil
      | cons b rest =>
        have hcA := hbs.mem_dropWhile (leftKey a)
        rw [hcut] at hr hcA
        obtain ⟨hb, hr'⟩ := pairwise_cons.mp hr
        by_cases hkey : rightKey b = leftKey a
        · simp only [if_pos hkey]
          exact hcons rfl hr' fun b' hb' => hkey ▸ hb b' hb'
        · have hlt : leftKey a < rightKey b :=
            lt_of_le_of_ne (not_lt.mp ((hcA b).mp mem_cons_self).2) (Ne.symm hkey)
          simp only [if_neg hkey]
          exact hcons rfl hr (forall_mem_cons.mpr ⟨hlt, fun b' hb' => hlt.trans (hb b' hb')⟩)
    · rw [if_neg hk]
      refine ht _ (ih has hr) ?_
      intro m hm
      have hm := (mem_mergeJoin has hr m).mp hm
      cases m with
      | left a' | both a' b => exact (ha a' hm.1).le
      | right b => exact not_lt.mp ((hbs.mem_dropWhile _ b).mp hm.1).2

/-! ## What happens at one key -/

/-- The meeting at the key where the left list holds `a?` and the right list `b?`. -/
def meetingAt (keeps : α → Bool) : Option α → Option β → Option (Meeting α β)
  | some a, some b => some (if keeps a then .both a b else .right b)
  | some a, none => if keeps a then some (.left a) else none
  | none, some b => some (.right b)
  | none, none => none

theorem find?_key_eq_some {κ : Type} [DecidableEq κ] {key : α → κ} {xs : List α}
    (h : (xs.map key).Nodup) (x : κ) (a : α) :
    xs.find? (key · = x) = some a ↔ a ∈ xs ∧ key a = x := by
  constructor
  · intro hf
    exact ⟨mem_of_find?_eq_some hf, by simpa using find?_some hf⟩
  · rintro ⟨hmem, rfl⟩
    induction xs with
    | nil => exact absurd hmem not_mem_nil
    | cons y ys ih =>
      obtain ⟨hy, hys⟩ := nodup_cons.mp h
      rcases mem_cons.mp hmem with rfl | hmem
      · simp
      · have hne : key y ≠ key a := fun heq => hy (heq ▸ mem_map_of_mem hmem)
        rw [find?_cons_of_neg (by simpa using hne)]
        exact ih hys hmem

theorem find?_key_eq_none {κ : Type} [DecidableEq κ] {key : α → κ} {xs : List α} (x : κ) :
    xs.find? (key · = x) = none ↔ ∀ a ∈ xs, key a ≠ x := by
  simp

theorem Ascending.nodup {key : α → κ} {xs} (h : Ascending key xs) : (xs.map key).Nodup :=
  pairwise_map.mpr (h.imp fun hlt => hlt.ne)

theorem flatMap_of_key {key : α → κ} {xs : List α} (h : (xs.map key).Nodup) {x : κ}
    {f : α → List γ} (hf : ∀ a ∈ xs, key a ≠ x → f a = []) :
    xs.flatMap f = ((xs.find? (key · = x)).map f).getD [] := by
  induction xs with
  | nil => rfl
  | cons y ys ih =>
    obtain ⟨hy, hys⟩ := nodup_cons.mp h
    have hr := ih hys (fun a ha => hf a (mem_cons_of_mem _ ha))
    rw [flatMap_cons]
    by_cases hkey : key y = x
    · rw [find?_cons_of_pos (by simpa using hkey), hr]
      have hn : ys.find? (key · = x) = none := by
        rw [find?_key_eq_none]
        intro a ha heq
        exact hy (hkey ▸ heq ▸ mem_map_of_mem ha)
      rw [hn]
      simp
    · rw [find?_cons_of_neg (by simpa using hkey), hr, hf y mem_cons_self hkey, nil_append]

theorem find?_mergeJoin (has : Ascending leftKey as) (hbs : Ascending rightKey bs) (x : κ) :
    (mergeJoin leftKey rightKey keeps as bs).find? (Meeting.key leftKey rightKey · = x) =
      meetingAt keeps (as.find? (leftKey · = x)) (bs.find? (rightKey · = x)) := by
  have hj : ((mergeJoin leftKey rightKey keeps as bs).map (Meeting.key leftKey rightKey)).Nodup :=
    (mergeJoin_pairwise has hbs).nodup
  have hoL := inj_on_of_nodup_map has.nodup
  have hoR := inj_on_of_nodup_map hbs.nodup
  apply Option.ext
  intro m
  rw [find?_key_eq_some hj, mem_mergeJoin has hbs]
  cases ha : as.find? (leftKey · = x) with
  | none =>
    cases hb : bs.find? (rightKey · = x) with
    | none | some b =>
      cases m <;> simp only [meetingAt, Meeting.Of, Meeting.key] <;> grind
  | some a =>
    cases hb : bs.find? (rightKey · = x) with
    | none =>
      cases m <;> simp only [meetingAt, Meeting.Of, Meeting.key] <;> grind
    | some b =>
      cases m <;> simp only [meetingAt, Meeting.Of, Meeting.key] <;> grind

/-! ## How much is met -/

/-- Where every meeting weighs no more than the elements it is of, the walk weighs no more
than the two lists. -/
theorem mergeJoin_weight {weight : Meeting α β → Nat} {f : α → Nat} {g : β → Nat}
    (hl : ∀ a, weight (.left a) ≤ f a) (hri : ∀ b, weight (.right b) ≤ g b)
    (hbo : ∀ a b, weight (.both a b) ≤ f a + g b) (as : List α) (bs : List β) :
    ((mergeJoin leftKey rightKey keeps as bs).map weight).sum ≤
      (as.map f).sum + (bs.map g).sum := by
  have hr : ∀ bs : List β, ((bs.map Meeting.right).map weight).sum ≤ (bs.map g).sum := by
    intro bs
    induction bs with
    | nil => exact Nat.le_refl _
    | cons b bs ih =>
      have hb := hri b
      simp only [map_cons, sum_cons]
      omega
  induction as generalizing bs with
  | nil =>
    have hbs := hr bs
    simp only [map_nil, sum_nil, Nat.zero_add]
    exact hbs
  | cons a as ih =>
    have hsp : (bs.map g).sum = ((bs.takeWhile (rightKey · < leftKey a)).map g).sum +
        ((bs.dropWhile (rightKey · < leftKey a)).map g).sum := by
      rw [← sum_append, ← map_append, takeWhile_append_dropWhile]
    have ht := hr (bs.takeWhile (rightKey · < leftKey a))
    have ha := hl a
    rw [mergeJoin, map_append, sum_append, hsp]
    simp only [map_cons, sum_cons]
    by_cases hk : keeps a = true
    · rw [if_pos hk]
      cases hcut : bs.dropWhile (rightKey · < leftKey a) with
      | nil =>
        have hre := ih []
        simp only [map_cons, sum_cons] at hre ⊢
        omega
      | cons b rest =>
        by_cases hkey : rightKey b = leftKey a
        · have hre := ih rest
          have hab := hbo a b
          simp only [if_pos hkey, map_cons, sum_cons]
          omega
        · have hre := ih (b :: rest)
          simp only [if_neg hkey, map_cons, sum_cons] at hre ⊢
          omega
    · have hre := ih (bs.dropWhile (rightKey · < leftKey a))
      rw [if_neg hk]
      omega

end Lore.Lib
