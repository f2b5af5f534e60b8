import Mathlib.Data.List.Nodup

/-!
# Gather — the records of items, gathered by their keys

Items come in any order; each is merged into the record of its key, or starts one. The records
of a run of items are one for each key, folded from the items of that key in their order.
-/

namespace Lore.Lib

open List

/-- How items make up records. -/
structure Gathering (α β κ : Type) where
  keyOf : α → κ
  key : β → κ
  fresh : α → β
  merge : β → α → β
  key_fresh : ∀ a, key (fresh a) = keyOf a
  key_merge : ∀ b a, key (merge b a) = key b

namespace Gathering

variable {α β κ : Type} [DecidableEq κ] (g : Gathering α β κ) {a : α} {b : β} {items : List α}

/-- The item merged into the record of its key, or a record of its own. -/
def add (a : α) : List β → List β
  | [] => [g.fresh a]
  | b :: bs => if g.key b = g.keyOf a then g.merge b a :: bs else b :: add a bs

/-- The items gathered one by one. -/
def all : List α → List β → List β
  | [], bs => bs
  | a :: items, bs => all items (g.add a bs)

/-- The record of items of one key. -/
def fold : List α → Option β
  | [] => none
  | a :: items => some (items.foldl g.merge (g.fresh a))

theorem add_append {bs} (cs : List β) (h : ∀ b ∈ bs, g.key b ≠ g.keyOf a) :
    g.add a (bs ++ cs) = bs ++ g.add a cs := by
  induction bs with
  | nil => rfl
  | cons b bs ih =>
    rw [cons_append, add, if_neg (h b mem_cons_self), ih fun c hc => h c (mem_cons_of_mem b hc),
      cons_append]

theorem filter_add (keeps : κ → Bool) (bs : List β) :
    (g.add a bs).filter (keeps <| g.key ·) = if keeps (g.keyOf a)
      then g.add a (bs.filter (keeps <| g.key ·)) else bs.filter (keeps <| g.key ·) := by
  induction bs with
  | nil => simp [add, filter_cons, g.key_fresh]
  | cons b bs ih =>
    by_cases hb : g.key b = g.keyOf a
    · by_cases hk : keeps (g.keyOf a) = true <;> simp [add, hb, hk, g.key_merge]
    · by_cases hk : keeps (g.key b) = true
      · simp only [add, if_neg hb, filter_cons, hk, if_true, ih]
        split <;> rfl
      · simp only [add, if_neg hb, filter_cons, hk, ih]
        rfl

theorem filter_all (keeps : κ → Bool) (items : List α) (bs : List β) :
    (g.all items bs).filter (keeps <| g.key ·)
      = g.all (items.filter (keeps <| g.keyOf ·)) (bs.filter (keeps <| g.key ·)) := by
  induction items generalizing bs with
  | nil => rfl
  | cons a items ih =>
    rw [all, ih, filter_add, filter_cons]
    split <;> rfl

theorem all_same (h : ∀ a ∈ items, g.keyOf a = g.key b) :
    g.all items [b] = [items.foldl g.merge b] := by
  induction items generalizing b with
  | nil => rfl
  | cons a items ih =>
    rw [all, add, if_pos (h a mem_cons_self).symm]
    exact ih fun c hc => (h c (mem_cons_of_mem a hc)).trans (g.key_merge b a).symm

theorem filter_key_all (items : List α) (k : κ) : (g.all items []).filter (g.key · = k)
    = (g.fold (items.filter (g.keyOf · = k))).toList := by
  rw [g.filter_all (decide <| · = k)]
  have hk : ∀ c ∈ items.filter (g.keyOf · = k), g.keyOf c = k := fun c hc =>
    of_decide_eq_true (mem_filter.mp hc).2
  cases hi : items.filter (g.keyOf · = k) with
  | nil => rfl
  | cons a rest =>
    rw [hi] at hk
    exact g.all_same fun c hc => (hk c (mem_cons_of_mem a hc)).trans
      ((g.key_fresh a).trans (hk a mem_cons_self)).symm

theorem exists_of_mem_all (h : b ∈ g.all items []) : ∃ a rest,
    items.filter (g.keyOf · = g.key b) = a :: rest ∧ rest.foldl g.merge (g.fresh a) = b := by
  have hmem : b ∈ (g.all items []).filter (g.key · = g.key b) :=
    mem_filter.mpr ⟨h, decide_eq_true rfl⟩
  rw [filter_key_all, Option.mem_toList] at hmem
  cases hi : items.filter (g.keyOf · = g.key b) with
  | nil =>
    rw [hi] at hmem
    cases hmem
  | cons a rest =>
    rw [hi] at hmem
    exact ⟨a, rest, rfl, Option.some.inj hmem⟩

theorem exists_mem_all (h : a ∈ items) : ∃ b ∈ g.all items [], g.key b = g.keyOf a := by
  cases hi : items.filter (g.keyOf · = g.keyOf a) with
  | nil => exact absurd (decide_eq_true rfl) (filter_eq_nil_iff.mp hi a h)
  | cons c rest =>
    have hmem : rest.foldl g.merge (g.fresh c) ∈ (g.all items []).filter (g.key · = g.keyOf a) := by
      rw [filter_key_all, hi]
      exact mem_singleton_self _
    obtain ⟨hb, hk⟩ := mem_filter.mp hmem
    exact ⟨_, hb, of_decide_eq_true hk⟩

theorem nodup_all : ((g.all items []).map g.key).Nodup := by
  refine nodup_iff_count_le_one.mpr fun k => ?_
  rw [count, countP_map, countP_eq_length_filter]
  refine Nat.le_trans (Nat.le_of_eq (congrArg length (g.filter_key_all items k))) ?_
  cases g.fold (items.filter (g.keyOf · = k)) <;> simp

end Gathering

end Lore.Lib
