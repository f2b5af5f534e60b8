import Mathlib.Tactic.Common

/-!
# Chain — walks along a successor function

Every value but `stop` has one successor. A walk from `a` passes a list of values, none of
them `stop`, and arrives at the value after the last. Where a rank drops at every step the
walk from any value ends at `stop`, and no value comes twice.
-/

namespace Lore.Lib

open List

variable {α : Type} {next : α → α} {stop : α}

/-- The walk from `a` passes `xs` and arrives at `b`. -/
inductive Walk (next : α → α) (stop : α) : α → List α → α → Prop where
  | nil (a : α) : Walk next stop a [] a
  | cons {a b : α} {xs : List α} (hstop : a ≠ stop) (h : Walk next stop (next a) xs b) :
      Walk next stop a (a :: xs) b

/-- The rank drops from every value to its successor, as long as that is not `stop`. -/
def Descends (next : α → α) (stop : α) (rank : α → Nat) : Prop :=
  ∀ a, a ≠ stop → next a ≠ stop → rank (next a) < rank a

/-- The values from `a` to `stop`, at most `fuel` of them. -/
def follow [DecidableEq α] (next : α → α) (stop : α) : Nat → α → List α
  | 0, _ => []
  | fuel + 1, a => if a = stop then [] else a :: follow next stop fuel (next a)

namespace Walk

variable {a b : α} {xs : List α} {rank : α → Nat}

section

variable (h : Walk next stop a xs b)
include h

theorem append {c : α} {ys} (h' : Walk next stop b ys c) : Walk next stop a (xs ++ ys) c := by
  induction h with
  | nil a => exact h'
  | cons hst _ ih => exact .cons hst (ih h')

theorem snoc (hst : b ≠ stop) : Walk next stop a (xs ++ [b]) (next b) :=
  h.append (.cons hst (.nil _))

theorem ne_stop {x : α} (hx : x ∈ xs) : x ≠ stop := by
  induction h with
  | nil a => exact absurd hx not_mem_nil
  | cons hst _ ih =>
    rcases mem_cons.mp hx with rfl | hx
    · exact hst
    · exact ih hx

theorem congr {next' : α → α} (hn : ∀ x ∈ xs, next' x = next x) : Walk next' stop a xs b := by
  induction h with
  | nil a => exact .nil a
  | cons hst _ ih =>
    refine .cons hst ?_
    rw [hn _ mem_cons_self]
    exact ih fun x hx => hn x (mem_cons_of_mem _ hx)

end

theorem eq_nil (h : Walk next stop stop xs b) : xs = [] := by
  cases h with
  | nil => rfl
  | cons hst _ => exact absurd rfl hst

theorem eq_of_nil (h : Walk next stop a [] b) : a = b := by
  cases h
  rfl

theorem head_eq {x : α} (h : Walk next stop a (x :: xs) b) : x = a := by
  cases h
  rfl

theorem rest {ys} (h : Walk next stop a ys b) (hend : Walk next stop a xs stop) :
    ∃ zs, xs = ys ++ zs ∧ Walk next stop b zs stop := by
  induction h generalizing xs with
  | nil a => exact ⟨xs, rfl, hend⟩
  | cons hst _ ih =>
    cases hend with
    | nil => exact absurd rfl hst
    | cons _ hend =>
      obtain ⟨zs, rfl, hr⟩ := ih hend
      exact ⟨zs, rfl, hr⟩

section

variable (hd : Descends next stop rank) (h : Walk next stop a xs b)
include hd h

theorem rank_le {x : α} (hx : x ∈ xs) : rank x ≤ rank a := by
  induction h with
  | nil a => exact absurd hx not_mem_nil
  | cons hst hr ih =>
    rcases mem_cons.mp hx with rfl | hx
    · exact Nat.le_refl _
    · cases hr with
      | nil => exact absurd hx not_mem_nil
      | cons hn hr => exact Nat.le_of_lt (Nat.lt_of_le_of_lt (ih hx) (hd _ hst hn))

theorem descending : xs.Pairwise fun x y => rank y < rank x := by
  induction h with
  | nil a => exact .nil
  | cons hst hr ih =>
    refine pairwise_cons.mpr ⟨fun y hy => ?_, ih⟩
    cases hr with
    | nil => exact absurd hy not_mem_nil
    | cons hn hr =>
      exact Nat.lt_of_le_of_lt (rank_le hd (.cons hn hr) hy) (hd _ hst hn)

theorem rank_lt {x : α} (hb : b ≠ stop) (hx : x ∈ xs) : rank b < rank x := by
  have hp := (h.snoc hb).descending hd
  exact (pairwise_append.mp hp).2.2 x hx b mem_cons_self

end

end Walk

theorem walk_follow [DecidableEq α] {rank : α → Nat} (hd : Descends next stop rank) {a : α} {fuel}
    (hf : rank a < fuel) : Walk next stop a (follow next stop fuel a) stop := by
  induction fuel generalizing a with
  | zero => exact absurd hf (Nat.not_lt_zero _)
  | succ fuel ih =>
    rw [follow]
    split
    case isTrue hst =>
      subst hst
      exact .nil _
    case isFalse hst =>
      refine .cons hst ?_
      by_cases hn : next a = stop
      · cases fuel with
        | zero =>
          rw [hn]
          exact .nil _
        | succ fuel =>
          rw [follow, if_pos hn, hn]
          exact .nil _
      · exact ih (by have := hd a hst hn; omega)

end Lore.Lib
