import Mathlib.Tactic.Common

/-!
# Machine — runs of a partial step function

A machine is a function `step : σ → α → Option σ`: what one action does to a state,
`none` where the action cannot happen there. `run` chains it over a list of actions.
A property of every reachable state is proved by what one step preserves; where only
some steps preserve it, `StepsMeet` says that every step of a run is one of those.
-/

namespace Lore.Lib

variable {σ α : Type} (step : σ → α → Option σ)

/-- The state after `actions`, `none` where one of them cannot happen. -/
def run : σ → List α → Option σ
  | s, [] => some s
  | s, a :: as => (step s a).bind fun t => run t as

theorem run_cons (s : σ) (a : α) (as : List α) :
    run step s (a :: as) = (step s a).bind fun t => run step t as := rfl

theorem run_append (s : σ) (as bs : List α) :
    run step s (as ++ bs) = (run step s as).bind fun t => run step t bs := by
  induction as generalizing s with
  | nil => rfl
  | cons a as ih => cases h : step s a <;> simp [run, h, ih]

theorem run_cons_eq_some {s u : σ} {a : α} {as} (h : run step s (a :: as) = some u) :
    ∃ t, step s a = some t ∧ run step t as = some u := Option.bind_eq_some_iff.mp h

/-- What holds before the first step and is kept by each, of the steps taken so far, holds of all
that were taken. -/
theorem run_history (Inv : List α → σ → Prop) {start u : σ} {as : List α}
    (hst : ∀ before a rest s t, as = before ++ a :: rest → run step start before = some s →
      Inv before s → step s a = some t → Inv (before ++ [a]) t)
    (h0 : Inv [] start) (h : run step start as = some u) : Inv as u := by
  have hfrom : ∀ rest before s, as = before ++ rest → run step start before = some s →
      Inv before s → run step s rest = some u → Inv as u := by
    intro rest
    induction rest with
    | nil =>
      intro before s hsplit _ hs h
      cases h
      rwa [hsplit, List.append_nil]
    | cons a rest ih =>
      intro before s hsplit hb hs h
      obtain ⟨t, ht, h⟩ := run_cons_eq_some step h
      have hb' : run step start (before ++ [a]) = some t := by
        rw [run_append, hb]
        simp [run, ht]
      rw [List.append_cons] at hsplit
      exact ih _ t hsplit hb' (hst before a rest s t (by simp [hsplit]) hb hs ht) h
  exact hfrom as [] start rfl rfl h0 h

/-- What holds at the start, and after a step if it held at every state the run came through,
holds at the end. -/
theorem run_strong (P : σ → Prop) {start u : σ} {as : List α}
    (hst : ∀ before a rest s t, as = before ++ a :: rest → run step start before = some s →
      (∀ earlier mid, earlier <+: before → run step start earlier = some mid → P mid) →
      step s a = some t → P t)
    (h0 : P start) (h : run step start as = some u) : P u := by
  refine run_history step (fun before _ => ∀ earlier mid, earlier <+: before →
    run step start earlier = some mid → P mid) ?_ ?_ h as u List.prefix_rfl h
  · intro before a rest s t hsplit hs hall hta earlier mid hearlier hmid
    rcases List.prefix_concat_iff.mp hearlier with rfl | hin
    · rw [run_append, hs] at hmid
      simp only [Option.bind_some, run, hta] at hmid
      cases hmid
      exact hst before a rest s t hsplit hs hall hta
    · exact hall earlier mid hin hmid
  · intro earlier mid hearlier hmid
    rw [List.prefix_nil.mp hearlier] at hmid
    cases hmid
    exact h0

omit step in
theorem guarded {p : Prop} [Decidable p] {s t : σ} (h : (if p then some s else none) = some t) :
    p ∧ s = t := by
  simpa using h

omit step in
theorem update_eq_some {κ : Type} [DecidableEq κ] {table : κ → Option σ} {i j : κ} {s t : σ}
    (h : Function.update table i (some s) j = some t) :
    j = i ∧ s = t ∨ j ≠ i ∧ table j = some t := by
  by_cases hji : j = i
  · subst hji
    exact .inl ⟨rfl, by simpa using h⟩
  · exact .inr ⟨hji, by simpa [hji] using h⟩

omit step in
theorem update_related {κ : Type} [DecidableEq κ] {table : κ → σ} {i : κ} {s : σ} (R : σ → σ → Prop)
    (hr : ∀ s, R s s) (h : R (table i) s) (j : κ) : R (table j) (Function.update table i s j) := by
  by_cases hji : j = i
  · subst hji
    simpa using h
  · simpa [hji] using hr _

/-! ## Runs whose steps all meet a condition -/

/-- Every step the run of `actions` from `s` takes meets `good`, which may look at the
state before the step. -/
def StepsMeet (good : σ → α → Prop) : σ → List α → Prop
  | _, [] => True
  | s, a :: as => good s a ∧ ∀ t, step s a = some t → StepsMeet good t as

/-- A condition that can be decided of each step can be decided of a run. -/
instance StepsMeet.decidable {good : σ → α → Prop} [∀ s a, Decidable (good s a)] :
    ∀ s as, Decidable (StepsMeet step good s as)
  | _, [] => isTrue trivial
  | s, a :: as =>
    match h : step s a with
    | none => decidable_of_iff (good s a) (by simp [StepsMeet, h])
    | some t =>
      have : Decidable (StepsMeet step good t as) := StepsMeet.decidable t as
      decidable_of_iff (good s a ∧ StepsMeet step good t as) (by simp [StepsMeet, h])

theorem stepsMeet_of_forall {good : σ → α → Prop} {as} (h : ∀ a ∈ as, ∀ s, good s a) (s : σ) :
    StepsMeet step good s as := by
  induction as generalizing s with
  | nil => trivial
  | cons a as ih =>
    exact ⟨h a (by simp) s, fun t _ => ih (fun b hb => h b (by simp [hb])) t⟩

theorem StepsMeet.and {good good' : σ → α → Prop} {s : σ} {as} (h : StepsMeet step good s as)
    (h' : StepsMeet step good' s as) : StepsMeet step (fun s a => good s a ∧ good' s a) s as := by
  induction as generalizing s with
  | nil => trivial
  | cons a as ih => exact ⟨⟨h.1, h'.1⟩, fun t ht => ih (h.2 t ht) (h'.2 t ht)⟩

theorem StepsMeet.at {good : σ → α → Prop} {s t : σ} {before a rest}
    (h : StepsMeet step good s (before ++ a :: rest)) (ht : run step s before = some t) :
    good t a := by
  induction before generalizing s with
  | nil =>
    cases ht
    exact h.1
  | cons b before ih =>
    obtain ⟨u, hu, ht⟩ := run_cons_eq_some step ht
    exact ih (h.2 u hu) ht

/-- What every step that meets the condition preserves, every run of such steps
preserves. -/
theorem run_invariant_of_stepsMeet {Inv : σ → Prop} {good : σ → α → Prop}
    (hst : ∀ s a t, Inv s → good s a → step s a = some t → Inv t) {s u : σ} {as} (hs : Inv s)
    (hg : StepsMeet step good s as) (h : run step s as = some u) : Inv u := by
  induction as generalizing s with
  | nil =>
    cases h
    exact hs
  | cons a as ih =>
    obtain ⟨t, hsa, hrun⟩ := run_cons_eq_some step h
    exact ih (hst s a t hs hg.1 hsa) (hg.2 t hsa) hrun

theorem run_invariant {Inv : σ → Prop} (hstep : ∀ s a t, Inv s → step s a = some t → Inv t)
    {s u : σ} {as} (hs : Inv s) (h : run step s as = some u) : Inv u :=
  run_invariant_of_stepsMeet step (fun s a t hi _ => hstep s a t hi) hs
    (stepsMeet_of_forall step (fun _ _ _ => trivial) s) h

/-- What a step raises by one at most, a run raises by its length at most. -/
theorem run_le_length {count : σ → Nat}
    (hstep : ∀ s a t, step s a = some t → count t ≤ count s + 1) {s u : σ} {as}
    (h : run step s as = some u) : count u ≤ count s + as.length := by
  induction as generalizing s with
  | nil => exact Nat.le_of_eq (congrArg count (Option.some.inj h).symm)
  | cons a as ih =>
    obtain ⟨t, ht, hrun⟩ := run_cons_eq_some step h
    have hle := ih hrun
    have hone := hstep s a t ht
    rw [List.length_cons]
    omega

end Lore.Lib
