import Mathlib.Logic.Relation
import Lore.Storage.LockCounts

/-!
# LockNesting — the flock of a mutable store inside the immutable store's

The lock of a mutable store is nested in that of the immutable store it is opened beside
(`StoreLock::new_within`). An acquisition that has to take the inner flock first takes a
guard on the outer lock. The inner `Flock` owns that guard and drops it after its own lock,
once the last reference to it goes. So the guards lent by the outer lock are those of the
inner flock and of inner flocks that are gone (`Nested`), and a process that has the inner
flock holds the outer one (`inner_flock_inside_outer`).
-/

namespace Lore.Storage

open Lore.Lib Function LockProcess

section Frame

variable {n : Nat} {σ : Type}

theorem LockState.dropGuard_held {state : LockState} {span : Bool}
    (h : (state.dropGuard span).held.isSome = true) : state.held.isSome = true := by
  rcases (LockState.released { state with
    active := state.active - 1
    spans := if span then state.spans - 1 else state.spans }).held with ⟨hh, -⟩ | ⟨-, hn⟩
  · rw [LockState.dropGuard, hh] at h
    exact h
  · rw [LockState.dropGuard, hn] at h
    cases h

theorem LockProcess.encloses_of_cancel {process : LockProcess n σ} {gate : Gate n σ}
    (hg : gate = .free ∨ gate = process.cancel.gate)
    (h : ({ process.cancel with gate := gate } : LockProcess n σ).encloses = true) :
    process.encloses = true := by
  rw [encloses, Bool.or_eq_true] at h ⊢
  rcases h with h | h
  · refine .inl ?_
    simp only [cancel] at h
    split at h
    · exact h
    · exact LockState.dropGuard_held h
  · rcases hg with rfl | rfl
    · cases h
    · revert h
      simp only [cancel]
      cases process.gate <;> simp [Gate.encloses]

/-- What an event leaves alone: guards are lent and taken back, holds on the enclosing flock
dropped and begun, by the events for that alone. -/
structure Unlent (process after : LockProcess n σ) (event : LockEvent σ) : Prop where
  lent : (∀ guard, event ≠ .lend guard) → event ≠ .returnLent → after.lent = process.lent
  freed : event ≠ .dropFreed → after.freed = process.freed
  encloses : event ≠ .beginTake → after.encloses = true → process.encloses = true

theorem Unlent.of_eq {process after : LockProcess n σ} {event : LockEvent σ}
    (hl : after.lent = process.lent) (hf : after.freed = process.freed)
    (hh : after.state.held.isSome = true → process.encloses = true)
    (hg : after.gate.encloses = true → process.encloses = true) : Unlent process after event :=
  ⟨fun _ _ => hl, fun _ => hf, fun _ h => (Bool.or_eq_true_iff.mp h).elim hh hg⟩

theorem LockProcess.encloses_of_held {process : LockProcess n σ}
    (h : process.state.held.isSome = true) : process.encloses = true := by
  simp [encloses, h]

theorem LockProcess.encloses_of_gate {process : LockProcess n σ}
    (h : process.gate.encloses = true) : process.encloses = true := by
  simp [encloses, h]

theorem Unlent.handOut {process after : LockProcess n σ} {event acquisition stale}
    (hl : after.lent = process.lent) (hf : after.freed = process.freed)
    (he : process.encloses = true) : Unlent process (after.handOut acquisition stale) event := by
  unfold LockProcess.handOut
  split <;> exact .of_eq hl hf (fun _ => he) (fun _ => he)

variable [DecidableEq σ]

theorem LockProcess.Does.unlent {process after : LockProcess n σ} {event} (h : Counted process)
    (hd : process.Does event after) : Unlent process after event := by
  have hsa := @encloses_of_held n σ process
  have hg := @encloses_of_gate n σ process
  -- Where the gate's holder is counted in, the flock is held.
  have hco : 0 < process.gate.counted → process.encloses = true :=
    fun hpos => hsa (h.held (by have := h.active; omega))
  cases hd with
  | keeps | intoSpan => exact .of_eq rfl rfl hsa hg
  | joins hh | countsIn hh => exact .of_eq rfl rfl (fun _ => hsa hh) (fun _ => hsa hh)
  | goes hc ht ha he =>
    refine ⟨fun _ _ => rfl, fun _ => rfl, fun hne h => ?_⟩
    rcases Bool.or_eq_true_iff.mp h with hh | hga
    · exact hsa hh
    · rcases he hga with heq | hpos | hga
      · exact absurd heq hne
      · exact hco hpos
      · exact hg hga
  | cancels hf =>
    exact ⟨fun _ _ => rfl, fun _ => rfl, fun _ => encloses_of_cancel hf⟩
  | records hc ht he =>
    exact .of_eq rfl rfl hsa fun hga => hg (he hga)
  | handsOut hc => exact .handOut rfl rfl (hco (by omega))
  | holds hta ht he => exact .handOut rfl rfl (hg he)
  | dropsGuard hmem =>
    exact .of_eq rfl rfl (fun hh => hsa (LockState.dropGuard_held hh)) hg
  | @lends guard => exact ⟨fun hne => absurd rfl (hne guard), fun _ => rfl, fun _ => id⟩
  | takesBack hl =>
    refine ⟨fun _ hne => absurd rfl hne, fun _ => rfl, fun _ he => ?_⟩
    exact (Bool.or_eq_true_iff.mp he).elim (fun hh => hsa (LockState.dropGuard_held hh)) hg
  | dropsFreed => exact ⟨fun _ _ => rfl, (absurd rfl), fun _ => id⟩
  | releases =>
    refine .of_eq rfl rfl (fun hh => hsa ?_) hg
    rcases process.state.released.held with ⟨heq, -⟩ | ⟨-, hn⟩
    · exact heq ▸ hh
    · rw [hn] at hh
      cases hh

end Frame

/-! ## The two directories -/

/-- The immutable store's directory and the mutable store's, with the processes that use
them. -/
structure NestedWorld (n : Nat) (σ τ : Type) where
  outer : LockWorld n σ
  inner : LockWorld n τ

inductive NestedAction (n : Nat) (σ τ : Type) where
  | outer (action : LockAction n σ)
  | inner (action : LockAction n τ)
  /-- An acquisition of the inner lock that finds nothing held goes on to take the flock, with
  the guard on the outer lock that it acquired for it. -/
  | enclose (p : Fin n) (guard : StoreGuard σ)
  /-- The guard of an inner flock that is gone is dropped. -/
  | dropEnclosing (p : Fin n)
  | crash (p : Fin n)

/-- What the outer lock does with no inner flock involved. -/
def LockAction.isOuter {n : Nat} {σ : Type} : LockAction n σ → Bool
  | .act _ (.lend _) | .act _ .returnLent | .crash _ => false
  | _ => true

/-- What the inner lock does with no guard on the outer lock involved. -/
def LockAction.isInner {n : Nat} {σ : Type} : LockAction n σ → Bool
  | .act _ .beginTake | .act _ .dropFreed | .crash _ => false
  | _ => true

namespace NestedWorld

variable {n : Nat} {σ τ : Type} [DecidableEq σ] [DecidableEq τ]

def step (world : NestedWorld n σ τ) : NestedAction n σ τ → Option (NestedWorld n σ τ)
  | .outer action =>
      if action.isOuter then
        (world.outer.step action).map fun outer => { world with outer := outer }
      else none
  | .inner action =>
      if action.isInner then
        (world.inner.step action).map fun inner => { world with inner := inner }
      else none
  | .enclose p guard => do
      let outer ← world.outer.step (.act p (.lend guard))
      let inner ← world.inner.step (.act p .beginTake)
      some ⟨outer, inner⟩
  | .dropEnclosing p => do
      let inner ← world.inner.step (.act p .dropFreed)
      let outer ← world.outer.step (.act p .returnLent)
      some ⟨outer, inner⟩
  | .crash p => do
      let outer ← world.outer.step (.crash p)
      let inner ← world.inner.step (.crash p)
      some ⟨outer, inner⟩

end NestedWorld

/-- The process has the directory's flock. -/
def LockWorld.Holds {n : Nat} {σ : Type} (world : LockWorld n σ) (p : Fin n) : Prop :=
  (world.processes p).flocks ≠ []

/-- The process waits for the flock on this lock file. -/
def LockWorld.WaitsOn {n : Nat} {σ : Type} (world : LockWorld n σ) (p : Fin n) (file : Nat) : Prop :=
  ∃ acquisition recreated, (world.processes p).gate = .polling acquisition file recreated

/-- The process waits for a flock that the other one has. -/
def LockWorld.WaitsFor {n : Nat} {σ : Type} (world : LockWorld n σ) (p q : Fin n) : Prop :=
  ∃ file, world.WaitsOn p file ∧ ∃ flock ∈ (world.processes q).flocks, flock.file = file

/-- The process waits, on either directory, for a flock that the other one has. -/
def NestedWorld.WaitsFor {n : Nat} {σ τ : Type} (world : NestedWorld n σ τ) (p q : Fin n) : Prop :=
  world.outer.WaitsFor p q ∨ world.inner.WaitsFor p q

/-! ## The guards lent -/

section Nested

variable {n : Nat} {σ τ : Type}

/-- What the process owes of holds on the enclosing flock. -/
def LockProcess.owed (process : LockProcess n τ) : Nat :=
  process.freed + if process.encloses then 1 else 0

@[simp] theorem LockProcess.passOn_lent (before after : LockProcess n σ) :
    (before.passOn after).lent = after.lent := by
  unfold LockProcess.passOn
  split <;> rfl

theorem LockProcess.passOn_of_not {before after : LockProcess n σ} (h : before.encloses = false) :
    before.passOn after = after := by
  simp [passOn, h]

/-- A hold that is no longer kept for a flock is one to be dropped. -/
theorem LockProcess.owed_passOn {before after : LockProcess n τ} (hf : after.freed = before.freed)
    (he : after.encloses = true → before.encloses = true) :
    (before.passOn after).owed = before.owed := by
  unfold passOn
  split
  next hg =>
    obtain ⟨hb, ha⟩ := Bool.and_eq_true_iff.mp hg
    have hnot : after.encloses = false := by simpa using ha
    have hsa : ({ after with freed := after.freed + 1 } : LockProcess n τ).encloses = false := hnot
    simp only [owed, hsa, hb, if_true, Bool.false_eq_true, if_false]
    omega
  next hg =>
    rw [owed, owed, hf]
    by_cases ha : after.encloses = true
    · rw [ha, he ha]
    · have hb : before.encloses = false := by
        by_contra hb
        exact hg (by simp_all)
      rw [eq_false_of_ne_true ha, hb]

/-- The guards the outer lock lent to a process are those of its inner flock, or of the one
it takes, and of the inner flocks that are gone. -/
structure Nested (world : NestedWorld n σ τ) : Prop where
  outer : ∀ p, Counted (world.outer.processes p)
  inner : ∀ p, Counted (world.inner.processes p)
  lent : ∀ p, (world.outer.processes p).lent = (world.inner.processes p).owed

theorem Nested.outer_held {world : NestedWorld n σ τ} (h : Nested world) {p : Fin n}
    (he : (world.inner.processes p).encloses = true) :
    (world.outer.processes p).state.held.isSome = true := by
  have hl := h.lent p
  rw [owed, if_pos he] at hl
  have ha := (h.outer p).active
  exact (h.outer p).held (by omega)

/-- The flock of a process is held, or it is one it keeps a hold on the enclosing flock for. -/
theorem Counted.encloses_of_flocks {process : LockProcess n τ} (h : Counted process)
    (hf : process.flocks ≠ []) : process.encloses = true := by
  rw [encloses, Bool.or_eq_true]
  by_cases hh : process.state.held.isSome = true
  · exact .inl hh
  · right
    have hn : process.state.held = none := Option.not_isSome_iff_eq_none.mp hh
    rw [flocks, hn] at hf
    cases hg : process.gate with
    | joined acquisition stale advance known =>
      have ha := h.active
      rw [hg] at ha
      exact absurd (h.held (by simp only [Gate.counted] at ha; omega)) hh
    | reading | writing => rfl
    | landed acquisition taken awaited flock stamp stale
    | recorded acquisition taken flock stale =>
      rw [hg] at hf
      simp only [Gate.flocks] at hf
      split at hf
      next ht => exact ht
      next => exact absurd rfl hf
    | _ =>
      rw [hg] at hf
      exact absurd rfl hf

theorem Counted.not_waits {process : LockProcess n σ} (h : Counted process)
    {acquisition : Acquisition σ} {file : Nat} {recreated : Bool}
    (hg : process.gate = .polling acquisition file recreated) :
    process.state.held = none ∧ process.flocks = [] := by
  have hn : process.state.held = none := h.taking (by rw [hg]; rfl)
  exact ⟨hn, by rw [flocks, hn, hg]; rfl⟩

variable [DecidableEq σ] [DecidableEq τ]

theorem LockWorld.step_act {world after : LockWorld n σ} {p : Fin n} {event : LockEvent σ}
    (h : world.step (.act p event) = some after) :
    ∃ effect, (world.processes p).act world.unlocked p world.directory event = some effect ∧
      after.processes = update world.processes p
        ((world.processes p).passOn effect.process) := by
  simp only [LockWorld.step, Option.map_eq_some_iff] at h
  obtain ⟨effect, hact, rfl⟩ := h
  exact ⟨effect, hact, rfl⟩

section

variable {world after : LockWorld n σ} {action : LockAction n σ}
  (h : ∀ p, Counted (world.processes p))
include h

theorem counted_step (hst : world.step action = some after) (p : Fin n) :
    Counted (after.processes p) := by
  cases action with
  | act q event =>
    obtain ⟨effect, hact, ha⟩ := LockWorld.step_act hst
    rw [ha]
    by_cases hp : p = q
    · subst hp
      rw [update_self]
      exact ((h p).does (act_does hact)).passOn
    · rw [update_of_ne hp]
      exact h p
  | crash q =>
    cases hst
    by_cases hp : p = q
    · subst hp
      simp only [update_self]
      exact .initial
    · simp only [update_of_ne hp]
      exact h p
  | delete | recreate => cases hst; exact h p

theorem lent_step (ho : action.isOuter = true) (hst : world.step action = some after)
    (p : Fin n) : (after.processes p).lent = (world.processes p).lent := by
  cases action with
  | act q event =>
    obtain ⟨effect, hact, ha⟩ := LockWorld.step_act hst
    rw [ha]
    by_cases hp : p = q
    · subst hp
      rw [update_self]
      have hl : effect.process.lent = (world.processes p).lent :=
        ((act_does hact).unlent (h p)).lent (fun guard heq => by subst heq; exact nomatch ho)
          (fun heq => by subst heq; exact nomatch ho)
      rw [passOn_lent, hl]
    · rw [update_of_ne hp]
  | crash q => cases ho
  | delete | recreate => cases hst; rfl

end

theorem owed_step {world after : LockWorld n τ} {action : LockAction n τ}
    (h : ∀ p, Counted (world.processes p)) (hi : action.isInner = true)
    (hst : world.step action = some after) (p : Fin n) :
    (after.processes p).owed = (world.processes p).owed := by
  cases action with
  | act q event =>
    obtain ⟨effect, hact, ha⟩ := LockWorld.step_act hst
    rw [ha]
    by_cases hp : p = q
    · subst hp
      rw [update_self]
      have hu := (act_does hact).unlent (h p)
      exact owed_passOn (hu.freed fun heq => by subst heq; exact nomatch hi)
        (hu.encloses fun heq => by subst heq; exact nomatch hi)
    · rw [update_of_ne hp]
  | crash q => cases hi
  | delete | recreate => cases hst; rfl

theorem Nested.step {world after : NestedWorld n σ τ} (h : Nested world)
    {action : NestedAction n σ τ} (hst : world.step action = some after) : Nested after := by
  cases action with
  | outer action =>
    simp only [NestedWorld.step] at hst
    split at hst
    next ho =>
      obtain ⟨outer, ho', rfl⟩ := Option.map_eq_some_iff.mp hst
      exact ⟨counted_step h.outer ho', h.inner,
        fun p => (lent_step h.outer ho ho' p).trans (h.lent p)⟩
    next => cases hst
  | inner action =>
    simp only [NestedWorld.step] at hst
    split at hst
    next hi =>
      obtain ⟨inner, hi', rfl⟩ := Option.map_eq_some_iff.mp hst
      exact ⟨h.outer, counted_step h.inner hi',
        fun p => (h.lent p).trans (owed_step h.inner hi hi' p).symm⟩
    next => cases hst
  | enclose p guard =>
    obtain ⟨outer, ho, hst⟩ := Option.bind_eq_some_iff.mp hst
    obtain ⟨inner, hi, hst⟩ := Option.bind_eq_some_iff.mp hst
    cases hst
    refine ⟨counted_step h.outer ho, counted_step h.inner hi, fun q => ?_⟩
    obtain ⟨lent, hl, ho⟩ := LockWorld.step_act ho
    obtain ⟨begun, hb, hi⟩ := LockWorld.step_act hi
    simp only [ho, hi]
    by_cases hq : q = p
    · subst hq
      rw [update_self, update_self]
      simp only [act] at hl hb
      split at hl
      next =>
        cases hl
        split at hb
        next acquisition hg hn =>
          cases hb
          have how := h.lent q
          have hnot : (world.inner.processes q).encloses = false := by
            simp [encloses, hn, hg, Gate.encloses]
          have hbe : ({ (world.inner.processes q) with gate := .opening acquisition false } :
              LockProcess n τ).encloses = true := by simp [encloses, Gate.encloses]
          rw [owed, hnot] at how
          rw [passOn_lent, passOn_of_not hnot, owed, hbe]
          exact congrArg (· + 1) how
        next => cases hb
      next => cases hl
    · rw [update_of_ne hq, update_of_ne hq]
      exact h.lent q
  | dropEnclosing p =>
    obtain ⟨inner, hi, hst⟩ := Option.bind_eq_some_iff.mp hst
    obtain ⟨outer, ho, hst⟩ := Option.bind_eq_some_iff.mp hst
    cases hst
    refine ⟨counted_step h.outer ho, counted_step h.inner hi, fun q => ?_⟩
    obtain ⟨returned, hr, ho⟩ := LockWorld.step_act ho
    obtain ⟨dropped, hd, hi⟩ := LockWorld.step_act hi
    simp only [ho, hi]
    by_cases hq : q = p
    · subst hq
      rw [update_self, update_self]
      simp only [act] at hr hd
      split at hr
      next hl =>
        cases hr
        split at hd
        next hf =>
          cases hd
          have how := h.lent q
          have hsa : ({ (world.inner.processes q) with
              freed := (world.inner.processes q).freed - 1 } : LockProcess n τ).encloses =
            (world.inner.processes q).encloses := rfl
          rw [owed] at how
          rw [passOn_lent, passOn, hsa, Bool.and_not_self, if_neg Bool.false_ne_true, owed, hsa]
          show (world.outer.processes q).lent - 1 = (world.inner.processes q).freed - 1 + _
          omega
        next => cases hd
      next => cases hr
    · rw [update_of_ne hq, update_of_ne hq]
      exact h.lent q
  | crash p =>
    simp only [NestedWorld.step] at hst
    obtain ⟨outer, ho, hst⟩ := Option.bind_eq_some_iff.mp hst
    obtain ⟨inner, hi, hst⟩ := Option.bind_eq_some_iff.mp hst
    cases hst
    refine ⟨counted_step h.outer ho, counted_step h.inner hi, fun q => ?_⟩
    cases ho
    cases hi
    by_cases hq : q = p
    · subst hq
      simp only [update_self]
      rfl
    · simp only [update_of_ne hq]
      exact h.lent q

/-- In every state the two locks reach: a process that has the inner flock has the outer one,
it does not wait for the outer one then, and no processes wait for each other in a circle. -/
theorem inner_flock_inside_outer {initial world : NestedWorld n σ τ}
    {actions : List (NestedAction n σ τ)} (houter : initial.outer.Initial)
    (hinner : initial.inner.Initial) (hrun : run NestedWorld.step initial actions = some world) :
    (∀ p, world.inner.Holds p → world.outer.Holds p) ∧
      (∀ p file, world.inner.Holds p → ¬ world.outer.WaitsOn p file) ∧
      ∀ p, ¬ Relation.TransGen world.WaitsFor p p := by
  have hst : Nested initial := by
    refine ⟨fun p => ?_, fun p => ?_, fun p => ?_⟩
    · rw [houter.processes]; exact .initial
    · rw [hinner.processes]; exact .initial
    · rw [houter.processes, hinner.processes]; rfl
  have hn : Nested world :=
    run_invariant NestedWorld.step (fun _ _ _ h hste => h.step hste) hst hrun
  have hhe : ∀ p, world.inner.Holds p → (world.outer.processes p).state.held.isSome = true :=
    fun p hh => hn.outer_held ((hn.inner p).encloses_of_flocks hh)
  have hw : ∀ p file, world.inner.Holds p → ¬ world.outer.WaitsOn p file := by
    rintro p file hh ⟨acquisition, recreated, hg⟩
    have hno := ((hn.outer p).not_waits hg).1
    have hso := hhe p hh
    rw [hno] at hso
    cases hso
  refine ⟨fun p hh => ?_, hw, ?_⟩
  · obtain ⟨flock, hf⟩ := Option.isSome_iff_exists.mp (hhe p hh)
    simp [LockWorld.Holds, flocks, hf]
  · -- Who waits for the outer flock is waited for by nobody, who waits for the inner one only
    -- for the outer one, and who has the inner one waits for neither.
    have hiI : ∀ p q, world.inner.Holds p → ¬ world.WaitsFor p q := by
      rintro p q hh (⟨file, hwa, -⟩ | ⟨file, ⟨acquisition, recreated, hg⟩, -⟩)
      · exact hw p file hh hwa
      · exact hh ((hn.inner p).not_waits hg).2
    have hc : ∀ p q r, world.WaitsFor p q → world.WaitsFor q r → ¬ ∃ s, world.WaitsFor r s := by
      rintro p q r hpq hqr ⟨s, hrs⟩
      rcases hqr with ⟨file, ⟨acquisition, recreated, hg⟩, -⟩ | ⟨file, -, flock, hf, -⟩
      · -- `q` waits for the outer flock, so it has neither.
        obtain ⟨hno, he⟩ := (hn.outer q).not_waits hg
        rcases hpq with ⟨_, -, flock, hf, -⟩ | ⟨_, -, flock, hf, -⟩
        · rw [he] at hf
          exact absurd hf List.not_mem_nil
        · have hso := hhe q (List.ne_nil_of_mem hf)
          rw [hno] at hso
          cases hso
      · exact hiI r s (List.ne_nil_of_mem hf) hrs
    intro p hcy
    obtain ⟨q, hpq, hqp⟩ := Relation.TransGen.head'_iff.mp hcy
    have hne : ∀ a, Relation.ReflTransGen world.WaitsFor a p → ∃ b, world.WaitsFor a b := by
      intro a ha
      rcases Relation.ReflTransGen.cases_head ha with rfl | ⟨b, hab, -⟩
      · exact ⟨q, hpq⟩
      · exact ⟨b, hab⟩
    rcases Relation.ReflTransGen.cases_head hqp with rfl | ⟨r, hqr, hrp⟩
    · exact hc q q q hpq hpq ⟨q, hpq⟩
    · exact hc p q r hpq hqr (hne r hrp)

end Nested

/-- A directory nothing was written to, and processes that have not opened it. -/
def LockWorld.unused (n : Nat) (σ : Type) : LockWorld n σ :=
  ⟨⟨true, 0, .absent, [], 0, []⟩, fun _ => .initial, []⟩

theorem LockWorld.unused_initial (n : Nat) (σ : Type) : (LockWorld.unused n σ).Initial :=
  ⟨fun _ => rfl, rfl, rfl, (nomatch ·), fun _ h => nomatch h⟩

/-- A process opens both stores and reads the mutable one, while another comes to wait for the
flock of the immutable one. -/
def openBoth : List (NestedAction 2 Unit Unit) :=
  let acquisition : Acquisition Unit := ⟨(), .read, .wait⟩
  [.outer (.act 0 (.openStore () false false)), .outer (.act 1 (.openStore () false false)),
    .outer (.act 0 (.enter acquisition)), .outer (.act 1 (.enter acquisition)),
    .outer (.act 0 .beginTake), .outer (.act 1 .beginTake), .outer (.act 1 .openLockFile),
    .outer (.act 0 .openLockFile), .outer (.act 0 .pollFlock),
    .outer (.act 0 (.readEpoch true 0)),
    .inner (.act 0 (.openStore () false true)), .inner (.act 0 (.enter acquisition)),
    .enclose 0 ⟨(), .read, false⟩, .inner (.act 0 .openLockFile), .inner (.act 0 .pollFlock),
    .inner (.act 0 (.readEpoch true 0))]

theorem inner_flock_inside_outer_waited :
    ∃ world, run NestedWorld.step ⟨.unused 2 Unit, .unused 2 Unit⟩ openBoth = some world ∧
      world.inner.Holds 0 ∧ world.outer.Holds 0 ∧ world.WaitsFor 1 0 ∧
      ¬ world.outer.WaitsOn 0 0 ∧ ¬ Relation.TransGen world.WaitsFor 1 1 := by
  have ho : ∃ world, run NestedWorld.step ⟨.unused 2 Unit, .unused 2 Unit⟩ openBoth = some world ∧
      (world.inner.processes 0).flocks = [⟨0⟩] ∧ (world.outer.processes 0).flocks = [⟨0⟩] ∧
      (world.outer.processes 1).gate = .polling ⟨(), .read, .wait⟩ 0 false :=
    ⟨_, rfl, rfl, rfl, rfl⟩
  obtain ⟨world, hrun, hinner, houter, hgate⟩ := ho
  obtain ⟨hinside, hnowait, hnocircle⟩ := inner_flock_inside_outer
    (LockWorld.unused_initial 2 Unit) (LockWorld.unused_initial 2 Unit) hrun
  have hh : world.inner.Holds 0 := by simp [LockWorld.Holds, hinner]
  refine ⟨world, hrun, hh, hinside 0 hh, .inl ⟨0, ⟨_, _, hgate⟩, ⟨0⟩, ?_, rfl⟩, hnowait 0 0 hh,
    hnocircle 1⟩
  rw [houter]
  exact List.mem_singleton_self _

end Lore.Storage
