import Mathlib.Algebra.GroupWithZero.Nat
import Mathlib.Order.Lattice

/-!
# CycleGuard — the cycle guard of a walk along siblings

The guard compares each node with one snapshot, and takes a new one each time its window ends.
The window doubles each time, so one at least as long as the cycle comes to start inside it.
-/

namespace Lore.State

structure InvalidNodeHierarchy where
  node : Nat
  expectedParent : Nat
  actualParent : Nat
deriving DecidableEq, Repr

/-- `SiblingCycleGuard`. The counters are exact; that they fit 32 bits is proved. -/
structure SiblingCycleGuard where
  parentNodeId : Nat
  snapshot : Option Nat
  steps : Nat
  window : Nat
deriving DecidableEq, Repr

namespace SiblingCycleGuard

def new (parentNodeId : Nat) : SiblingCycleGuard := ⟨parentNodeId, none, 0, 1⟩

def observe (guard : SiblingCycleGuard) (nodeId : Nat) :
    Except InvalidNodeHierarchy SiblingCycleGuard :=
  if guard.snapshot = some nodeId then .error ⟨nodeId, guard.parentNodeId, nodeId⟩
  else
    let guard :=
      if guard.steps = guard.window then
        { guard with
          snapshot := some nodeId
          steps := 0
          window := min (guard.window * 2) (2 ^ 32 - 1) }
      else guard
    .ok { guard with steps := guard.steps + 1 }

/-- A new guard once the first `n` nodes of the chain are observed. -/
def observeFirst (parent : Nat) (chain : Nat → Nat) :
    (n : Nat) → Except InvalidNodeHierarchy SiblingCycleGuard
  | 0 => .ok (new parent)
  | n + 1 => do (← observeFirst parent chain n).observe (chain n)

variable {parent : Nat} {chain : Nat → Nat} {n k : Nat} {guard after : SiblingCycleGuard}

theorem observe_eq_ok {node : Nat} (h : guard.observe node = .ok after) :
    (guard.steps = guard.window ∧ after =
      { guard with
        snapshot := some node, steps := 1, window := min (guard.window * 2) (2 ^ 32 - 1) }) ∨
    guard.steps ≠ guard.window ∧ after = { guard with steps := guard.steps + 1 } := by
  unfold observe at h
  split at h
  · cases h
  · split at h <;> cases h
    next hend => exact .inl ⟨hend, rfl⟩
    next hgoes => exact .inr ⟨hgoes, rfl⟩

theorem observeFirst_succ (h : observeFirst parent chain n = .ok guard) :
    observeFirst parent chain (n + 1) = guard.observe (chain n) := by
  rw [observeFirst, h]
  rfl

theorem exists_of_observeFirst_succ (h : observeFirst parent chain (n + 1) = .ok after) :
    ∃ guard, observeFirst parent chain n = .ok guard ∧ guard.observe (chain n) = .ok after := by
  cases hb : observeFirst parent chain n with
  | error e =>
    rw [observeFirst, hb] at h
    cases h
  | ok guard => exact ⟨guard, rfl, observeFirst_succ hb ▸ h⟩

/-- The counters are in bounds, and the snapshot is a node observed before. -/
structure Sound (chain : Nat → Nat) (n : Nat) (guard : SiblingCycleGuard) : Prop where
  steps : guard.steps ≤ guard.window
  window : 0 < guard.window ∧ guard.window < 2 ^ 32
  snapshot : ∀ node, guard.snapshot = some node → ∃ i < n, node = chain i

theorem sound_observeFirst (n : Nat) (h : observeFirst parent chain n = .ok guard) :
    Sound chain n guard := by
  induction n generalizing guard with
  | zero =>
    cases h
    exact ⟨Nat.zero_le _, ⟨Nat.one_pos, by simp [new]⟩, nofun⟩
  | succ n ih =>
    obtain ⟨before, hb, ho⟩ := exists_of_observeFirst_succ h
    obtain ⟨hs, hw, hsn⟩ := ih hb
    rcases observe_eq_ok ho with ⟨hend, rfl⟩ | ⟨hgoes, rfl⟩
    · refine ⟨?_, ?_, ?_⟩
      · simp only
        omega
      · simp only
        omega
      · intro node hn
        exact ⟨n, Nat.lt_succ_self n, (Option.some.inj hn).symm⟩
    · refine ⟨?_, hw, ?_⟩
      · simp only
        omega
      · intro node hn
        obtain ⟨i, hi, rfl⟩ := hsn node hn
        exact ⟨i, Nat.lt_succ_of_lt hi, rfl⟩

/-- The window is the power of two at or below the number observed, and the snapshot the node it
started with; the first window has none. -/
structure Doubling (chain : Nat → Nat) (n k : Nat) (guard : SiblingCycleGuard) : Prop where
  window : guard.window = 2 ^ k
  steps : guard.steps + 2 ^ k = n + 1
  started : 2 ^ k ≤ n
  ends : n < 2 ^ (k + 1)
  snapshot : k ≠ 0 → guard.snapshot = some (chain (2 ^ k - 1))

theorem doubling_observeFirst (n : Nat) (hn : n + 1 < 2 ^ 32)
    (h : observeFirst parent chain (n + 1) = .ok guard) : ∃ k, Doubling chain (n + 1) k guard := by
  induction n generalizing guard with
  | zero =>
    cases h
    exact ⟨0, rfl, rfl, Nat.le_refl 1, by decide, (absurd rfl)⟩
  | succ n ih =>
    obtain ⟨before, hb, ho⟩ := exists_of_observeFirst_succ h
    obtain ⟨k, hw, hs, hst, he, hsn⟩ := ih (by omega) hb
    rcases observe_eq_ok ho with ⟨hend, rfl⟩ | ⟨hgoes, rfl⟩
    · have hlast : n + 1 + 1 = 2 ^ (k + 1) := by omega
      refine ⟨k + 1, ?_, ?_, Nat.le_of_eq hlast.symm, ?_, ?_⟩
      · simp only
        omega
      · simp only
        omega
      · omega
      · intro _
        rw [← hlast]
        rfl
    · refine ⟨k, hw, ?_, ?_, ?_, hsn⟩
      · simp only
        omega
      · omega
      · omega

/-- Along a chain that comes round, the snapshot that starts the window meets itself. -/
theorem caught {tail cycle : Nat} (hpos : 0 < cycle)
    (hround : ∀ i, tail ≤ i → chain (i + cycle) = chain i) (hk : k ≠ 0) (hc : cycle ≤ 2 ^ k)
    (ht : tail < 2 ^ k) (hn : 2 ^ k + cycle < 2 ^ 32) :
    ∃ e, observeFirst parent chain (2 ^ k + cycle) = .error e := by
  cases hok : observeFirst parent chain (2 ^ k + cycle) with
  | error e => exact ⟨e, rfl⟩
  | ok guard =>
    obtain ⟨n, hlast⟩ : ∃ n, 2 ^ k + cycle = n + 1 + 1 := ⟨2 ^ k + cycle - 2, by omega⟩
    rw [hlast] at hok
    obtain ⟨before, hb, ho⟩ := exists_of_observeFirst_succ hok
    obtain ⟨j, hj⟩ := doubling_observeFirst n (by omega) hb
    -- the window is the one the snapshot started
    obtain rfl : j = k := by
      have hlt : j < k + 1 := (Nat.pow_lt_pow_iff_right (by decide)).mp
        (Nat.lt_of_le_of_lt hj.started (by omega))
      have hlt' : k < j + 1 := (Nat.pow_lt_pow_iff_right (by decide)).mp
        (Nat.lt_of_le_of_lt (by omega) hj.ends)
      omega
    have hmeets : chain (n + 1) = chain (2 ^ j - 1) := by
      rw [← hround (2 ^ j - 1) (by omega)]
      congr 1
      omega
    rw [observe, hmeets, if_pos (hj.snapshot hk)] at ho
    cases ho

end SiblingCycleGuard

open SiblingCycleGuard

/-- A chain that comes round is caught within three times its length, one without a repeated node
never is, and the counters stay within 32 bits. -/
theorem cycle_guard_catches_cycles (parent : Nat) (chain : Nat → Nat) :
    (∀ tail cycle, 0 < cycle → tail + cycle < 2 ^ 31 →
      (∀ i, tail ≤ i → chain (i + cycle) = chain i) →
      ∃ n ≤ 3 * (tail + cycle), ∃ e, observeFirst parent chain n = .error e) ∧
    (∀ n, (∀ i < n, ∀ j < i, chain j ≠ chain i) →
      ∃ guard, observeFirst parent chain n = .ok guard) ∧
    ∀ n guard, observeFirst parent chain n = .ok guard →
      guard.steps < 2 ^ 32 ∧ guard.window < 2 ^ 32 := by
  refine ⟨?_, ?_, ?_⟩
  · intro tail cycle hpos hlen hround
    -- the first window as long as the tail and the cycle
    generalize hs : tail + cycle - 1 = last
    have hlt : last < 2 ^ (last.log2 + 1) := Nat.lt_log2_self
    have hle : 2 ^ last.log2 ≤ max last 1 ∧ 2 ^ last.log2 ≤ 2 ^ 30 := by
      by_cases hz : last = 0
      · rw [hz]
        decide
      · refine ⟨Nat.le_trans (Nat.log2_self_le hz) (Nat.le_max_left _ _), ?_⟩
        have hlog : last.log2 < 31 := (Nat.log2_lt hz).mpr (by omega)
        exact Nat.pow_le_pow_right (by decide) (by omega)
    refine ⟨2 ^ (last.log2 + 1) + cycle, by omega, ?_⟩
    exact caught hpos hround (Nat.succ_ne_zero _) (by omega) (by omega) (by omega)
  · intro n hdis
    induction n with
    | zero => exact ⟨_, rfl⟩
    | succ n ih =>
      obtain ⟨guard, hg⟩ := ih fun i hi => hdis i (by omega)
      rw [observeFirst_succ hg, SiblingCycleGuard.observe, if_neg]
      · exact ⟨_, rfl⟩
      · intro hs
        obtain ⟨i, hi, heq⟩ := (sound_observeFirst n hg).snapshot _ hs
        exact hdis n (Nat.lt_succ_self n) i hi heq.symm
  · intro n guard hok
    have hs := sound_observeFirst n hok
    exact ⟨Nat.lt_of_le_of_lt hs.steps hs.window.2, hs.window.2⟩

end Lore.State
