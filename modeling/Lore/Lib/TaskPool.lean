import Mathlib.Algebra.BigOperators.Group.List.Basic
import Mathlib.Algebra.GroupWithZero.Nat
import Lore.Lib.Machine

/-!
# TaskPool — a walk split into tasks

Each task works through a list: it emits an output, or hands an item to a task of its
own, which works through what the item expands to. `Pool.step` lets any task take its
next turn, so a schedule is any interleaving of the tasks, one task that waits for each
item it hands out included.

Outputs carry a key. `demand item k` lists what an item owes to key `k`; where every key
is owed by one task at a time (`Expands.apart`), the outputs of a key come in the order
`demand` lists them, under every schedule (`Pool.emitted_of_finished`). A weight that
every expansion lowers bounds every schedule (`Pool.run_weight`).
-/

namespace Lore.Lib

open List Option

/-- One turn of a task: put out an output, or hand on an item. -/
inductive Work (π γ : Type) where
  | emit (out : γ)
  | visit (item : π)

/-- The tasks at work, each with the turns it still has, and what was put out so far. -/
structure Pool (π γ : Type) where
  tasks : List (List (Work π γ))
  emitted : List γ

variable {π γ κ : Type} [DecidableEq κ] (expand : π → List (Work π γ))

namespace Pool

/-- One task, handed one item. -/
def start (item : π) : Pool π γ := ⟨[[.visit item]], []⟩

/-- Task `i` takes its next turn. -/
def step (pool : Pool π γ) (i : Nat) : Option (Pool π γ) :=
  match pool.tasks[i]? with
  | some (.emit out :: rest) => some ⟨pool.tasks.set i rest, pool.emitted ++ [out]⟩
  | some (.visit item :: rest) => some ⟨pool.tasks.set i rest ++ [expand item], pool.emitted⟩
  | _ => none

/-- No task has a turn left. -/
def Finished (pool : Pool π γ) : Prop := ∀ task ∈ pool.tasks, task = []

instance (pool : Pool π γ) : Decidable pool.Finished :=
  decidable_of_iff (∀ task ∈ pool.tasks, task.isEmpty = true) (by simp [Finished])

variable {expand}

theorem step_cases {pool pool' i} (h : step expand pool i = some pool') :
    ∃ w rest, pool.tasks[i]? = some (w :: rest) ∧
      ((∃ out, w = .emit out ∧ pool' = ⟨pool.tasks.set i rest, pool.emitted ++ [out]⟩) ∨
        ∃ item, w = .visit item ∧
          pool' = ⟨pool.tasks.set i rest ++ [expand item], pool.emitted⟩) := by
  unfold step at h
  split at h
  next out rest ht =>
    exact ⟨_, rest, ht, .inl ⟨out, rfl, (some.inj h).symm⟩⟩
  next item rest ht =>
    exact ⟨_, rest, ht, .inr ⟨item, rfl, (some.inj h).symm⟩⟩
  next => exact absurd h (by simp)

theorem exists_step {pool} (h : ¬ pool.Finished) : ∃ i pool', step expand pool i = some pool' := by
  unfold Finished at h
  push Not at h
  obtain ⟨task, hmem, hne⟩ := h
  obtain ⟨i, hi⟩ := mem_iff_getElem?.mp hmem
  refine ⟨i, ?_⟩
  unfold step
  rw [hi]
  cases task with
  | nil => exact absurd rfl hne
  | cons w rest => cases w <;> exact ⟨_, rfl⟩

end Pool

/-! ## What is owed to a key -/

section Owed

variable (demand : π → κ → List γ) (key : γ → κ)

/-- The outputs of key `k` a turn leads to. -/
def Work.owed (k : κ) : Work π γ → List γ
  | .emit out => if key out = k then [out] else []
  | .visit item => demand item k

/-- Whether the turn hands an item on. -/
def Work.isVisit : Work π γ → Bool
  | .emit _ => false
  | .visit _ => true

/-- Two turns of one task that may be worked in either order: one of them hands an item
on, and no key is owed by both. -/
def Work.Apart (w w' : Work π γ) : Prop :=
  w.isVisit = true ∨ w'.isVisit = true →
    ∀ k, w.owed demand key k = [] ∨ w'.owed demand key k = []

/-- `demand` is what the expansion of a valid item puts out, key by key, and no key is
owed by two of its turns unless one task puts both out. -/
structure Expands (valid : π → Prop) : Prop where
  demand_eq : ∀ p, valid p → ∀ k, demand p k = (expand p).flatMap (Work.owed demand key k)
  apart : ∀ p, valid p → (expand p).Pairwise (Work.Apart demand key)
  valid_visit : ∀ p, valid p → ∀ q, .visit q ∈ expand p → valid q

end Owed

/-! ## Flat maps over a list of tasks -/

section FlatMap

variable {α : Type} {f : α → List γ} {xs : List α} {i : Nat}

theorem flatMap_set_of_eq {a x : α} (hi : xs[i]? = some a) (hx : f x = f a) :
    (xs.set i x).flatMap f = xs.flatMap f := by
  induction xs generalizing i with
  | nil => rfl
  | cons y ys ih =>
    cases i with
    | zero =>
      obtain rfl : y = a := by simpa using hi
      simp [hx]
    | succ i => simp [ih (by simpa using hi)]

theorem flatMap_of_only {a : α} (hi : xs[i]? = some a)
    (ho : ∀ j, j ≠ i → ∀ b, xs[j]? = some b → f b = []) : xs.flatMap f = f a := by
  induction xs generalizing i with
  | nil => simp at hi
  | cons y ys ih =>
    cases i with
    | zero =>
      obtain rfl : y = a := by simpa using hi
      have hnil : ys.flatMap f = [] := by
        rw [flatMap_eq_nil_iff]
        intro b hb
        obtain ⟨j, hj⟩ := mem_iff_getElem?.mp hb
        exact ho (j + 1) (by omega) b (by simpa using hj)
      rw [flatMap_cons, hnil, append_nil]
    | succ i =>
      have hy : f y = [] := ho 0 (by omega) y rfl
      have hr := ih (i := i) (by simpa using hi)
        (fun j hj b hb => ho (j + 1) (by omega) b (by simpa using hb))
      rw [flatMap_cons, hy, nil_append, hr]

end FlatMap

/-! ## Every schedule puts out what is owed -/

section Invariant

variable (demand : π → κ → List γ) (key : γ → κ) (valid : π → Prop)

/-- What a task still owes to key `k`. -/
def owedBy (k : κ) (task : List (Work π γ)) : List γ := task.flatMap (Work.owed demand key k)

/-- The pool owes `whole k` to every key `k`, and every key to one task at most. -/
structure Pool.Owes (whole : κ → List γ) (pool : Pool π γ) : Prop where
  apart : ∀ task ∈ pool.tasks, task.Pairwise (Work.Apart demand key)
  valid_visit : ∀ task ∈ pool.tasks, ∀ q, .visit q ∈ task → valid q
  alone : ∀ (i j : Nat) a b, i ≠ j → pool.tasks[i]? = some a → pool.tasks[j]? = some b →
    ∀ k, owedBy demand key k a = [] ∨ owedBy demand key k b = []
  total : ∀ k, pool.emitted.filter (key · = k) ++ pool.tasks.flatMap (owedBy demand key k) =
    whole k

variable {demand key valid expand}

theorem Pool.Owes.start {item : π} (hv : valid item) :
    (Pool.start item).Owes demand key valid (demand item) where
  apart := by
    intro task ht
    obtain rfl : task = [.visit item] := by simpa [Pool.start] using ht
    exact pairwise_singleton _ _
  valid_visit := by
    intro task ht q hq
    obtain rfl : task = [.visit item] := by simpa [Pool.start] using ht
    obtain rfl : q = item := by simpa using hq
    exact hv
  alone := by
    intro i j a b hij ha hb
    have hi := (List.getElem?_eq_some_iff.mp ha).1
    have hj := (List.getElem?_eq_some_iff.mp hb).1
    simp only [Pool.start, length_singleton] at hi hj
    omega
  total := by
    intro k
    simp [Pool.start, owedBy, Work.owed]

theorem owedBy_cons (k : κ) (w : Work π γ) (rest : List (Work π γ)) :
    owedBy demand key k (w :: rest) = w.owed demand key k ++ owedBy demand key k rest :=
  flatMap_cons

theorem owedBy_tail {k : κ} {w rest} (h : owedBy demand key k (w :: rest) = []) :
    owedBy demand key k rest = [] := by
  exact (append_eq_nil_iff.mp h).2

variable {whole : κ → List γ} {pool pool' : Pool π γ} {i : Nat} {w : Work π γ}
  {rest : List (Work π γ)}

section

variable (h : pool.Owes demand key valid whole)
include h

theorem Pool.Owes.of_mem_set (hi : pool.tasks[i]? = some (w :: rest)) {task}
    (ht : task ∈ pool.tasks.set i rest) :
    task.Pairwise (Work.Apart demand key) ∧ ∀ q, .visit q ∈ task → valid q := by
  rcases mem_or_eq_of_mem_set ht with hmem | rfl
  · exact ⟨h.apart task hmem, h.valid_visit task hmem⟩
  · have hmem := mem_of_getElem? hi
    exact ⟨(h.apart _ hmem).tail, fun q hq => h.valid_visit _ hmem q (mem_cons_of_mem _ hq)⟩

theorem Pool.Owes.alone_set
    (hi : pool.tasks[i]? = some (w :: rest)) (a b : List (Work π γ)) (n m : Nat) (hnm : n ≠ m)
    (ha : (pool.tasks.set i rest)[n]? = some a) (hb : (pool.tasks.set i rest)[m]? = some b)
    (k : κ) : owedBy demand key k a = [] ∨ owedBy demand key k b = [] := by
  have hbe : ∀ (n : Nat) a, (pool.tasks.set i rest)[n]? = some a →
      ∃ a', pool.tasks[n]? = some a' ∧ (owedBy demand key k a' = [] → owedBy demand key k a = []) := by
    intro n a ha
    by_cases hn : i = n
    · subst hn
      have hlt := (List.getElem?_eq_some_iff.mp hi).1
      rw [getElem?_set_self hlt, some.injEq] at ha
      subst ha
      exact ⟨_, hi, owedBy_tail⟩
    · rw [getElem?_set_ne hn] at ha
      exact ⟨a, ha, id⟩
  obtain ⟨a', ha', hnil⟩ := hbe n a ha
  obtain ⟨b', hb', hnil'⟩ := hbe m b hb
  exact (h.alone n m a' b' hnm ha' hb' k).imp hnil hnil'

theorem Pool.Owes.emit {out : γ} (hi : pool.tasks[i]? = some (.emit out :: rest)) :
    Pool.Owes demand key valid whole ⟨pool.tasks.set i rest, pool.emitted ++ [out]⟩ where
  apart _ ht := (h.of_mem_set hi ht).1
  valid_visit _ ht := (h.of_mem_set hi ht).2
  alone := fun n m a b hnm ha hb => h.alone_set hi a b n m hnm ha hb
  total := by
    intro k
    rw [← h.total k]
    by_cases hkey : key out = k
    · -- The task owes the key, so no other does, before and after.
      have how : owedBy demand key k (.emit out :: rest) ≠ [] := by
        simp [owedBy_cons, Work.owed, hkey]
      have hlt := (List.getElem?_eq_some_iff.mp hi).1
      have ho : ∀ (j : Nat), j ≠ i → ∀ b, pool.tasks[j]? = some b → owedBy demand key k b = [] := by
        intro j hj b hb
        exact (h.alone i j _ b (Ne.symm hj) hi hb k).resolve_left how
      rw [flatMap_of_only hi ho,
        flatMap_of_only (getElem?_set_self hlt) (fun j hj b hb => ho j hj b (by
          rwa [getElem?_set_ne (Ne.symm hj)] at hb)),
        owedBy_cons]
      simp [Work.owed, hkey]
    · rw [flatMap_set_of_eq hi (by simp [owedBy_cons, Work.owed, hkey])]
      simp [hkey]

variable (hexpand : Expands expand demand key valid)
include hexpand

theorem Pool.Owes.visit {item : π} (hi : pool.tasks[i]? = some (.visit item :: rest)) :
    Pool.Owes demand key valid whole ⟨pool.tasks.set i rest ++ [expand item], pool.emitted⟩ := by
  have hlt := (List.getElem?_eq_some_iff.mp hi).1
  have hmem := mem_of_getElem? hi
  have hv := h.valid_visit _ hmem item mem_cons_self
  have hd : ∀ k, owedBy demand key k (expand item) = demand item k :=
    fun k => (hexpand.demand_eq item hv k).symm
  -- The item and the turns left in its task owe no key together.
  have hr : ∀ k, demand item k = [] ∨ owedBy demand key k rest = [] := by
    intro k
    by_cases hnil : demand item k = []
    · exact .inl hnil
    · refine .inr (flatMap_eq_nil_iff.mpr ?_)
      intro w hw
      have hap := (pairwise_cons.mp (h.apart _ hmem)).1 w hw
      exact (hap (.inl rfl) k).resolve_left hnil
  have ho : ∀ (j : Nat) b, j ≠ i → pool.tasks[j]? = some b →
      ∀ k, demand item k = [] ∨ owedBy demand key k b = [] := by
    intro j b hj hb k
    refine (h.alone i j _ b (Ne.symm hj) hi hb k).imp_left fun hnil => ?_
    exact (append_eq_nil_iff.mp hnil).1
  have hset : ∀ (j : Nat) b, (pool.tasks.set i rest)[j]? = some b →
      ∀ k, demand item k = [] ∨ owedBy demand key k b = [] := by
    intro j b hb k
    by_cases hj : i = j
    · subst hj
      rw [getElem?_set_self hlt, some.injEq] at hb
      exact hb ▸ hr k
    · rw [getElem?_set_ne hj] at hb
      exact ho j b (Ne.symm hj) hb k
  refine ⟨?_, ?_, ?_, ?_⟩
  · intro task ht
    rcases mem_append.mp ht with ht | ht
    · exact (h.of_mem_set hi ht).1
    · obtain rfl := mem_singleton.mp ht
      exact hexpand.apart item hv
  · intro task ht
    rcases mem_append.mp ht with ht | ht
    · exact (h.of_mem_set hi ht).2
    · obtain rfl := mem_singleton.mp ht
      exact hexpand.valid_visit item hv
  · intro n m a b hnm ha hb k
    rw [getElem?_append] at ha hb
    split at ha
    · split at hb
      · exact h.alone_set hi a b n m hnm ha hb k
      · obtain rfl : expand item = b := by
          simpa using (mem_singleton.mp (mem_of_getElem? hb)).symm
        rw [hd]
        exact (hset n a ha k).symm
    · obtain rfl : expand item = a := by
        simpa using (mem_singleton.mp (mem_of_getElem? ha)).symm
      split at hb
      · rw [hd]
        exact hset m b hb k
      · have hn := (List.getElem?_eq_some_iff.mp ha).1
        have hm := (List.getElem?_eq_some_iff.mp hb).1
        simp only [length_singleton] at hn hm
        omega
  · intro k
    rw [← h.total k]
    simp only [flatMap_append, flatMap_cons, flatMap_nil, append_nil, hd]
    by_cases hnil : demand item k = []
    · rw [hnil, append_nil, flatMap_set_of_eq hi (by simp [owedBy_cons, Work.owed, hnil])]
    · -- The item owes the key, so it is all the task owes and no other task owes any.
      have hl : (pool.tasks.set i rest).flatMap (owedBy demand key k) = [] := by
        rw [flatMap_eq_nil_iff]
        intro task ht
        obtain ⟨j, hj⟩ := mem_iff_getElem?.mp ht
        exact (hset j task hj k).resolve_left hnil
      rw [hl, flatMap_of_only hi (fun j hj b hb => (ho j b hj hb k).resolve_left hnil),
        owedBy_cons, (hr k).resolve_left hnil]
      simp [Work.owed]

theorem Pool.Owes.step (hst : pool.step expand i = some pool') : pool'.Owes demand key valid whole := by
  obtain ⟨w, rest, hi, ⟨out, rfl, rfl⟩ | ⟨item, rfl, rfl⟩⟩ := Pool.step_cases hst
  · exact h.emit hi
  · exact h.visit hexpand hi

omit h in
/-- Whatever the schedule, a finished walk has put out, key by key, what its item owed. -/
theorem Pool.emitted_of_finished {item : π} (hv : valid item) {schedule}
    (hrun : run (Pool.step expand) (Pool.start item) schedule = some pool)
    (hf : pool.Finished) (k : κ) : pool.emitted.filter (key · = k) = demand item k := by
  have ho : pool.Owes demand key valid (demand item) :=
    run_invariant (Pool.step expand) (fun _ _ _ h hst => h.step hexpand hst)
      (Pool.Owes.start hv) hrun
  have hn : pool.tasks.flatMap (owedBy demand key k) = [] := by
    rw [flatMap_eq_nil_iff]
    intro task hta
    rw [hf task hta]
    rfl
  have ht := ho.total k
  rwa [hn, append_nil] at ht

end

end Invariant

/-! ## Every schedule ends -/

section Weight

variable {expand} (size : π → Nat)

/-- What a turn weighs, an output one. -/
def Work.weight : Work π γ → Nat
  | .emit _ => 1
  | .visit item => size item

/-- What a list of turns weighs. -/
def taskWeight (task : List (Work π γ)) : Nat := (task.map (Work.weight size)).sum

/-- What the tasks at work weigh. -/
def Pool.weight (pool : Pool π γ) : Nat := (pool.tasks.map (taskWeight size)).sum

variable {size} {pool pool' : Pool π γ} {i : Nat}

theorem sum_map_set {α : Type} {f : α → Nat} {xs : List α} {a x : α} (hi : xs[i]? = some a) :
    ((xs.set i x).map f).sum + f a = (xs.map f).sum + f x := by
  induction xs generalizing i with
  | nil => simp at hi
  | cons y ys ih =>
    cases i with
    | zero =>
      obtain rfl : y = a := by simpa using hi
      simp only [set_cons_zero, map_cons, sum_cons]
      omega
    | succ i =>
      have hr := ih (i := i) (by simpa using hi)
      simp only [set_cons_succ, map_cons, sum_cons]
      omega

section

variable (hweight : ∀ p, taskWeight size (expand p) < size p)
include hweight

theorem Pool.step_weight (hst : pool.step expand i = some pool') : pool'.weight size < pool.weight size := by
  obtain ⟨w, rest, hi, ⟨out, rfl, rfl⟩ | ⟨item, rfl, rfl⟩⟩ := Pool.step_cases hst
  · have hsum := sum_map_set (f := taskWeight size) (x := rest) hi
    simp only [Pool.weight, taskWeight, map_cons, sum_cons, Work.weight] at hsum ⊢
    omega
  · have hsum := sum_map_set (f := taskWeight size) (x := rest) hi
    have hl := hweight item
    simp only [Pool.weight, taskWeight, map_cons, sum_cons, Work.weight, map_append,
      sum_append, map_nil, sum_nil] at hsum hl ⊢
    omega

theorem Pool.run_weight {schedule} (hrun : run (Pool.step expand) pool schedule = some pool') :
    pool'.weight size + schedule.length ≤ pool.weight size := by
  induction schedule generalizing pool with
  | nil =>
    cases hrun
    exact Nat.le_refl _
  | cons i schedule ih =>
    obtain ⟨mid, hst, hrun⟩ := run_cons_eq_some (Pool.step expand) hrun
    have hl := Pool.step_weight hweight hst
    have hr := ih hrun
    simp only [length_cons]
    omega

theorem Pool.exists_finished (pool : Pool π γ) :
    ∃ schedule pool', run (Pool.step expand) pool schedule = some pool' ∧ pool'.Finished := by
  induction hn : pool.weight size using Nat.strongRecOn generalizing pool with
  | ind n ih =>
    by_cases hf : pool.Finished
    · exact ⟨[], pool, rfl, hf⟩
    · obtain ⟨i, mid, hst⟩ := Pool.exists_step hf
      have hl := Pool.step_weight hweight hst
      obtain ⟨schedule, pool', hrun, hend⟩ := ih _ (hn ▸ hl) mid rfl
      exact ⟨i :: schedule, pool', by rw [run_cons, hst]; exact hrun, hend⟩

end

end Weight

end Lore.Lib
