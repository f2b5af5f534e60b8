import Mathlib.Data.List.Forall2
import Mathlib.Tactic.Common

/-!
# Producers — computations that send items to a receiver that may leave

A producer sends items one by one, may fail, and from time to time looks
whether its receiver is still there; once it finds the receiver gone it stops
early and reports success. Three kinds of statement about a producer are kept
apart. `Sends` is partial: a run that ended well with the receiver still there
sent only lists satisfying a predicate. `Avoids` says which errors no run ends with.
`Meets` is both at once, with one rule for each way a producer is built. `Emits` is
total: with a receiver that never leaves, the run ends well and sends exactly one
given list.
-/

namespace Lore.Lib

open List

variable {ε α β : Type}

theorem bind_eq_ok {x} {f : α → Except ε β} {b : β} :
    (x >>= f) = .ok b ↔ ∃ a, x = .ok a ∧ f a = .ok b := by
  cases x with
  | error e =>
    refine ⟨fun h => ?_, fun ⟨a, ha, _⟩ => ?_⟩
    · cases h
    · cases ha
  | ok a => exact ⟨fun h => ⟨a, rfl, h⟩, fun ⟨_, ha, h⟩ => by cases ha; exact h⟩

theorem seq_eq_ok {x : Except ε Unit} {f : Unit → Except ε β} {b : β} :
    x >>= f = .ok b ↔ x = .ok () ∧ f () = .ok b := by
  rw [bind_eq_ok]
  exact Unique.exists_iff

theorem ite_error_eq_ok {c : Prop} [Decidable c] {e : ε} {x a} :
    (if c then .error e else x) = (.ok a : Except ε α) ↔ ¬ c ∧ x = .ok a := by
  by_cases hc : c <;> simp [hc]

theorem ite_ok_or_error {c : Prop} [Decidable c] {e : ε} {x a} :
    (if c then x else .error e) = (.ok a : Except ε α) ↔ c ∧ x = .ok a := by
  by_cases hc : c <;> simp [hc]

@[simp] theorem ok_bind (a : α) (f : α → Except ε β) :
    ((Except.ok a : Except ε α) >>= f) = f a := rfl

@[simp] theorem error_bind (e : ε) (f : α → Except ε β) :
    ((Except.error e : Except ε α) >>= f) = .error e := rfl

/-- The step fails in no other way. -/
def FailsOnly (P : ε → Prop) (x : Except ε α) : Prop := ∀ e, x = .error e → P e

theorem failsOnly_ok {P : ε → Prop} (a : α) : FailsOnly P (.ok a) := nofun

theorem failsOnly_bind {P : ε → Prop} {x} {f : α → Except ε β} (hx : FailsOnly P x)
    (hf : ∀ a, x = .ok a → FailsOnly P (f a)) : FailsOnly P (x >>= f) := by
  cases x with
  | error e =>
    rintro e' ⟨⟩
    exact hx e rfl
  | ok a => exact hf a rfl

/-- Every result of the step meets `P`, and every error `E`. -/
def Ends (E : ε → Prop) (P : α → Prop) : Except ε α → Prop
  | .ok a => P a
  | .error e => E e

section Ends

variable {E : ε → Prop} {P : α → Prop} {Q : β → Prop}

theorem Ends.ok {a} (h : P a) : Ends E P (.ok a) := h

theorem Ends.error {e} (h : E e) : Ends E P (.error e) := h

theorem Ends.bind {x} {f : α → Except ε β} (hx : Ends E P x)
    (hf : ∀ a, P a → Ends E Q (f a)) : Ends E Q (x >>= f) := by
  cases x with
  | error e => exact hx
  | ok a => exact hf a hx

theorem Ends.mono {P' : α → Prop} {x} (hx : Ends E P x) (h : ∀ a, P a → P' a) : Ends E P' x := by
  cases x with
  | error e => exact hx
  | ok a => exact h a hx

theorem Ends.of_ok {x a} (hx : Ends E P x) (h : x = .ok a) : P a := by
  rw [h] at hx
  exact hx

theorem Ends.exists_ok {x} (hx : Ends E P x) (h : ∀ e, ¬ E e) : ∃ a, x = .ok a ∧ P a := by
  cases x with
  | error e => exact absurd hx (h e)
  | ok a => exact ⟨a, rfl, hx⟩

end Ends

theorem mapM_eq_ok {f : α → Except ε β} {xs ys} :
    xs.mapM f = .ok ys ↔ List.Forall₂ (fun x y => f x = .ok y) xs ys := by
  induction xs generalizing ys with
  | nil =>
    rw [forall₂_nil_left_iff]
    exact ⟨fun h => by cases h; rfl, fun h => by rw [h]; rfl⟩
  | cons x xs ih =>
    rw [mapM_cons, bind_eq_ok, forall₂_cons_left_iff]
    constructor
    · rintro ⟨y, hy, h⟩
      obtain ⟨ys', hys, h⟩ := bind_eq_ok.mp h
      cases h
      exact ⟨y, ys', hy, ih.mp hys, rfl⟩
    · rintro ⟨y, ys', hy, hys, rfl⟩
      exact ⟨y, hy, bind_eq_ok.mpr ⟨ys', ih.mpr hys, rfl⟩⟩

theorem mapM_flatten_eq_ok {ε α β : Type} {f : α → Except ε β} {parts ys}
    (h : parts.flatten.mapM f = .ok ys) :
    ∃ results, List.Forall₂ (fun xs zs => xs.mapM f = .ok zs) parts results ∧
      ys = results.flatten := by
  induction parts generalizing ys with
  | nil =>
    cases h
    exact ⟨[], List.Forall₂.nil, rfl⟩
  | cons xs parts ih =>
    rw [flatten_cons, mapM_append] at h
    obtain ⟨zs, hzs, h⟩ := bind_eq_ok.mp h
    obtain ⟨ws, hws, h⟩ := bind_eq_ok.mp h
    cases h
    obtain ⟨results, hr, rfl⟩ := ih hws
    exact ⟨zs :: results, List.Forall₂.cons hzs hr, rfl⟩

theorem foldlM_range_succ (f : β → Nat → Except ε β) (b : β) (n : Nat) :
    (range (n + 1)).foldlM f b = (range n).foldlM f b >>= fun c => f c n := by
  rw [range_succ]
  simp

/-- The sending side of a queue: the items sent, and how often the sender looked
whether the receiver is there. -/
structure Outbox (α : Type) where
  sent : List α
  looks : Nat
deriving Repr

namespace Outbox

variable {α : Type}

/-- A fresh queue. -/
def fresh : Outbox α := ⟨[], 0⟩

/-- Whether the receiver is gone at the sender's next look, `gone` being the look that
first finds it gone, `none` for a receiver that stays. -/
def isClosed (gone : Option Nat) (q : Outbox α) : Bool :=
  match gone with
  | none => false
  | some n => decide (n ≤ q.looks)

/-- The sender looked once more. -/
def look (q : Outbox α) : Outbox α := { q with looks := q.looks + 1 }

/-- One more item is in the queue. -/
def push (q : Outbox α) (x : α) : Outbox α := { q with sent := q.sent ++ [x] }

theorem isClosed_look {gone : Option Nat} {q : Outbox α} (h : q.isClosed gone = true) :
    q.look.isClosed gone = true := by
  cases gone with
  | none => cases h
  | some n =>
    have hle : n ≤ q.looks := of_decide_eq_true h
    exact decide_eq_true (show n ≤ q.looks + 1 by omega)

end Outbox

/-- A computation that sends items of type `α`, towards a receiver that leaves at the
given look, and may fail with `ε`. -/
def Producer (ε α : Type) : Type := Option Nat → Outbox α → Except ε Unit × Outbox α

namespace Producer

variable {ε α β : Type}

/-- Ends well, sending nothing. -/
def done : Producer ε α := fun _ q => (.ok (), q)

/-- Fails, sending nothing. -/
def fail (e : ε) : Producer ε α := fun _ q => (.error e, q)

/-- Sends one item. -/
def send (x : α) : Producer ε α := fun _ q => (.ok (), q.push x)

/-- Runs `p`, unless the receiver is found gone, which ends the run well. -/
def unlessClosed (p : Producer ε α) : Producer ε α := fun gone q =>
  if q.isClosed gone then (.ok (), q.look) else p gone q.look

/-- Runs `p`, and then `r` where `p` ended well. -/
def andThen (p r : Producer ε α) : Producer ε α := fun gone q =>
  match p gone q with
  | (.ok (), q') => r gone q'
  | (.error e, q') => (.error e, q')

/-- Continues with the value of `x`, or fails with its error. -/
def require (x : Except ε β) (k : β → Producer ε α) : Producer ε α :=
  match x with
  | .ok b => k b
  | .error e => fail e

/-- Runs `f` on each item in turn, stopping early where the receiver is found gone. -/
def forEachOpen (f : β → Producer ε α) : List β → Producer ε α
  | [] => done
  | x :: xs => unlessClosed (andThen (f x) (forEachOpen f xs))

@[simp] theorem require_ok (b : β) (k : β → Producer ε α) : require (.ok b) k = k b := rfl

/-! ## What a run does -/

/-- Every run of `p` that ends well with the receiver still there started with
the receiver there, and sent a list satisfying `P`. -/
def Sends (p : Producer ε α) (P : List α → Prop) : Prop :=
  ∀ gone q q', p gone q = (.ok (), q') → q'.isClosed gone = false →
    q.isClosed gone = false ∧ ∃ xs, q'.sent = q.sent ++ xs ∧ P xs

/-- No run of `p` fails with a `bad` error. -/
def Avoids (bad : ε → Prop) (p : Producer ε α) : Prop :=
  ∀ gone q e, (p gone q).1 = .error e → ¬ bad e

/-- A run of `p` ends well, having sent a list satisfying `P` where the receiver is still
there, or fails with an error that is not `bad`. -/
def Meets (bad : ε → Prop) (p : Producer ε α) (P : List α → Prop) : Prop :=
  ∀ gone q, match p gone q with
    | (.error e, _) => ¬ bad e
    | (.ok (), q') => q'.isClosed gone = false →
        q.isClosed gone = false ∧ ∃ xs, q'.sent = q.sent ++ xs ∧ P xs

variable {bad : ε → Prop} {p : Producer ε α} {P : List α → Prop} {r : Producer ε α}

theorem Meets.sends (h : Meets bad p P) : Sends p P := by
  intro gone q q' hrun
  have hm := h gone q
  rwa [hrun] at hm

theorem Meets.avoids (h : Meets bad p P) : Avoids bad p := by
  intro gone q e herr
  have hm := h gone q
  rwa [← Prod.eta (p gone q), herr] at hm

/-! ## One rule for each way a producer is built -/

theorem Meets.mono {Q : List α → Prop} (h : Meets bad p P) (hPQ : ∀ xs, P xs → Q xs) :
    Meets bad p Q := by
  intro gone q
  have hm := h gone q
  split at hm
  · exact hm
  · intro ho
    obtain ⟨hq, xs, hse, hxs⟩ := hm ho
    exact ⟨hq, xs, hse, hPQ xs hxs⟩

theorem meets_done (h : P []) : Meets bad (done : Producer ε α) P :=
  fun _ _ ho => ⟨ho, [], by simp, h⟩

theorem meets_fail {e : ε} (he : ¬ bad e) : Meets bad (fail e) P := fun _ _ => he

theorem meets_send {x : α} (h : P [x]) : Meets bad (send x : Producer ε α) P :=
  fun _ _ ho => ⟨ho, [x], rfl, h⟩

theorem meets_unlessClosed (h : Meets bad p P) : Meets bad (unlessClosed p) P := by
  intro gone q
  have hm := h gone q.look
  unfold unlessClosed
  by_cases hq : q.isClosed gone = true
  · rw [if_pos hq]
    intro ho
    rw [Outbox.isClosed_look hq] at ho
    cases ho
  · rw [if_neg hq]
    split at hm
    · exact hm
    · exact fun ho => ⟨by simpa using hq, (hm ho).2⟩

theorem meets_andThen {Q R : List α → Prop} (hp : Meets bad p P) (hr : Meets bad r Q)
    (hPQ : ∀ xs ys, P xs → Q ys → R (xs ++ ys)) : Meets bad (andThen p r) R := by
  intro gone q
  have hm := hp gone q
  unfold andThen
  match p gone q, hm with
  | (.error e, _), hm => exact hm
  | (.ok (), q1), hm =>
    dsimp only
    match r gone q1, hr gone q1 with
    | (.error e, _), hn => exact hn
    | (.ok (), q2), hn =>
      intro ho
      obtain ⟨ho1, ys, hys, hQ⟩ := hn ho
      obtain ⟨ho0, xs, hxs, hP⟩ := hm ho1
      exact ⟨ho0, xs ++ ys, by rw [hys, hxs, append_assoc], hPQ xs ys hP hQ⟩

theorem meets_require {x} {k : β → Producer ε α} (hx : FailsOnly (¬ bad ·) x)
    (hk : ∀ b, x = .ok b → Meets bad (k b) P) : Meets bad (require x k) P := by
  cases x with
  | ok b => exact hk b rfl
  | error e => exact meets_fail (hx e rfl)

/-- A loop whose body sends a list satisfying `R` for each item sends the
concatenation of such lists. -/
theorem meets_forEachOpen {f : β → Producer ε α} {R : β → List α → Prop} {items}
    (h : ∀ x ∈ items, Meets bad (f x) (R x)) :
    Meets bad (forEachOpen f items)
      (fun xs => ∃ parts, List.Forall₂ R items parts ∧ xs = parts.flatten) := by
  induction items with
  | nil => exact meets_done ⟨[], List.Forall₂.nil, rfl⟩
  | cons x items ih =>
    refine meets_unlessClosed (meets_andThen (h x (by simp)) (ih fun y hy => h y (by simp [hy])) ?_)
    rintro xs ys hxs ⟨parts, hp, rfl⟩
    exact ⟨xs :: parts, List.Forall₂.cons hxs hp, rfl⟩

/-! ## What a run towards a staying receiver sends -/

/-- With a receiver that never leaves, `p` ends well and sends exactly `xs`. -/
def Emits (p : Producer ε α) (xs : List α) : Prop :=
  ∀ q : Outbox α, ∃ q', p none q = (.ok (), q') ∧ q'.sent = q.sent ++ xs

theorem emits_done : Emits (done : Producer ε α) [] := fun q => ⟨q, rfl, by simp⟩

theorem Meets.emits {xs} (h : Meets (fun _ => True) p (· = xs)) : Emits p xs := by
  intro q
  have hm := h none q
  split at hm
  · exact absurd trivial hm
  · next q' hrun =>
      obtain ⟨-, _, hse, rfl⟩ := hm rfl
      exact ⟨q', hrun, hse⟩

theorem emits_unlessClosed {xs} (h : Emits p xs) : Emits (unlessClosed p) xs := fun q => h q.look

theorem emits_andThen {xs ys} (hp : Emits p xs) (hr : Emits r ys) :
    Emits (andThen p r) (xs ++ ys) := by
  intro q
  obtain ⟨q1, hr1, hs1⟩ := hp q
  obtain ⟨q2, hr2, hs2⟩ := hr q1
  refine ⟨q2, ?_, by rw [hs2, hs1, append_assoc]⟩
  simp only [andThen, hr1, hr2]

/-- With a receiver that never leaves, `p` ends well and sends only items satisfying
`P`. -/
def EmitsAll (p : Producer ε α) (P : α → Prop) : Prop := ∃ xs, Emits p xs ∧ ∀ x ∈ xs, P x

theorem emitsAll_done {P : α → Prop} : EmitsAll (done : Producer ε α) P := ⟨[], emits_done, by simp⟩

theorem emitsAll_unlessClosed {P : α → Prop} (h : EmitsAll p P) : EmitsAll (unlessClosed p) P := by
  obtain ⟨xs, hxs, hP⟩ := h
  exact ⟨xs, emits_unlessClosed hxs, hP⟩

theorem emitsAll_andThen {P : α → Prop} (hp : EmitsAll p P) (hr : EmitsAll r P) :
    EmitsAll (andThen p r) P := by
  obtain ⟨xs, hxs, hPx⟩ := hp
  obtain ⟨ys, hys, hPy⟩ := hr
  refine ⟨xs ++ ys, emits_andThen hxs hys, fun z hz => ?_⟩
  rcases mem_append.mp hz with hz | hz
  · exact hPx z hz
  · exact hPy z hz

theorem emitsAll_forEachOpen {f : β → Producer ε α} {P : α → Prop} {items}
    (h : ∀ x ∈ items, EmitsAll (f x) P) : EmitsAll (forEachOpen f items) P := by
  induction items with
  | nil => exact emitsAll_done
  | cons x items ih =>
    exact emitsAll_unlessClosed
      (emitsAll_andThen (h x (by simp)) (ih fun y hy => h y (by simp [hy])))

end Producer

end Lore.Lib
