import Mathlib.Data.Fintype.Basic
import Lore.Lib.Machine

/-!
# CompositeStore — a cache in front of a durable store

What the operations of a composite store do to its local and its durable store, for an address
in a partition (a key). Every access of a store is one step, and so are an answer and a request
to the map of reads in flight: a read that finds another of its key under way is given the answer
of that one. Caching in the local store is detached: it happens at any later step, or never.

A put that finds its key in the local store is answered Ok and writes nothing. So acknowledged
puts are durable, and obliterations final, as long as the local store holds no key the durable
store does not hold. It comes to hold none where an obliteration, with its detached part, is
not under way at a time with another operation on its key.
-/

namespace Lore.Storage

open Lore.Lib Function

inductive CompositeRead where
  | get
  | getMetadata
  | query
  deriving DecidableEq

/-- The next step of an operation, or a detached one. -/
inductive CompositePhase (ι τ : Type) where
  | put (key : ι) (payload : Bool)
  | putDurable (key : ι) (payload : Bool)
  /-- `supplied` by a put with the payload -/
  | copyImplementation (key : ι) (supplied : Bool)
  /-- a put is answered Ok -/
  | acknowledge (key : ι)
  | read (kind : CompositeRead) (key : ι)
  /-- `InflightOutput::request` -/
  | request (kind : CompositeRead) (key : ι)
  | readRemotes (kind : CompositeRead) (key : ι)
  /-- `InflightGuard::broadcast` -/
  | broadcast (kind : CompositeRead) (key : ι) (found : Bool)
  | await (maker : τ) (kind : CompositeRead) (key : ι)
  /-- a read is answered -/
  | respond (kind : CompositeRead) (key : ι) (found : Bool)
  | obliterate (key : ι)
  | obliterateDurable (key : ι)
  /-- a detached put in the local store -/
  | cache (key : ι) (payload : Bool)
  /-- the detached obliteration in the local store -/
  | erase (key : ι)
  deriving DecidableEq

namespace CompositePhase

variable {ι τ : Type}

def key : CompositePhase ι τ → ι
  | put key _ | putDurable key _ | copyImplementation key _ | acknowledge key | read _ key
  | request _ key | readRemotes _ key | broadcast _ key _ | await _ _ key | respond _ key _
  | obliterate key | obliterateDurable key | cache key _ | erase key => key

/-- An obliteration, or its detached part. -/
def obliterates : CompositePhase ι τ → Bool
  | obliterate _ | obliterateDurable _ | erase _ => true
  | _ => false

/-- An operation that has found its key held. -/
def found : CompositePhase ι τ → Bool
  | acknowledge _ | cache _ _ => true
  | broadcast _ _ found | respond _ _ found => found
  | _ => false

end CompositePhase

/-- `acked` and `erased` are for the specification only: the keys with a put answered Ok since
an obliteration of them was called, and those obliterated with no put or copy since. -/
structure Composite (ι τ : Type) where
  /-- the keys of the local store, with or without their payload -/
  cached : ι → Option Bool
  durable : ι → Bool
  /-- who reads the key for all -/
  inflight : CompositeRead × ι → Option τ
  tasks : τ → Option (CompositePhase ι τ)
  acked : ι → Bool
  erased : ι → Bool

inductive CompositeAction (ι τ : Type) where
  | begin (task : τ) (phase : CompositePhase ι τ)
  /-- the next step; `source` is the key of the same hash that it finds, if any -/
  | advance (task spawned : τ) (source : Option ι)
  /-- the local store cannot answer, or a put is forced -/
  | miss (task : τ)
  /-- an answer with an error, or a future dropped -/
  | fail (task : τ)
  | evict (key : ι)

namespace Composite

variable {ι τ χ : Type} [DecidableEq ι] [DecidableEq τ] [DecidableEq χ]

variable (hash : ι → χ) (metadataOnly : Bool) (w : Composite ι τ)

def goOn (task : τ) (next : Option (CompositePhase ι τ)) : Composite ι τ :=
  { w with tasks := update w.tasks task next }

/-- The operation goes on, and leaves a detached step. -/
def spawn (task : τ) (next : Option (CompositePhase ι τ)) (spawned : τ)
    (phase : CompositePhase ι τ) : Option (Composite ι τ) :=
  if (w.tasks spawned).isNone then some ((w.goOn spawned phase).goOn task next) else none

/-- The durable store takes the key, by a put or a copy. -/
def hold (key : ι) : Composite ι τ :=
  { w with durable := update w.durable key true, erased := update w.erased key false }

/-- The durable store has the key no more. -/
def destroy (key : ι) : Composite ι τ :=
  { w with durable := update w.durable key false, erased := update w.erased key true }

def setAcked (key : ι) (value : Bool) : Composite ι τ :=
  { w with acked := update w.acked key value }

def setCached (key : ι) (entry : Option Bool) : Composite ι τ :=
  { w with cached := update w.cached key entry }

/-- The guard of a read in flight is gone, and it and those that wait for it have this answer. -/
def release (task : τ) (kind : CompositeRead) (key : ι) (answer : Option (CompositePhase ι τ)) :
    Composite ι τ :=
  { w with
    inflight := update w.inflight (kind, key) none
    tasks := fun other =>
      if other = task ∨ w.tasks other = some (.await task kind key) then answer
      else w.tasks other }

/-- What the local store answers by itself: a get needs the payload. -/
def hit (key : ι) : CompositeRead → Bool
  | .get => w.cached key = some true
  | .getMetadata | .query => (w.cached key).isSome

def finds (held : ι → Bool) (key : ι) (source : Option ι) : Bool :=
  source.any fun other => held other && hash other = hash key

/-- The detached step of a read the durable store has answered. -/
def warm (key : ι) : CompositeRead → CompositePhase ι τ
  | .get => .cache key (!metadataOnly)
  | .getMetadata => .cache key false
  | .query => .read .getMetadata key

/-- Where a read goes on that the local store has not answered. -/
def fanOut (key : ι) : CompositeRead → CompositePhase ι τ
  | .query => .readRemotes .query key
  | kind => .request kind key

def advance (task spawned : τ) (source : Option ι) : CompositePhase ι τ → Option (Composite ι τ)
  | .put key payload =>
    some (w.goOn task (some (
      if (w.cached key).isSome then .acknowledge key
      -- `can_put_use_copy`
      else if payload && finds hash (fun other => (w.cached other).isSome) key source
      then .copyImplementation key true
      else .putDurable key payload)))
  | .putDurable key payload =>
    if payload || finds hash w.durable key source then
      (w.hold key).spawn task (some (.acknowledge key)) spawned
        (.cache key (payload && !metadataOnly))
    else some (w.goOn task none)
  | .copyImplementation key supplied =>
    if finds hash w.durable key source then
      if supplied then
        (w.hold key).spawn task (some (.acknowledge key)) spawned (.cache key (!metadataOnly))
      else (w.hold key).spawn task none spawned (.read .get key)
    else some (w.goOn task none)
  | .acknowledge key => some ((w.setAcked key true).goOn task none)
  | .read kind key =>
    some (w.goOn task (some (if w.hit key kind then .respond kind key true else fanOut key kind)))
  | .request kind key =>
    match w.inflight (kind, key) with
    | some maker => some (w.goOn task (some (.await maker kind key)))
    | none =>
      let w := { w with inflight := update w.inflight (kind, key) task }
      some (w.goOn task (some (.readRemotes kind key)))
  | .readRemotes kind key =>
    if w.durable key then
      w.spawn task (some (.broadcast kind key true)) spawned (warm metadataOnly key kind)
    else some (w.goOn task (some (.broadcast kind key false)))
  | .broadcast kind key found =>
    some (w.release task kind key (some (.respond kind key found)))
  | .await .. => none
  | .respond .. => some (w.goOn task none)
  | .obliterate key => w.spawn task (some (.obliterateDurable key)) spawned (.erase key)
  | .obliterateDurable key => some ((w.destroy key).goOn task none)
  | .cache key payload =>
    some ((w.setCached key (some (payload || (w.cached key).getD false))).goOn task none)
  | .erase key => some ((w.setCached key none).goOn task none)

def step : CompositeAction ι τ → Option (Composite ι τ)
  | .begin task phase =>
    if (w.tasks task).isNone then
      match phase with
      | .put .. | .copyImplementation _ false | .read .. => some (w.goOn task phase)
      | .obliterate key => some ((w.setAcked key false).goOn task phase)
      | _ => none
    else none
  | .advance task spawned source => do
    w.advance hash metadataOnly task spawned source (← w.tasks task)
  | .miss task =>
    match w.tasks task with
    | some (.put key payload) => some (w.goOn task (some (.putDurable key payload)))
    | some (.read kind key) => some (w.goOn task (some (fanOut key kind)))
    | _ => none
  | .fail task =>
    match w.tasks task with
    | some (.readRemotes kind key) | some (.broadcast kind key _) =>
      some (w.release task kind key none)
    | some _ => some (w.goOn task none)
    | none => none
  | .evict key => some (w.setCached key none)

/-- An obliteration begins with no other operation on its key under way, with its detached parts,
and no other begins until it has ended; and the local obliteration does not fail. -/
def Undisturbed : CompositeAction ι τ → Prop
  | .begin _ phase => ∀ task, ∀ other ∈ w.tasks task, other.key = phase.key →
      other.obliterates = phase.obliterates
  | .fail task => ∀ phase ∈ w.tasks task, phase ≠ .erase phase.key
  | _ => True

instance [Fintype τ] (action : CompositeAction ι τ) : Decidable (w.Undisturbed action) := by
  cases action <;> unfold Undisturbed <;> infer_instance

def empty : Composite ι τ :=
  ⟨fun _ => none, fun _ => false, fun _ => none, fun _ => none, fun _ => false, fun _ => false⟩

/-- The local store does not hold the key, or not for long. -/
def Uncached (key : ι) : Prop := w.cached key = none ∨ ∃ task, w.tasks task = some (.erase key)

structure Inv (w : Composite ι τ) : Prop where
  apart : ∀ task other p q, w.tasks task = some p → w.tasks other = some q → p.key = q.key →
    p.obliterates = q.obliterates
  found : ∀ task phase, w.tasks task = some phase → phase.found → w.durable phase.key
  called : ∀ task phase, w.tasks task = some phase → phase.obliterates → !w.acked phase.key
  uncached : ∀ task key, w.tasks task = some (.obliterateDurable key) → w.Uncached key
  cached : ∀ key, w.durable key ∨ w.Uncached key
  acked : ∀ key, w.acked key → w.durable key
  erased : ∀ key, w.erased key → !w.durable key

/-- A phase for an operation on the key, an obliteration or not. -/
structure Fits (key : ι) (obliterates : Bool) (phase : CompositePhase ι τ) : Prop where
  at_key : phase.key = key
  of_kind : phase.obliterates = obliterates
  found : phase.found → w.durable key
  uncached : phase = .obliterateDurable key → w.Uncached key

variable {hash metadataOnly w} {t : Composite ι τ} {task : τ} {phase : CompositePhase ι τ}
  {key : ι} {obliterates : Bool} {after : Option (CompositePhase ι τ)}

section

variable (h : w.Inv)
include h

omit [DecidableEq ι] [DecidableEq τ] in
/-- Steps are taken on one key, by obliterations or by none; a local obliteration ends with its
key gone. -/
theorem Inv.retask {tasks : τ → Option (CompositePhase ι τ)} {inflight}
    (hkey : ∀ other p, w.tasks other = some p → p.key = key → p.obliterates = obliterates)
    (hcalled : obliterates → !w.acked key)
    (hnew : ∀ other q, tasks other = some q →
      w.tasks other = some q ∨ w.Fits key obliterates q)
    (herase : ∀ other erased, w.tasks other = some (.erase erased) →
      w.cached erased = none ∨ tasks other = some (.erase erased)) :
    ({ w with tasks, inflight } : Composite ι τ).Inv := by
  have huncached : ∀ key, w.Uncached key →
      ({ w with tasks, inflight } : Composite ι τ).Uncached key := by
    intro key hun
    rcases hun with hn | ⟨other, hother⟩
    · exact .inl hn
    · exact (herase other key hother).imp_right (⟨other, ·⟩)
  refine ⟨?_, ?_, ?_, ?_, fun key => (h.cached key).imp_right (huncached key), h.acked, h.erased⟩
  · intro one other p q hp hq heq
    rcases hnew one p hp with hold | hp
    · rcases hnew other q hq with hold' | hq
      · exact h.apart one other p q hold hold' heq
      · exact (hkey one p hold (heq.trans hq.at_key)).trans hq.of_kind.symm
    · rcases hnew other q hq with hold' | hq
      · exact hp.of_kind.trans (hkey other q hold' (heq.symm.trans hp.at_key)).symm
      · exact hp.of_kind.trans hq.of_kind.symm
  · intro other q hq hf
    rcases hnew other q hq with hold | hq
    · exact h.found other q hold hf
    · exact hq.at_key ▸ hq.found hf
  · intro other q hq ho
    rcases hnew other q hq with hold | hq
    · exact h.called other q hold ho
    · exact hq.at_key ▸ hcalled (hq.of_kind ▸ ho)
  · intro other k hq
    rcases hnew other _ hq with hold | hq
    · exact huncached k (h.uncached other k hold)
    · cases hq.at_key
      exact huncached k (hq.uncached rfl)

omit [DecidableEq ι] in
theorem Inv.goOn
    (hkey : ∀ other p, w.tasks other = some p → p.key = key → p.obliterates = obliterates)
    (hcalled : obliterates → !w.acked key) (hafter : ∀ q ∈ after, w.Fits key obliterates q)
    (herase : ∀ erased, w.tasks task = some (.erase erased) → w.cached erased = none) :
    (w.goOn task after).Inv := by
  refine h.retask hkey hcalled (fun other q hq => ?_) (fun other erased he => ?_)
  · by_cases heq : other = task
    · subst heq
      rw [update_self] at hq
      exact .inr (hafter q hq)
    · exact .inl ((update_of_ne heq ..).symm.trans hq)
  · by_cases heq : other = task
    · exact .inl (herase erased (heq ▸ he))
    · exact .inr ((update_of_ne heq ..).trans he)

omit [DecidableEq ι] in
theorem Inv.next (hp : w.tasks task = some phase)
    (herase : ∀ erased, phase = .erase erased → w.cached erased = none)
    (hafter : ∀ q ∈ after, w.Fits phase.key phase.obliterates q) : (w.goOn task after).Inv :=
  h.goOn (fun other p hother => h.apart other task p phase hother hp) (h.called task phase hp)
    hafter fun erased he => herase erased (Option.some.inj (hp.symm.trans he))

omit [DecidableEq ι] in
theorem Inv.plain {q} (hp : w.tasks task = some phase) (herase : ∀ erased, phase ≠ .erase erased)
    (hkey : q.key = phase.key) (hkind : q.obliterates = phase.obliterates)
    (hfound : q.found = false) (hdurable : ∀ key, q ≠ .obliterateDurable key) :
    (w.goOn task (some q)).Inv := by
  refine h.next hp (fun erased he => absurd he (herase erased)) fun q hq => ?_
  cases hq
  exact ⟨hkey, hkind, by simp [hfound], fun heq => absurd heq (hdurable _)⟩

omit [DecidableEq ι] in
theorem Inv.spawn {spawned detached} (hp : w.tasks task = some phase)
    (hs : w.spawn task after spawned detached = some t)
    (herase : ∀ erased, phase ≠ .erase erased)
    (hdetached : w.Fits phase.key phase.obliterates detached)
    (hafter : ∀ q ∈ after, (w.goOn spawned detached).Fits phase.key phase.obliterates q) :
    t.Inv := by
  obtain ⟨hfree, rfl⟩ := guarded hs
  rw [Option.isNone_iff_eq_none] at hfree
  have hne : task ≠ spawned := by
    rintro rfl
    cases hp.symm.trans hfree
  have hw : (w.goOn spawned (some detached)).Inv := by
    refine h.goOn (fun other p hother => h.apart other task p phase hother hp)
      (h.called task phase hp) ?_ ?_
    · intro q hq
      cases hq
      exact hdetached
    · intro erased he
      cases hfree.symm.trans he
  exact hw.next ((update_of_ne hne ..).trans hp) (fun erased he => absurd he (herase erased)) hafter

omit [DecidableEq τ] in
theorem Inv.hold (key : ι) : (w.hold key).Inv := by
  have hmono : ∀ other, w.durable other → (w.hold key).durable other := by
    intro other hd
    by_cases heq : other = key <;> simp [Composite.hold, heq, hd]
  refine ⟨h.apart, fun other p hp hf => hmono _ (h.found other p hp hf), h.called, h.uncached,
    fun other => (h.cached other).imp_left (hmono other),
    fun other ha => hmono other (h.acked other ha), fun other he => ?_⟩
  by_cases heq : other = key
  · simp [Composite.hold, heq] at he
  · simp only [Composite.hold, update_of_ne heq] at he ⊢
    exact h.erased other he

omit [DecidableEq τ] in
/-- A put is answered with its key held and no obliteration under way, or one is called. -/
theorem Inv.setAcked {value : Bool} (hd : value → w.durable key ∧
      ∀ other p, w.tasks other = some p → p.key = key → p.obliterates = false) :
    (w.setAcked key value).Inv := by
  refine ⟨h.apart, h.found, fun other p hp ho => ?_, h.uncached, h.cached, fun other ha => ?_,
    h.erased⟩
  · by_cases heq : p.key = key
    · cases value with
      | false => simp [Composite.setAcked, heq]
      | true => cases ((hd rfl).2 other p hp heq).symm.trans ho
    · simp only [Composite.setAcked, update_of_ne heq]
      exact h.called other p hp ho
  · by_cases heq : other = key
    · simp only [Composite.setAcked, heq, update_self] at ha ⊢
      exact (hd ha).1
    · simp only [Composite.setAcked, update_of_ne heq] at ha
      exact h.acked other ha

omit [DecidableEq τ] in
/-- The local store loses a key, or takes one that is held with no obliteration under way. -/
theorem Inv.setCached {entry : Option Bool} (hd : entry.isSome → w.durable key ∧
      ∀ other p, w.tasks other = some p → p.key = key → p.obliterates = false) :
    (w.setCached key entry).Inv := by
  have huncached : ∀ other, entry = none ∨ other ≠ key → w.Uncached other →
      (w.setCached key entry).Uncached other := by
    intro other hor hun
    refine hun.imp_left fun hn => ?_
    by_cases heq : other = key
    · simp [Composite.setCached, heq, hor.resolve_right (not_not_intro heq)]
    · exact (update_of_ne heq ..).trans hn
  cases entry with
  | none =>
    exact ⟨h.apart, h.found, h.called, fun other k hp => huncached k (.inl rfl)
      (h.uncached other k hp), fun k => (h.cached k).imp_right (huncached k (.inl rfl)), h.acked,
      h.erased⟩
  | some payload =>
    obtain ⟨hheld, hnone⟩ := hd rfl
    refine ⟨h.apart, h.found, h.called, fun other k hp => ?_, fun k => ?_, h.acked, h.erased⟩
    · refine huncached k (.inr fun heq => ?_) (h.uncached other k hp)
      cases hnone other _ hp heq
    · by_cases heq : k = key
      · exact .inl (heq ▸ hheld)
      · exact (h.cached k).imp_right (huncached k (.inr heq))

omit [DecidableEq τ] in
/-- The obliteration of the durable store, with the key gone from the local store or about to. -/
theorem Inv.destroy (hp : w.tasks task = some (.obliterateDurable key)) :
    (w.destroy key).Inv := by
  refine ⟨h.apart, fun other p hother hf => ?_, h.called, h.uncached, fun other => ?_,
    fun other ha => ?_, fun other he => ?_⟩
  · -- what an operation has found is at another key
    have hne : p.key ≠ key := by
      intro heq
      have ho : p.obliterates = true := h.apart other task p _ hother hp heq
      cases p <;> cases ho <;> cases hf
    simp only [Composite.destroy, update_of_ne hne]
    exact h.found other p hother hf
  all_goals by_cases heq : other = key
  · subst heq
    exact .inr (h.uncached task other hp)
  · simp only [Composite.destroy, update_of_ne heq]
    exact h.cached other
  · have hcalled : !w.acked key := h.called task _ hp rfl
    simp_all [Composite.destroy]
  · simp only [Composite.destroy, update_of_ne heq]
    exact h.acked other ha
  · simp [Composite.destroy, heq]
  · simp only [Composite.destroy, update_of_ne heq] at he ⊢
    exact h.erased other he

omit [DecidableEq ι] [DecidableEq τ] in
theorem Inv.held (hp : w.tasks task = some phase) (ho : phase.obliterates = false)
    (hc : (w.cached phase.key).isSome) : w.durable phase.key := by
  rcases h.cached phase.key with hd | hn | ⟨other, hother⟩
  · exact hd
  · simp [hn] at hc
  · cases (h.apart other task _ phase hother hp rfl).trans ho

theorem Inv.release {kind} (hp : w.tasks task = some phase) (ho : phase.obliterates = false)
    (hafter : ∀ q ∈ after, w.Fits phase.key false q) :
    (w.release task kind phase.key after).Inv := by
  rw [← ho] at hafter
  refine h.retask (fun other p hother heq => ?_) (h.called task phase hp)
    (fun other q hq => ?_) (fun other erased he => ?_)
  · exact h.apart other task p phase hother hp heq
  · split at hq
    · exact .inr (hafter q hq)
    · exact .inl hq
  · refine .inr ((if_neg ?_).trans he)
    rintro (rfl | hawait)
    · cases hp.symm.trans he
      cases ho
    · cases he.symm.trans hawait

theorem Inv.taken {spawned payload} (hp : w.tasks task = some phase)
    (ho : phase.obliterates = false)
    (hs : (w.hold phase.key).spawn task (some (.acknowledge phase.key)) spawned
      (.cache phase.key payload) = some t) : t.Inv := by
  have hd : (w.hold phase.key).durable phase.key = true := update_self ..
  refine (h.hold phase.key).spawn hp hs ?_ ⟨rfl, ho.symm, fun _ => hd, nofun⟩ fun q hq => ?_
  · rintro erased rfl
    cases ho
  · cases hq
    exact ⟨rfl, ho.symm, fun _ => hd, nofun⟩

theorem Inv.advance {spawned source} (hp : w.tasks task = some phase)
    (hs : w.advance hash metadataOnly task spawned source phase = some t) : t.Inv := by
  have halone : phase.obliterates = false → ∀ other p, w.tasks other = some p →
      p.key = phase.key → p.obliterates = false :=
    fun ho other p hother heq => (h.apart other task p phase hother hp heq).trans ho
  cases phase with
  | put key payload =>
    cases hs
    split
    next hc =>
      refine h.next hp nofun fun q hq => ?_
      cases hq
      exact ⟨rfl, rfl, fun _ => h.held hp rfl hc, nofun⟩
    · split <;> exact h.plain hp nofun rfl rfl rfl nofun
  | putDurable key payload =>
    simp only [Composite.advance] at hs
    split at hs
    · exact h.taken hp rfl hs
    · cases hs
      exact h.next hp nofun nofun
  | copyImplementation key supplied =>
    simp only [Composite.advance] at hs
    split_ifs at hs
    · exact h.taken hp rfl hs
    · exact (h.hold key).spawn hp hs nofun ⟨rfl, rfl, nofun, nofun⟩ nofun
    · cases hs
      exact h.next hp nofun nofun
  | acknowledge key =>
    cases hs
    have hacked : (w.setAcked key true).Inv := h.setAcked fun _ =>
      ⟨h.found task _ hp rfl, halone rfl⟩
    exact hacked.next hp nofun nofun
  | read kind key =>
    cases hs
    split
    next hc =>
      refine h.next hp nofun fun q hq => ?_
      cases hq
      refine ⟨rfl, rfl, fun _ => h.held hp rfl ?_, nofun⟩
      cases kind <;> simp_all [hit, CompositePhase.key]
    · cases kind <;> exact h.plain hp nofun rfl rfl rfl nofun
  | request kind key =>
    simp only [Composite.advance] at hs
    split at hs <;> cases hs
    · exact h.plain hp nofun rfl rfl rfl nofun
    · have hw : ({ w with inflight := update w.inflight (kind, key) task } : Composite ι τ).Inv :=
        ⟨h.apart, h.found, h.called, h.uncached, h.cached, h.acked, h.erased⟩
      exact hw.plain hp nofun rfl rfl rfl nofun
  | readRemotes kind key =>
    simp only [Composite.advance] at hs
    split at hs
    next hd =>
      refine h.spawn hp hs nofun ?_ fun q hq => ?_
      · cases kind with
        | query => exact ⟨rfl, rfl, nofun, nofun⟩
        | _ => exact ⟨rfl, rfl, fun _ => hd, nofun⟩
      · cases hq
        exact ⟨rfl, rfl, fun _ => hd, nofun⟩
    · cases hs
      exact h.plain hp nofun rfl rfl rfl nofun
  | broadcast kind key found =>
    cases hs
    refine h.release hp rfl fun q hq => ?_
    cases hq
    exact ⟨rfl, rfl, h.found task (.broadcast kind key found) hp, nofun⟩
  | await => cases hs
  | respond =>
    cases hs
    exact h.next hp nofun nofun
  | obliterate key =>
    refine h.spawn hp hs nofun ⟨rfl, rfl, nofun, nofun⟩ fun q hq => ?_
    cases hq
    exact ⟨rfl, rfl, nofun, fun _ => .inr ⟨spawned, update_self ..⟩⟩
  | obliterateDurable key =>
    cases hs
    exact (h.destroy hp).next hp nofun nofun
  | cache key payload =>
    cases hs
    have hcached : (w.setCached key (some (payload || (w.cached key).getD false))).Inv :=
      h.setCached fun _ => ⟨h.found task _ hp rfl, halone rfl⟩
    exact hcached.next hp nofun nofun
  | erase key =>
    cases hs
    have hcached : (w.setCached key none).Inv := h.setCached nofun
    refine hcached.next hp (fun erased he => ?_) nofun
    cases he
    exact update_self ..

theorem Inv.step {action} (hgood : w.Undisturbed action)
    (hs : w.step hash metadataOnly action = some t) : t.Inv := by
  cases action with
  | begin task phase =>
    obtain ⟨hfree, hs⟩ := Option.ite_none_right_eq_some.mp hs
    rw [Option.isNone_iff_eq_none] at hfree
    have hkey : ∀ other p, w.tasks other = some p → p.key = phase.key →
        p.obliterates = phase.obliterates := hgood
    have herase : ∀ erased, w.tasks task = some (.erase erased) → w.cached erased = none :=
      fun erased he => by cases hfree.symm.trans he
    split at hs <;> cases hs
    case h_4 key =>
      have hcalled : (w.setAcked key false).Inv := h.setAcked nofun
      refine hcalled.goOn hkey (fun _ => ?_) (fun q hq => ?_) herase
      · simp [Composite.setAcked, CompositePhase.key]
      · cases hq
        exact ⟨rfl, rfl, nofun, nofun⟩
    all_goals
      refine h.goOn hkey nofun (fun q hq => ?_) herase
      cases hq
      exact ⟨rfl, rfl, nofun, nofun⟩
  | advance task spawned source =>
    obtain ⟨phase, hp, hs⟩ := Option.bind_eq_some_iff.mp hs
    exact h.advance hp hs
  | miss task =>
    simp only [Composite.step] at hs
    split at hs <;> cases hs
    next hp => exact h.plain hp nofun rfl rfl rfl nofun
    next kind key hp => cases kind <;> exact h.plain hp nofun rfl rfl rfl nofun
  | fail task =>
    simp only [Composite.step] at hs
    split at hs <;> cases hs
    next hp => exact h.release hp rfl nofun
    next hp => exact h.release hp rfl nofun
    next hp =>
      refine h.next hp (fun erased he => ?_) nofun
      cases he
      exact absurd rfl (hgood _ hp)
  | evict key =>
    cases hs
    exact h.setCached nofun

end

end Composite

open Composite

/-- An address is put, cached and obliterated while another of its hash is put, by a copy of it;
then two gets of that one share a read. -/
def obliteratedWhilePut : List (CompositeAction Bool (Fin 4)) :=
  [.begin 0 (.put false true), .advance 0 1 none, .advance 0 1 none, .advance 0 1 none,
    .advance 1 0 none,
    .begin 0 (.obliterate false), .begin 2 (.put true true), .advance 2 3 (some false),
    .advance 0 1 none, .advance 2 3 (some false), .advance 0 1 none, .advance 2 3 none,
    .advance 1 0 none, .advance 3 0 none, .evict true,
    .begin 0 (.read .get true), .begin 1 (.read .get true), .advance 0 2 none,
    .advance 1 2 none, .advance 0 2 none, .advance 1 2 none, .advance 0 2 none,
    .advance 0 3 none]

end Lore.Storage
