import Lore.Lib.Machine
import Lore.Storage.Fragment

/-!
# InFlight — guarded stores and the loads that wait for them

A store that talks to the remote holds an entry of `STORE_IN_FLIGHT` from before it
puts the fragment until its guard is dropped. The drop raises the count of stores
landed in the address's bucket, then removes the entry, then cancels its token. A
load reads the count, probes the local store, and on a miss waits for a store in
flight, or finds that the count moved, before it probes again.

Every action of every task is a step of its own here, so that a run is an
interleaving. A guard may be dropped at any step after it was taken, which is what a
cancelled store does. A put carries its payload or not: a durable fragment that is
not to be cached is put without. Nothing in this system takes a payload away again.
-/

namespace Lore.Storage

open Lore.Lib Option Function

/-- Byte `i` of a hash, `hash.data()[i]`. -/
def hashByte (hash : Hash) (i : Nat) : Nat := hash.toNat / 256 ^ (31 - i) % 256

/-- `LANDED_BUCKETS`. -/
def landedBuckets : Nat := 1024

/-- `landed_bucket`: the index of the counter of `address`. -/
def landedBucket (address : Address) : Nat :=
  (hashByte address.hash 0 + 256 * hashByte address.hash 1) % landedBuckets

/-- `StoreInFlightKey`. -/
structure StoreInFlightKey where
  partition : Partition
  address : Address
deriving DecidableEq, Repr

/-- How far a store that took the guard has come. The last three are the steps of
the guard's drop. -/
inductive StorePhase where
  | holding
  | counted
  | removed
  | finished
deriving DecidableEq, Repr

/-- A store that took the guard of `key`. `put` is `some carried` once its put
succeeded, `carried` saying whether the put carried the payload. -/
structure GuardedStore where
  key : StoreInFlightKey
  phase : StorePhase
  put : Option Bool
deriving DecidableEq, Repr

/-- What a load answers. -/
inductive LoadAnswer where
  | loaded
  | addressNotFound
deriving DecidableEq, Repr

/-- How far a load has come. `landed` is the count it read before its first probe. -/
inductive LoadPhase where
  | counted (landed : Nat)
  | missed (landed : Nat)
  | waiting (store : Nat)
  | unwaited (landed : Nat)
  | probing
  | answered (answer : LoadAnswer)
deriving DecidableEq, Repr

/-- A local-only load of `key`. -/
structure LocalLoad where
  key : StoreInFlightKey
  phase : LoadPhase
deriving DecidableEq, Repr

/-- The tasks and what they share. A store's token is named by the store. -/
structure InFlightState where
  /-- `STORE_IN_FLIGHT` -/
  inFlight : StoreInFlightKey → Option Nat
  /-- `STORES_LANDED`, of `u64`s: `landed_le_length` bounds them by the steps of a run. -/
  landed : Nat → Nat
  /-- The local store holds the payload. -/
  held : StoreInFlightKey → Bool
  /-- The token is cancelled. -/
  cancelled : Nat → Bool
  stores : Nat → Option GuardedStore
  loads : Nat → Option LocalLoad

/-- No task has started. The local store may hold payloads already. -/
def InFlightState.initial (held : StoreInFlightKey → Bool) : InFlightState :=
  { inFlight := fun _ => none
    landed := fun _ => 0
    held := held
    cancelled := fun _ => false
    stores := fun _ => none
    loads := fun _ => none }

/-- One step of one task. -/
inductive InFlightAction where
  /-- `try_acquire_in_flight` of a vacant entry. -/
  | acquire (store : Nat) (key : StoreInFlightKey)
  /-- The put of a store holding its guard succeeds. -/
  | put (store : Nat) (carried : Bool)
  /-- The three steps of the guard's drop. -/
  | raiseLanded (store : Nat)
  | removeEntry (store : Nat)
  | cancelToken (store : Nat)
  /-- A put that takes no guard, as every store without a remote session is. -/
  | putUnguarded (key : StoreInFlightKey)
  /-- `landed_before_probe`. -/
  | readLanded (load : Nat) (key : StoreInFlightKey)
  /-- A probe. One of an address not held may still hit, at a partial match. -/
  | probe (load : Nat) (hit : Bool)
  /-- `wait_if_in_flight` looks the entry up. -/
  | checkInFlight (load : Nat)
  /-- The token waited on is cancelled. -/
  | wake (load : Nat)
  /-- The comparison of `stored_since`. -/
  | compareLanded (load : Nat)
deriving DecidableEq, Repr

namespace InFlightState

variable (s : InFlightState)

def setStore (i : Nat) (store : GuardedStore) : InFlightState :=
  { s with stores := Function.update s.stores i (some store) }

def setLoad (l : Nat) (load : LocalLoad) : InFlightState :=
  { s with loads := Function.update s.loads l (some load) }

def setPhase (l : Nat) (load : LocalLoad) (phase : LoadPhase) : InFlightState :=
  s.setLoad l { load with phase := phase }

/-- What a step of a store that holds the guard does. -/
def stepStore (i : Nat) (store : GuardedStore) : InFlightAction → Option InFlightState
  | .put _ carried =>
      if store.phase = .holding ∧ store.put = none then
        some { s.setStore i { store with put := some carried } with
          held := Function.update s.held store.key (s.held store.key || carried) }
      else none
  | .raiseLanded _ =>
      let bucket := landedBucket store.key.address
      if store.phase = .holding then
        some { s.setStore i { store with phase := .counted } with
          landed := Function.update s.landed bucket (s.landed bucket + 1) }
      else none
  | .removeEntry _ =>
      if store.phase = .counted then
        some { s.setStore i { store with phase := .removed } with
          inFlight := Function.update s.inFlight store.key none }
      else none
  | .cancelToken _ =>
      if store.phase = .removed then
        some { s.setStore i { store with phase := .finished } with
          cancelled := Function.update s.cancelled i true }
      else none
  | _ => none

/-- What a step of a load that has started does. -/
def stepLoad (l : Nat) (load : LocalLoad) : InFlightAction → Option InFlightState
  | .probe _ hit =>
      if s.held load.key ∧ ¬ hit then none
      else
        match load.phase with
        | .counted landed =>
            some (s.setPhase l load (if hit then .answered .loaded else .missed landed))
        | .probing =>
            some (s.setPhase l load (.answered (if hit then .loaded else .addressNotFound)))
        | _ => none
  | .checkInFlight _ =>
      match load.phase, s.inFlight load.key with
      | .missed _, some store => some (s.setPhase l load (.waiting store))
      | .missed landed, none => some (s.setPhase l load (.unwaited landed))
      | _, _ => none
  | .wake _ =>
      match load.phase with
      | .waiting store =>
          if s.cancelled store then some (s.setPhase l load .probing) else none
      | _ => none
  | .compareLanded _ =>
      match load.phase with
      | .unwaited landed =>
          some (s.setPhase l load
            (if s.landed (landedBucket load.key.address) ≠ landed then .probing
              else .answered .addressNotFound))
      | _ => none
  | _ => none

/-- One step of the system. -/
def step (s : InFlightState) : InFlightAction → Option InFlightState
  | .acquire i key =>
      if s.stores i = none ∧ s.inFlight key = none then
        some { s.setStore i ⟨key, .holding, none⟩ with
          inFlight := Function.update s.inFlight key (some i) }
      else none
  | .putUnguarded key => some { s with held := Function.update s.held key true }
  | .readLanded l key =>
      if s.loads l = none then
        some (s.setLoad l ⟨key, .counted (s.landed (landedBucket key.address))⟩)
      else none
  | .put i carried => (s.stores i).bind fun store => s.stepStore i store (.put i carried)
  | .raiseLanded i => (s.stores i).bind fun store => s.stepStore i store (.raiseLanded i)
  | .removeEntry i => (s.stores i).bind fun store => s.stepStore i store (.removeEntry i)
  | .cancelToken i => (s.stores i).bind fun store => s.stepStore i store (.cancelToken i)
  | .probe l hit => (s.loads l).bind fun load => s.stepLoad l load (.probe l hit)
  | .checkInFlight l => (s.loads l).bind fun load => s.stepLoad l load (.checkInFlight l)
  | .wake l => (s.loads l).bind fun load => s.stepLoad l load (.wake l)
  | .compareLanded l => (s.loads l).bind fun load => s.stepLoad l load (.compareLanded l)

/-! ## What one step can do -/

/-- The steps, each with its guard and the state it leaves. -/
inductive Moves (s : InFlightState) : InFlightAction → InFlightState → Prop
  | acquire {i key} (hi : s.stores i = none) (hkey : s.inFlight key = none) :
      Moves s (.acquire i key) { s.setStore i ⟨key, .holding, none⟩ with
        inFlight := Function.update s.inFlight key (some i) }
  | put {i store carried} (hi : s.stores i = some store) (hphase : store.phase = .holding)
      (hput : store.put = none) :
      Moves s (.put i carried) { s.setStore i { store with put := some carried } with
        held := Function.update s.held store.key (s.held store.key || carried) }
  | raiseLanded {i store} (hi : s.stores i = some store) (hphase : store.phase = .holding) :
      Moves s (.raiseLanded i) { s.setStore i { store with phase := .counted } with
        landed := Function.update s.landed (landedBucket store.key.address)
          (s.landed (landedBucket store.key.address) + 1) }
  | removeEntry {i store} (hi : s.stores i = some store) (hphase : store.phase = .counted) :
      Moves s (.removeEntry i) { s.setStore i { store with phase := .removed } with
        inFlight := Function.update s.inFlight store.key none }
  | cancelToken {i store} (hi : s.stores i = some store) (hphase : store.phase = .removed) :
      Moves s (.cancelToken i) { s.setStore i { store with phase := .finished } with
        cancelled := Function.update s.cancelled i true }
  | putUnguarded {key} :
      Moves s (.putUnguarded key) { s with held := Function.update s.held key true }
  | readLanded {l key} (hl : s.loads l = none) :
      Moves s (.readLanded l key)
        (s.setLoad l ⟨key, .counted (s.landed (landedBucket key.address))⟩)
  | probeHit {l load} (hl : s.loads l = some load)
      (hphase : (∃ landed, load.phase = .counted landed) ∨ load.phase = .probing) :
      Moves s (.probe l true) (s.setPhase l load (.answered .loaded))
  | probeMissed {l load landed} (hl : s.loads l = some load)
      (hphase : load.phase = .counted landed) (hheld : s.held load.key = false) :
      Moves s (.probe l false) (s.setPhase l load (.missed landed))
  | probeNotFound {l load} (hl : s.loads l = some load) (hphase : load.phase = .probing)
      (hheld : s.held load.key = false) :
      Moves s (.probe l false) (s.setPhase l load (.answered .addressNotFound))
  | checkFound {l load landed store} (hl : s.loads l = some load)
      (hphase : load.phase = .missed landed) (hentry : s.inFlight load.key = some store) :
      Moves s (.checkInFlight l) (s.setPhase l load (.waiting store))
  | checkVacant {l load landed} (hl : s.loads l = some load)
      (hphase : load.phase = .missed landed) (hentry : s.inFlight load.key = none) :
      Moves s (.checkInFlight l) (s.setPhase l load (.unwaited landed))
  | wake {l load store} (hl : s.loads l = some load) (hphase : load.phase = .waiting store)
      (hcancelled : s.cancelled store = true) :
      Moves s (.wake l) (s.setPhase l load .probing)
  | compareMoved {l load landed} (hl : s.loads l = some load)
      (hphase : load.phase = .unwaited landed)
      (hmoved : s.landed (landedBucket load.key.address) ≠ landed) :
      Moves s (.compareLanded l) (s.setPhase l load .probing)
  | compareSame {l load landed} (hl : s.loads l = some load)
      (hphase : load.phase = .unwaited landed)
      (hsame : s.landed (landedBucket load.key.address) = landed) :
      Moves s (.compareLanded l) (s.setPhase l load (.answered .addressNotFound))

variable {s t : InFlightState} {l : Nat} {load : LocalLoad} {a : InFlightAction} {i : Nat}
  {store : GuardedStore} {key : StoreInFlightKey}

theorem probe_moves {hit} (hl : s.loads l = some load)
    (h : s.stepLoad l load (.probe l hit) = some t) : Moves s (.probe l hit) t := by
  obtain ⟨hh, h⟩ := ite_none_left_eq_some.mp h
  cases hp : load.phase <;> rw [hp] at h <;> simp only [reduceCtorEq] at h
  case counted landed =>
    cases h
    cases hit with
    | true => exact .probeHit hl (.inl ⟨landed, hp⟩)
    | false => exact .probeMissed hl hp (by simpa using hh)
  case probing =>
    cases h
    cases hit with
    | true => exact .probeHit hl (.inr hp)
    | false => exact .probeNotFound hl hp (by simpa using hh)

theorem stepLoad_moves (hl : s.loads l = some load)
    (ha : a = .checkInFlight l ∨ a = .wake l ∨ a = .compareLanded l)
    (h : s.stepLoad l load a = some t) : Moves s a t := by
  rcases ha with rfl | rfl | rfl
  · simp only [stepLoad] at h
    cases hp : load.phase <;> cases he : s.inFlight load.key <;>
      rw [hp, he] at h <;> cases h
    · exact .checkVacant hl hp he
    · exact .checkFound hl hp he
  · simp only [stepLoad] at h
    cases hp : load.phase <;> rw [hp] at h <;> simp only [reduceCtorEq] at h
    obtain ⟨hc, rfl⟩ := guarded h
    exact .wake hl hp hc
  · simp only [stepLoad] at h
    cases hp : load.phase <;> rw [hp] at h <;> cases h
    split
    next hm => exact .compareMoved hl hp hm
    next hsa => exact .compareSame hl hp (by simpa using hsa)

theorem step_moves (h : s.step a = some t) : Moves s a t := by
  cases a with
  | acquire i key =>
    obtain ⟨hg, rfl⟩ := guarded h
    exact .acquire hg.1 hg.2
  | putUnguarded key =>
    cases h
    exact .putUnguarded
  | readLanded l key =>
    obtain ⟨hl, rfl⟩ := guarded h
    exact .readLanded hl
  | put i carried =>
    obtain ⟨store, hi, h⟩ := bind_eq_some_iff.mp h
    obtain ⟨hg, rfl⟩ := guarded h
    exact .put hi hg.1 hg.2
  | raiseLanded i =>
    obtain ⟨store, hi, h⟩ := bind_eq_some_iff.mp h
    obtain ⟨hp, rfl⟩ := guarded h
    exact .raiseLanded hi hp
  | removeEntry i =>
    obtain ⟨store, hi, h⟩ := bind_eq_some_iff.mp h
    obtain ⟨hp, rfl⟩ := guarded h
    exact .removeEntry hi hp
  | cancelToken i =>
    obtain ⟨store, hi, h⟩ := bind_eq_some_iff.mp h
    obtain ⟨hp, rfl⟩ := guarded h
    exact .cancelToken hi hp
  | probe l hit =>
    obtain ⟨load, hl, h⟩ := bind_eq_some_iff.mp h
    exact probe_moves hl h
  | checkInFlight l =>
    obtain ⟨load, hl, h⟩ := bind_eq_some_iff.mp h
    exact stepLoad_moves hl (.inl rfl) h
  | wake l =>
    obtain ⟨load, hl, h⟩ := bind_eq_some_iff.mp h
    exact stepLoad_moves hl (.inr (.inl rfl)) h
  | compareLanded l =>
    obtain ⟨load, hl, h⟩ := bind_eq_some_iff.mp h
    exact stepLoad_moves hl (.inr (.inr rfl)) h

/-! ## The stores' side -/

/-- A store that has not removed its entry yet. -/
def InMap (phase : StorePhase) : Prop := phase = .holding ∨ phase = .counted

/-- What holds of the stores: the entries are those of the stores that have not
removed theirs, the token of a finished store is cancelled, and what a put carried is
held. -/
structure StoresInv (s : InFlightState) : Prop where
  entry : ∀ i store, s.stores i = some store → InMap store.phase →
    s.inFlight store.key = some i
  owner : ∀ key i, s.inFlight key = some i →
    ∃ store, s.stores i = some store ∧ store.key = key ∧ InMap store.phase
  token : ∀ i store, s.stores i = some store → store.phase = .finished →
    s.cancelled i = true
  held : ∀ i store, s.stores i = some store → store.put = some true →
    s.held store.key = true

theorem StoresInv.initial (held : StoreInFlightKey → Bool) : StoresInv (initial held) where
  entry := by simp [InFlightState.initial]
  owner := by simp [InFlightState.initial]
  token := by simp [InFlightState.initial]
  held := by simp [InFlightState.initial]

theorem StoresInv.frame (h : StoresInv s) (hst : t.stores = s.stores)
    (hf : t.inFlight = s.inFlight) (hc : t.cancelled = s.cancelled)
    (hh : ∀ key, s.held key = true → t.held key = true) : StoresInv t where
  entry := by rw [hst, hf]; exact h.entry
  owner := by rw [hst, hf]; exact h.owner
  token := by rw [hst, hc]; exact h.token
  held := by
    rw [hst]
    intro i store hi hput
    exact hh _ (h.held i store hi hput)

theorem StoresInv.owned (h : StoresInv s) (hi : s.stores i = some store)
    (hkey : s.inFlight key = some i) : store.key = key ∧ InMap store.phase := by
  obtain ⟨own, hown, ho⟩ := h.owner key i hkey
  cases hi.symm.trans hown
  exact ho

theorem StoresInv.acquire {s} (h : StoresInv s) {i key} (hi : s.stores i = none)
    (hkey : s.inFlight key = none) :
    StoresInv { s.setStore i ⟨key, .holding, none⟩ with
      inFlight := update s.inFlight key (some i) } where
  entry j store hj hmap := by
    rcases update_eq_some hj with ⟨rfl, rfl⟩ | ⟨-, hj⟩
    · exact update_self ..
    · have he := h.entry j store hj hmap
      have hne : store.key ≠ key := by
        intro heq
        rw [heq, hkey] at he
        cases he
      simpa only [update_of_ne hne] using he
  owner key' j hj := by
    rcases update_eq_some hj with ⟨rfl, rfl⟩ | ⟨-, hj⟩
    · exact ⟨_, update_self .., rfl, .inl rfl⟩
    · obtain ⟨store, hst, hown⟩ := h.owner key' j hj
      have hji : j ≠ i := by
        rintro rfl
        rw [hi] at hst
        cases hst
      exact ⟨store, by simpa only [setStore, update_of_ne hji] using hst, hown⟩
  token j store hj hfin := by
    rcases update_eq_some hj with ⟨rfl, rfl⟩ | ⟨-, hj⟩
    · cases hfin
    · exact h.token j store hj hfin
  held j store hj hput := by
    rcases update_eq_some hj with ⟨rfl, rfl⟩ | ⟨-, hj⟩
    · cases hput
    · exact h.held j store hj hput

/-- A store stays in the map, or leaves it with its entry, and is not finished
before its token is cancelled: what the steps after the acquisition have in common. -/
theorem StoresInv.advance (h : StoresInv s) {next} (hi : s.stores i = some store)
    (hst : t.stores = update s.stores i (some next)) (hkey : next.key = store.key)
    (hin : InMap next.phase → InMap store.phase)
    (hf : ∀ key j, t.inFlight key = some j ↔ s.inFlight key = some j ∧ (j = i → InMap next.phase))
    (hc : ∀ j, s.cancelled j = true → t.cancelled j = true)
    (hfi : next.phase = .finished → t.cancelled i = true)
    (hh : ∀ key, s.held key = true → t.held key = true)
    (hput : next.put = some true → t.held next.key = true) : StoresInv t where
  entry j other hj hmap := by
    rw [hf]
    rcases update_eq_some (hst ▸ hj) with ⟨rfl, rfl⟩ | ⟨hji, hj⟩
    · exact ⟨hkey ▸ h.entry j store hi (hin hmap), fun _ => hmap⟩
    · exact ⟨h.entry j other hj hmap, fun heq => absurd heq hji⟩
  owner key j hj := by
    obtain ⟨hwas, hm⟩ := (hf key j).mp hj
    rw [hst]
    by_cases hji : j = i
    · subst hji
      exact ⟨next, update_self .., hkey.trans (h.owned hi hwas).1, hm rfl⟩
    · rw [update_of_ne hji]
      exact h.owner key j hwas
  token j other hj hfin := by
    rcases update_eq_some (hst ▸ hj) with ⟨rfl, rfl⟩ | ⟨-, hj⟩
    · exact hfi hfin
    · exact hc j (h.token j other hj hfin)
  held j other hj hjp := by
    rcases update_eq_some (hst ▸ hj) with ⟨rfl, rfl⟩ | ⟨-, hj⟩
    · exact hput hjp
    · exact hh _ (h.held j other hj hjp)

theorem Moves.held (h : Moves s a t) (hh : s.held key = true) : t.held key = true := by
  cases h with
  | @put i store carried hi hp hput =>
    exact update_related (fun a b => a = true → b = true) (fun _ => id) (fun h => by simp [h]) _ hh
  | @putUnguarded other =>
    exact update_related (fun a b => a = true → b = true) (fun _ => id) (fun _ => rfl) _ hh
  | _ => exact hh

theorem Moves.landed_le (h : Moves s a t) (bucket : Nat) : s.landed bucket ≤ t.landed bucket := by
  cases h with
  | @raiseLanded i store hi hp =>
    exact update_related (· ≤ ·) Nat.le_refl (Nat.le_add_right ..) bucket
  | _ => exact Nat.le_refl _

/-- No run of fewer than `2 ^ 64` steps wraps a count. -/
theorem landed_le_length {held : StoreInFlightKey → Bool} {actions : List InFlightAction}
    (hrun : run step (.initial held) actions = some s) (bucket : Nat) :
    s.landed bucket ≤ actions.length := by
  have hone : ∀ s a t, step s a = some t → t.landed bucket ≤ s.landed bucket + 1 := by
    intro s a t hstep
    cases step_moves hstep with
    | raiseLanded =>
      exact update_related (fun before after => after ≤ before + 1) (fun _ => Nat.le_succ _)
        (Nat.le_refl _) bucket
    | _ => exact Nat.le_succ _
  have h := run_le_length step hone hrun
  rwa [show (InFlightState.initial held).landed bucket = 0 from rfl, Nat.zero_add] at h

theorem StoresInv.moves (h : StoresInv s) (hm : Moves s a t) : StoresInv t := by
  have hh : ∀ key, s.held key = true → t.held key = true := fun _ hk => hm.held hk
  cases hm with
  | acquire hi hkey => exact h.acquire hi hkey
  | @put i store carried hi hp hput =>
    refine h.advance hi rfl rfl id (fun _ _ => (and_iff_left fun _ => .inl hp).symm)
      (fun _ => id) (h.token i store hi) hh ?_
    intro hca
    simp only [some.injEq] at hca
    simp [hca]
  | @raiseLanded i store hi hp =>
    exact h.advance hi rfl rfl (fun _ => .inl hp)
      (fun _ _ => (and_iff_left fun _ => .inr rfl).symm) (fun _ => id) nofun hh
      (h.held i store hi)
  | @removeEntry i store hi hp =>
    refine h.advance hi rfl rfl nofun (fun key j => ?_) (fun _ => id) nofun hh (h.held i store hi)
    have he := h.entry i store hi (.inr hp)
    by_cases hk : key = store.key
    · simp [hk, he, InMap, eq_comm]
    · have ho : s.inFlight key = some j → j ≠ i := by
        rintro hj rfl
        exact hk (h.owned hi hj).1.symm
      simpa [hk, InMap] using ho
  | @cancelToken i store hi hp =>
    refine h.advance hi rfl rfl nofun (fun key j => ?_)
      (fun j hc => by simp [update_apply, hc]) (fun _ => update_self ..) hh (h.held i store hi)
    have ho : s.inFlight key = some j → j ≠ i := by
      rintro hj rfl
      simpa [InMap, hp] using (h.owned hi hj).2
    simpa [InMap, setStore] using ho
  | _ => exact h.frame rfl rfl rfl hh

/-! ## The loads' side -/

/-- What holds of a load: the count it read is no later one, a store it waits for
exists, and after its miss every store that put the payload meanwhile still holds its
guard or has raised the count. -/
structure LoadInv (s : InFlightState) (load : LocalLoad) : Prop where
  counted : ∀ landed, load.phase = .counted landed →
    landed ≤ s.landed (landedBucket load.key.address)
  missed : ∀ landed, load.phase = .missed landed →
    landed ≤ s.landed (landedBucket load.key.address) ∧
    ∀ i store, s.stores i = some store → store.key = load.key → store.put = some true →
      store.phase = .holding ∨ landed < s.landed (landedBucket load.key.address)
  waiting : ∀ i, load.phase = .waiting i → ∃ store, s.stores i = some store

theorem Moves.stores (h : Moves s a t) (hi : s.stores i = some store) :
    ∃ next, t.stores i = some next ∧ next.key = store.key := by
  have hset : ∀ {j old next}, s.stores j = some old → next.key = old.key →
      ∃ next', update s.stores j (some next) i = some next' ∧
        next'.key = store.key := by
    intro j old next hj hkey
    by_cases hij : i = j
    · subst hij
      cases hi.symm.trans hj
      exact ⟨next, update_self .., hkey⟩
    · exact ⟨store, by rwa [update_of_ne hij], rfl⟩
  cases h with
  | @acquire j key hj hkey =>
    have hij : i ≠ j := by
      rintro rfl
      rw [hi] at hj
      cases hj
    exact ⟨store, by simpa only [setStore, update_of_ne hij] using hi, rfl⟩
  | put hj hp hput | raiseLanded hj hp | removeEntry hj hp | cancelToken hj hp =>
    exact hset hj rfl
  | _ => exact ⟨store, hi, rfl⟩

/-- A store that put the payload holds its guard after a step, or had put it before,
and if it held its guard then, the step raised the count. -/
theorem Moves.put_source (h : Moves s a t) {next} (hi : t.stores i = some next)
    (hput : next.put = some true) :
    next.phase = .holding ∨
      ∃ store, s.stores i = some store ∧ store.key = next.key ∧ store.put = some true ∧
        (store.phase = .holding → s.landed (landedBucket next.key.address)
          < t.landed (landedBucket next.key.address)) := by
  by_cases hp : next.phase = .holding
  · exact .inl hp
  right
  have same : s.stores i = some next → ∃ store, s.stores i = some store ∧
      store.key = next.key ∧ store.put = some true ∧
      (store.phase = .holding → s.landed (landedBucket next.key.address)
        < t.landed (landedBucket next.key.address)) :=
    fun hs => ⟨next, hs, rfl, hput, fun hh => absurd hh hp⟩
  -- only the store that took the step changed
  cases h with
  | acquire =>
    obtain ⟨-, rfl⟩ | ⟨-, hs⟩ := update_eq_some hi
    · exact absurd rfl hp
    · exact same hs
  | put hj hph =>
    obtain ⟨-, rfl⟩ | ⟨-, hs⟩ := update_eq_some hi
    · exact absurd hph hp
    · exact same hs
  | raiseLanded hj =>
    obtain ⟨rfl, rfl⟩ | ⟨-, hs⟩ := update_eq_some hi
    · exact ⟨_, hj, rfl, hput, fun _ => by simp⟩
    · exact same hs
  | removeEntry hj hph | cancelToken hj hph =>
    obtain ⟨rfl, rfl⟩ | ⟨-, hs⟩ := update_eq_some hi
    · exact ⟨_, hj, rfl, hput, fun hh => absurd (hph.symm.trans hh) nofun⟩
    · exact same hs
  | _ => exact same hi

theorem LoadInv.frame (h : LoadInv s load) (hm : Moves s a t) : LoadInv t load where
  counted := by
    intro landed hp
    exact Nat.le_trans (h.counted landed hp) (hm.landed_le _)
  missed := by
    intro landed hp
    obtain ⟨hle, hse⟩ := h.missed landed hp
    refine ⟨Nat.le_trans hle (hm.landed_le _), ?_⟩
    intro i next hi hkey hput
    rcases hm.put_source hi hput with hh | ⟨store, hs, hsk, hsp, hr⟩
    · exact .inl hh
    right
    rw [hkey] at hsk hr
    rcases hse i store hs hsk hsp with hh | hlt
    · exact Nat.lt_of_le_of_lt hle (hr hh)
    · exact Nat.lt_of_lt_of_le hlt (hm.landed_le _)
  waiting := by
    intro i hp
    obtain ⟨store, hi⟩ := h.waiting i hp
    obtain ⟨next, hn, -⟩ := hm.stores hi
    exact ⟨next, hn⟩

/-- A load that has only just missed, or that looks at no count and waits for no
store, has nothing to show. -/
theorem LoadInv.of_phase (hc : ∀ landed, load.phase ≠ .counted landed)
    (hm : ∀ landed, load.phase ≠ .missed landed) (hw : ∀ i, load.phase ≠ .waiting i) :
    LoadInv s load :=
  ⟨fun landed h => absurd h (hc landed), fun landed h => absurd h (hm landed),
    fun i h => absurd h (hw i)⟩

/-- What holds of the whole system. -/
structure Inv (s : InFlightState) : Prop where
  stores : StoresInv s
  loads : ∀ l load, s.loads l = some load → LoadInv s load

theorem Inv.initial (held : StoreInFlightKey → Bool) : Inv (initial held) where
  stores := .initial held
  loads := by simp [InFlightState.initial]

theorem Inv.setLoad (h : Inv s) (hm : Moves s a t) {next}
    (hl : t.loads = update s.loads l (some next)) (hn : LoadInv t next) : Inv t where
  stores := h.stores.moves hm
  loads := by
    intro k load hk
    rcases update_eq_some (hl ▸ hk) with ⟨rfl, rfl⟩ | ⟨-, hk⟩
    · exact hn
    · exact (h.loads k load hk).frame hm

theorem Inv.moves (h : Inv s) (hm : Moves s a t) : Inv t := by
  have hf : t.loads = s.loads → Inv t := by
    intro hlo
    exact ⟨h.stores.moves hm, by rw [hlo]; exact fun l load hl => (h.loads l load hl).frame hm⟩
  cases hm' : hm with
  | @readLanded l key hl =>
    apply h.setLoad hm rfl
    exact ⟨fun landed hp => by cases hp; exact Nat.le_refl _, by simp, by simp⟩
  | @probeMissed l load landed hl hph hh =>
    refine h.setLoad hm rfl ⟨by simp, ?_, by simp⟩
    intro landed' hp
    cases hp
    refine ⟨(h.loads l load hl).counted _ hph, ?_⟩
    -- nothing was held, so no store had put the payload
    intro i store hi hkey hput
    have hput' := h.stores.held i store hi hput
    rw [hkey, hh] at hput'
    cases hput'
  | @checkFound l load landed i hl hph he =>
    refine h.setLoad hm rfl ⟨by simp, by simp, ?_⟩
    intro j hp
    cases hp
    obtain ⟨store, hst, -⟩ := h.stores.owner _ _ he
    exact ⟨store, hst⟩
  | probeHit hl hph => exact h.setLoad hm rfl (.of_phase (by simp) (by simp) (by simp))
  | probeNotFound hl hph hh | checkVacant hl hph he | wake hl hph hc
  | compareMoved hl hph hmo | compareSame hl hph hsa =>
    exact h.setLoad hm rfl (.of_phase (by simp) (by simp) (by simp))
  | _ => exact hf rfl

theorem Inv.run {actions} (h : Inv s) (hrun : run step s actions = some t) : Inv t :=
  run_invariant step (fun _ _ _ hs hst => hs.moves (step_moves hst)) h hrun

/-! ## A load that checks after a put -/

/-- Where a load is after its check, when the payload was put before the check: it
will probe again, since it waits or the count has moved, or it has found the payload. -/
structure Served (s : InFlightState) (l : Nat) (key : StoreInFlightKey) : Prop where
  held : s.held key = true
  load : ∃ load, s.loads l = some load ∧ load.key = key ∧
    ((∃ i, load.phase = .waiting i) ∨ (∃ landed, load.phase = .unwaited landed ∧
        landed < s.landed (landedBucket key.address)) ∨
      load.phase = .probing ∨ load.phase = .answered .loaded)

/-- The check itself: the store that put the payload is still in flight, or has
raised the count since the load read it. -/
theorem Inv.served (h : Inv s) (hm : Moves s (.checkInFlight l) t) (hl : s.loads l = some load)
    (hi : s.stores i = some store) (hkey : store.key = load.key) (hput : store.put = some true) :
    Served t l load.key := by
  have hh : s.held load.key = true := hkey ▸ h.stores.held i store hi hput
  cases hm with
  | @checkFound _ load' landed j hl' hp he =>
    rw [hl] at hl'
    cases hl'
    exact ⟨hh, _, update_self .., rfl, .inl ⟨j, rfl⟩⟩
  | @checkVacant _ load' landed hl' hp he =>
    rw [hl] at hl'
    cases hl'
    refine ⟨hh, _, update_self .., rfl, .inr (.inl ⟨landed, rfl, ?_⟩)⟩
    rcases ((h.loads l load hl).missed landed hp).2 i store hi hkey hput with hho | hlt
    · have hin := h.stores.entry i store hi (.inl hho)
      rw [hkey, he] at hin
      cases hin
    · exact hlt

theorem Served.moves (h : Served s l key) (hm : Moves s a t) : Served t l key := by
  obtain ⟨hh, load, hl, rfl, hp⟩ := h
  have hh' := hm.held hh
  -- a step of another task
  have ho : t.loads l = some load → Served t l load.key := by
    intro hl'
    refine ⟨hh', load, hl', rfl, ?_⟩
    rcases hp with hw | ⟨landed, hu, hlt⟩ | hr
    · exact .inl hw
    · exact .inr (.inl ⟨landed, hu, Nat.lt_of_lt_of_le hlt (hm.landed_le _)⟩)
    · exact .inr (.inr hr)
  -- a step of some load: of another one, or of this one
  have hst : ∀ {l' load' next}, s.loads l' = some load' →
      t.loads = update s.loads l' (some next) →
      (load' = load → t.loads l = some next → Served t l load.key) → Served t l load.key := by
    intro l' load' next hl' hlo hown
    by_cases hll : l = l'
    · subst hll
      exact hown (some.inj (hl'.symm.trans hl)) (by rw [hlo, update_self])
    · exact ho (by rw [hlo, update_of_ne hll]; exact hl)
  cases hm' : hm with
  | @readLanded l' key' hl' =>
    refine ho ?_
    have hll : l ≠ l' := fun heq => by simp [← heq, hl] at hl'
    exact (update_of_ne hll _ _).trans hl
  | probeHit hl' =>
    refine hst hl' rfl ?_
    rintro rfl hn
    exact ⟨hh', _, hn, rfl, .inr (.inr (.inr rfl))⟩
  | probeMissed hl' _ hmi | probeNotFound hl' _ hmi =>
    refine hst hl' rfl ?_
    rintro rfl -
    cases hh.symm.trans hmi
  | checkFound hl' hp' | checkVacant hl' hp' =>
    refine hst hl' rfl ?_
    rintro rfl -
    simp [hp'] at hp
  | wake hl' | compareMoved hl' =>
    refine hst hl' rfl ?_
    rintro rfl hn
    exact ⟨hh', _, hn, rfl, .inr (.inr (.inl rfl))⟩
  | compareSame hl' hp' hsa =>
    refine hst hl' rfl ?_
    rintro rfl -
    -- the count has moved, so this comparison does not find it the same
    simp only [hp', reduceCtorEq, exists_false, LoadPhase.unwaited.injEq, or_false, false_or] at hp
    omega
  | _ => exact ho hl

theorem Served.run {actions} (h : Served s l key) (hrun : run step s actions = some t) :
    Served t l key :=
  run_invariant step
    (fun s _ t (hs : Served s l key) hst => (hs.moves (step_moves hst) : Served t l key))
    h hrun

end InFlightState

open InFlightState

/-- In every interleaving of guarded stores and local-only loads: a load never answers
`AddressNotFound` for an address whose guarded put, carrying its payload, had succeeded
before the load's in-flight check; and the store a load waits for is still running,
until its token is cancelled and the load goes on. -/
theorem load_sees_put_before_check (held : StoreInFlightKey → Bool) :
    (∀ before after s t u l i load store load', run step (initial held) before = some s →
      step s (.checkInFlight l) = some t →
      run step t after = some u →
      s.loads l = some load →
      s.stores i = some store → store.key = load.key → store.put = some true →
      u.loads l = some load' → load'.phase ≠ .answered .addressNotFound) ∧
    (∀ actions s l i load, run step (initial held) actions = some s →
      s.loads l = some load → load.phase = .waiting i →
      (∃ store, s.stores i = some store ∧ store.phase ≠ .finished) ∨
        (step s (.wake l)).isSome) := by
  constructor
  · intro before after s t u l i load store load' hb hch ha hl hi hkey hput hl'
    have hse := ((Inv.initial held).run hb).served (step_moves hch) hl hi hkey hput
    obtain ⟨-, found, hf, -, hp⟩ := hse.run ha
    rw [hl'] at hf
    cases hf
    intro hnot
    simp [hnot] at hp
  · intro actions s l i load hrun hl hp
    have hinv := (Inv.initial held).run hrun
    obtain ⟨store, hi⟩ := (hinv.loads l load hl).waiting i hp
    by_cases hfin : store.phase = .finished
    · have hc : s.cancelled i = true := hinv.stores.token i store hi hfin
      simp [step, hl, stepLoad, hp, hc]
    · exact .inl ⟨store, hi, hfin⟩

/-- An address two tasks meet at. -/
def sharedKey : StoreInFlightKey := ⟨3, ⟨7, 5⟩⟩

/-- A store puts `carried` after a load missed and before the load checks. -/
def putBetween (carried : Bool) : List InFlightAction :=
  [.acquire 0 sharedKey, .readLanded 1 sharedKey, .probe 1 false, .put 0 carried]

/-- The store ends while the load waits, and the load probes again. -/
def endAndProbe (hit : Bool) : List InFlightAction :=
  [.raiseLanded 0, .removeEntry 0, .cancelToken 0, .wake 1, .probe 1 hit]

/-- The load that misses before the put carried the payload finds it. -/
theorem load_sees_put_before_check_shared :
    ∃ s t u load', run step (initial fun _ => false) (putBetween true) = some s ∧
      step s (.checkInFlight 1) = some t ∧ run step t (endAndProbe true) = some u ∧
      u.loads 1 = some load' ∧ load'.phase ≠ .answered .addressNotFound :=
  ⟨_, _, _, _, rfl, rfl, rfl, rfl,
    (load_sees_put_before_check fun _ => false).1 (putBetween true) (endAndProbe true) _ _ _ 1 0
      _ _ _ rfl rfl rfl rfl rfl rfl rfl rfl⟩

/-- A guarded put that carried no payload had succeeded before the check, and the load
answers `AddressNotFound`. -/
theorem load_misses_payloadless_put :
    ∃ s t u load store, run step (initial fun _ => false) (putBetween false) = some s ∧
      step s (.checkInFlight 1) = some t ∧ run step t (endAndProbe false) = some u ∧
      s.loads 1 = some load ∧ s.stores 0 = some store ∧ store.key = load.key ∧
      store.put.isSome ∧
      u.loads 1 = some ⟨sharedKey, .answered .addressNotFound⟩ :=
  ⟨_, _, _, _, _, rfl, rfl, rfl, rfl, rfl, rfl, rfl, rfl⟩

/-- In every interleaving the in-flight map has exactly the entries of the stores that acquired
theirs and have not removed it: no two of them are of one address, and none outlives its store. -/
theorem in_flight_entries_exact {held : StoreInFlightKey → Bool} {actions : List InFlightAction}
    {s : InFlightState} (hrun : run step (initial held) actions = some s) (key i) :
    s.inFlight key = some i ↔
      ∃ store, s.stores i = some store ∧ store.key = key ∧ InMap store.phase := by
  have h := ((Inv.initial held).run hrun).stores
  refine ⟨h.owner key i, ?_⟩
  rintro ⟨store, hi, rfl, hm⟩
  exact h.entry i store hi hm

theorem in_flight_entries_exact_shared : ∃ s, run step (initial fun _ => false)
    (putBetween true) = some s ∧ s.inFlight sharedKey = some 0 := by
  have hrun : run step (initial fun _ => false) (putBetween true) = some _ := rfl
  exact ⟨_, hrun, (in_flight_entries_exact hrun sharedKey 0).mpr ⟨_, rfl, rfl, .inl rfl⟩⟩

end Lore.Storage
