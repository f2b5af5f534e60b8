import Mathlib.Data.List.Basic
import Mathlib.Data.List.Count
import Lore.Storage.LockSystem

/-!
# LockCounts — what one process keeps of its own lock

What a process keeps whatever the others do: the guards are counted, the flock is held while
any is in flight, a write guard is only handed out once the epoch was advanced, and the
published word is the state's. `LockProcess.Does` says what an event can do to the lock, and
everything an event can do keeps it (`Counted.does`), and so every run.
-/

namespace Lore.Storage

open Lore.Lib List LockProcess

/-! ## The sections -/

namespace LockState

@[simp] theorem publish_active (state : LockState) : state.publish.active = state.active := rfl
@[simp] theorem publish_spans (state : LockState) : state.publish.spans = state.spans := rfl

theorem releaseUnlessInUse_cases (state : LockState) :
    state.releaseUnlessInUse = state.publish ∨
      (state.active = 0 ∧
        state.releaseUnlessInUse = { state with held := none, advanced := false }.publish) := by
  unfold releaseUnlessInUse
  split
  next h => exact .inr ⟨h.1, rfl⟩
  next => exact .inl rfl

/-- What a release keeps. -/
structure Released (before after : LockState) : Prop where
  active : after.active = before.active
  spans : after.spans = before.spans
  current : after.current = before.current
  generation : after.generation = before.generation
  published : after.live = after.word
  /-- The flock is kept, or goes with nothing in flight. -/
  held : (after.held = before.held ∧ after.advanced = before.advanced) ∨
    (before.active = 0 ∧ after.held = none)

theorem released (state : LockState) : Released state state.releaseUnlessInUse := by
  rcases state.releaseUnlessInUse_cases with h | ⟨ha, h⟩
  · rw [h]
    exact ⟨rfl, rfl, rfl, rfl, rfl, .inl ⟨rfl, rfl⟩⟩
  · rw [h]
    exact ⟨rfl, rfl, rfl, rfl, rfl, .inr ⟨ha, rfl⟩⟩

end LockState

theorem nextGeneration_lt (generation : UInt64) : nextGeneration generation < generationMask := by
  simp only [nextGeneration]
  split
  next => decide
  next h =>
    rw [UInt64.lt_iff_toNat_lt]
    have hle : ((generation + 1) &&& generationMask).toNat ≤ generationMask.toNat := by
      exact Nat.and_le_right
    have hne : ((generation + 1) &&& generationMask).toNat ≠ generationMask.toNat :=
      fun heq => h (UInt64.toNat_inj.mp heq)
    omega

/-! ## The invariant -/

namespace Gate

variable {n : Nat} {σ : Type}

/-- Whether the gate's holder may write once it has its guard. -/
def announced : Gate n σ → Bool
  | .joined acquisition _ advance _ => acquisition.intent = .write && advance.isNone
  | .recorded _ taken _ _ => !taken
  | .reloading acquisition _ => acquisition.intent = .write
  | _ => false

theorem counted_of_announced {gate : Gate n σ} (h : gate.announced = true) : 0 < gate.counted := by
  cases gate with
  | recorded acquisition taken flock stale =>
    cases taken with
    | true => cases h
    | false => exact Nat.one_pos
  | joined | reloading => exact Nat.one_pos
  | _ => cases h

end Gate

/-- What a process keeps of its own lock. -/
structure Counted {n : Nat} {σ : Type} (process : LockProcess n σ) : Prop where
  active : process.state.active = process.guards.length + process.lent + process.gate.counted
  spans : process.state.spans = process.guards.countP (·.span)
  held : 0 < process.state.active → process.state.held.isSome = true
  taking : process.gate.taking = true → process.state.held = none
  advanced : (∃ guard ∈ process.guards, guard.intent = .write) ∨ process.gate.announced = true →
    process.state.advanced = true
  published : process.state.live = process.state.word
  generation : process.state.generation < generationMask

section Counted

variable {n : Nat} {σ : Type}

theorem Counted.initial : Counted (LockProcess.initial : LockProcess n σ) where
  active := rfl
  spans := rfl
  held h := absurd h (Nat.lt_irrefl 0)
  taking h := nomatch h
  advanced h := by
    rcases h with ⟨guard, hg, -⟩ | h
    · exact absurd hg not_mem_nil
    · cases h
  published := rfl
  generation := show (0 : UInt64) < generationMask by decide

theorem Counted.passOn {before after : LockProcess n σ} (h : Counted after) :
    Counted (before.passOn after) := by
  unfold LockProcess.passOn
  split
  · exact { h with }
  · exact h

/-- The flock is released where it may be: what was counted before still is. -/
theorem Counted.release {after : LockProcess n σ} {before : LockState}
    (hst : after.state = before.releaseUnlessInUse)
    (hac : before.active = after.guards.length + after.lent + after.gate.counted)
    (hsp : before.spans = after.guards.countP (·.span))
    (hh : 0 < before.active → before.held.isSome = true)
    (hta : after.gate.taking = true → before.held = none)
    (had : (∃ guard ∈ after.guards, guard.intent = .write) ∨ after.gate.announced = true →
      before.advanced = true) (hg : before.generation < generationMask) : Counted after := by
  have hr := before.released
  rw [← hst] at hr
  refine ⟨hr.active.trans hac, hr.spans.trans hsp, fun hpos => ?_,
    fun ht => ?_, fun hw => ?_, hr.published, hr.generation ▸ hg⟩
  · rcases hr.held with ⟨heq, -⟩ | ⟨hz, -⟩
    · rw [heq]
      exact hh (hr.active ▸ hpos)
    · exact absurd (hr.active.trans hz) (Nat.pos_iff_ne_zero.mp hpos)
  · rcases hr.held with ⟨heq, -⟩ | ⟨-, hn⟩
    · rw [heq]
      exact hta ht
    · exact hn
  · rcases hr.held with ⟨-, heq⟩ | ⟨hz, -⟩
    · rw [heq]
      exact had hw
    · -- Nothing is in flight, so no guard is left to write.
      rcases hw with ⟨guard, hgu, -⟩ | ha
      · have := length_pos_of_mem hgu
        omega
      · have := Gate.counted_of_announced ha
        omega

theorem Counted.drop {process after : LockProcess n σ} (h : Counted process) {span : Bool}
    (hst : after.state = process.state.dropGuard span)
    (hac : process.guards.length + process.lent + process.gate.counted =
      after.guards.length + after.lent + after.gate.counted + 1)
    (hsp : process.guards.countP (·.span) = after.guards.countP (·.span) + if span then 1 else 0)
    (hg : ∀ guard ∈ after.guards, guard ∈ process.guards)
    (hta : after.gate.taking = true → process.gate.taking = true)
    (ha : after.gate.announced = true → process.gate.announced = true) : Counted after := by
  have hc := h.active
  have hc' := h.spans
  refine Counted.release hst ?_ ?_ (fun _ => h.held (by omega)) (fun ht => h.taking (hta ht))
    (fun hw => h.advanced ?_) h.generation
  · show process.state.active - 1 = _
    omega
  · cases span <;> simp only [Bool.false_eq_true, if_true, if_false] at hsp ⊢ <;> omega
  · exact hw.imp (fun ⟨guard, hgu, hi⟩ => ⟨guard, hg guard hgu, hi⟩) ha

section

variable {process : LockProcess n σ} (h : Counted process)
include h

theorem Counted.handOut {acquisition : Acquisition σ} {stale : Bool} (hc : process.gate.counted = 1)
    (ha : acquisition.intent = .write → process.state.advanced = true) :
    Counted (process.handOut acquisition stale) := by
  unfold LockProcess.handOut
  have hac := h.active
  split
  next =>
    rw [hc] at hac
    refine ⟨hac, h.spans, h.held, (nomatch ·), ?_, h.published, h.generation⟩
    exact fun hw => hw.elim (h.advanced <| .inl ·) fun hga => ha (of_decide_eq_true hga)
  next =>
    refine ⟨?_, by simpa using h.spans, h.held, (nomatch ·), ?_, h.published, h.generation⟩
    · simp only [length_cons, Gate.counted]
      omega
    · rintro (hg | hga)
      · exact (or_exists_of_exists_mem_cons hg).elim ha (h.advanced <| .inl ·)
      · cases hga

theorem Counted.move {gate : Gate n σ} (hc : gate.counted = process.gate.counted)
    (ht : gate.taking = true → process.state.held = none)
    (ha : gate.announced = true → process.state.advanced = true) :
    Counted { process with gate := gate } where
  __ := h
  active := by rw [hc]; exact h.active
  taking := ht
  advanced hw := hw.elim (h.advanced <| .inl ·) ha

theorem Counted.cancel {gate : Gate n σ} (hf : gate = .free ∨ gate = process.cancel.gate) :
    Counted { process.cancel with gate := gate } := by
  obtain ⟨hc, han, hta⟩ : gate.counted = 0 ∧ gate.announced = false ∧
      (gate.taking = true → process.gate.taking = true) := by
    rcases hf with rfl | rfl
    · exact ⟨rfl, rfl, nofun⟩
    · unfold LockProcess.cancel
      cases process.gate <;> simp [Gate.counted, Gate.announced, Gate.taking]
  by_cases hz : process.gate.counted = 0
  · have hmove := h.move (hc.trans hz.symm) (fun ht => h.taking (hta ht))
      (fun ha => absurd ha (by simp [han]))
    simpa [LockProcess.cancel, hz] using hmove
  · have hone : process.gate.counted = 1 := by
      revert hz
      cases process.gate <;> simp [Gate.counted]
    refine @Counted.drop n σ process _ h false ?_ ?_ ?_ (fun _ hg => hg) hta ?_
    · simp [LockProcess.cancel, hone]
    · show process.guards.length + process.lent + process.gate.counted =
        process.guards.length + process.lent + gate.counted + 1
      omega
    · simp [LockProcess.cancel]
    · exact fun ha => absurd ha (by simp [han])

theorem Counted.countIn {gate : Gate n σ} (hh : process.state.held.isSome = true)
    (hf : process.gate.counted = 0) (hc : gate.counted = 1) (hta : gate.taking = false)
    (ha : gate.announced = true → process.state.advanced = true) :
    Counted { process with state := process.state.countIn, gate := gate } where
  __ := h
  active := by
    have := h.active
    simp only [LockState.countIn]
    omega
  held _ := hh
  taking ht := absurd ht (by simp [hta])
  advanced hw := hw.elim (h.advanced <| .inl ·) ha

theorem Counted.join {guard : StoreGuard σ} (hh : process.state.held.isSome = true)
    (hsp : guard.span = false) (ha : guard.intent = .write → process.state.advanced = true) :
    Counted { process with
      state := process.state.countIn
      guards := guard :: process.guards } where
  __ := h
  active := by
    have := h.active
    simp only [LockState.countIn, length_cons]
    omega
  spans := by simpa [hsp, LockState.countIn] using h.spans
  held _ := hh
  advanced hw := by
    rw [exists_mem_cons_iff, or_assoc] at hw
    exact hw.elim ha h.advanced

end

theorem Counted.hold {process : LockProcess n σ} (h : Counted process) {stores state}
    {acquisition : Acquisition σ} {stale : Bool} {flock : Flock} (ht : process.gate.counted = 0)
    (hn : process.state.held = none) (hh : state.held = some flock)
    (hac : state.active = process.state.active + 1) (hsp : state.spans = process.state.spans)
    (ha : acquisition.intent = .write → state.advanced = true)
    (hp : state.live = state.word) (hge : state.generation < generationMask) :
    Counted ({ process with stores := stores, state := state }.handOut acquisition stale) := by
  -- Nothing was held, so no guard was in flight.
  have he : process.guards = [] := by
    refine length_eq_zero_iff.mp ?_
    by_contra hpos
    have := h.held (by have := h.active; omega)
    simp [hn] at this
  have hc := h.active
  have hcounted : Counted { process with
      stores := stores, state := state, gate := .reloading acquisition none } := by
    refine ⟨?_, hsp.trans h.spans, fun _ => by simp [hh], nofun, ?_, hp, hge⟩
    · simp only [Gate.counted]
      omega
    · rintro (⟨guard, hgu, -⟩ | hga)
      · simp [he] at hgu
      · exact ha (of_decide_eq_true hga)
  exact hcounted.handOut rfl ha

variable [DecidableEq σ]

theorem LockProcess.setLock_eq (process : LockProcess n σ) (name : σ) (lock : StoreLock) :
    process.setLock name lock = { process with stores := (process.setLock name lock).stores } := by
  unfold setLock
  split <;> rfl

theorem LockProcess.adoptUnless_eq (process : LockProcess n σ) (stale : Bool) (name : σ) :
    process.adoptUnless stale name =
      { process with stores := (process.adoptUnless stale name).stores } := by
  unfold adoptUnless
  split
  · rfl
  · split
    · rfl
    · exact process.setLock_eq _ _

theorem tryJoin_eq_some {lock lock' : StoreLock} {state state'} {intent : Intent}
    (h : lock.tryJoin state intent = some (state', lock')) :
    state.held.isSome = true ∧ (intent = .write → state.advanced = true) ∧
      state' = state.countIn := by
  unfold StoreLock.tryJoin at h
  split at h
  · cases h
  next hj =>
    push Not at hj
    obtain ⟨hh, ha, -⟩ := hj
    cases h
    refine ⟨?_, fun hw => ?_, rfl⟩
    · simpa [Option.isSome_iff_ne_none] using hh
    · simpa using ha hw

/-- What an event can do to the lock of its process, whatever it does to the stores. -/
inductive LockProcess.Does (process : LockProcess n σ) : LockEvent σ → LockProcess n σ → Prop
  | keeps {event stores unflushed inUse} : Does process event { process with
      stores := stores
      state := { process.state with hasUnflushed := unflushed, filesInUse := inUse } }
  | joins {event stores gate guard} (hheld : process.state.held.isSome = true)
      (hspan : guard.span = false) (hadvanced : guard.intent = .write → process.state.advanced = true)
      (hgate : gate = process.gate ∨ gate = .free ∧ process.gate.counted = 0) :
      Does process event { process with
        stores := stores
        state := process.state.countIn
        gate := gate
        guards := guard :: process.guards }
  | countsIn {event stores gate} (hheld : process.state.held.isSome = true)
      (hfree : process.gate.counted = 0) (hcounted : gate.counted = 1)
      (htaking : gate.taking = false)
      (hannounced : gate.announced = true → process.state.advanced = true) :
      Does process event { process with
        stores := stores, state := process.state.countIn, gate := gate }
  | goes {event stores gate} (hcounted : gate.counted = process.gate.counted)
      (htaking : gate.taking = true → process.state.held = none ∨ process.gate.taking = true)
      (hannounced : gate.announced = true → process.gate.announced = true)
      (hencloses : gate.encloses = true →
        event = .beginTake ∨ 0 < process.gate.counted ∨ process.gate.encloses = true) :
      Does process event { process with stores := stores, gate := gate }
  | cancels {event gate} (hfree : gate = .free ∨ gate = process.cancel.gate) :
      Does process event { process.cancel with gate := gate }
  | records {event stores gate stamp} (hcounted : gate.counted = process.gate.counted)
      (htaking : gate.taking = true → process.gate.taking = true)
      (hencloses : gate.encloses = true → process.gate.encloses = true) :
      Does process event { process with
        stores := stores, state := process.state.recordAdvance stamp, gate := gate }
  | handsOut {event stores acquisition stale} (hcounted : process.gate.counted = 1)
      (hannounced : acquisition.intent = .write → process.gate.announced = true) :
      Does process event ({ process with stores := stores }.handOut acquisition stale)
  /-- The flock that was taken is stored, with the first guard on it. -/
  | holds {event stores state acquisition stale flock} (htaken : process.gate.counted = 0)
      (htaking : process.gate.taking = true) (hencloses : process.gate.encloses = true)
      (hheld : state.held = some flock) (hactive : state.active = process.state.active + 1)
      (hspans : state.spans = process.state.spans)
      (hadvanced : acquisition.intent = .write → state.advanced = true)
      (hpublished : state.live = state.word)
      (hgeneration : process.state.generation < generationMask →
        state.generation < generationMask) :
      Does process event
        ({ process with stores := stores, state := state }.handOut acquisition stale)
  | intoSpan {event guard} (hmem : guard ∈ process.guards) (hspan : guard.span = false) :
      Does process event { process with
        state := process.state.intoSpan
        guards := { guard with span := true } :: process.guards.erase guard }
  | dropsGuard {event guard} (hmem : guard ∈ process.guards) : Does process event { process with
      state := process.state.dropGuard guard.span
      guards := process.guards.erase guard }
  | lends {guard} (hmem : guard ∈ process.guards) (hspan : guard.span = false) :
      Does process (.lend guard) { process with
        guards := process.guards.erase guard, lent := process.lent + 1 }
  | takesBack (hlent : 0 < process.lent) : Does process .returnLent { process with
      state := process.state.dropGuard false, lent := process.lent - 1 }
  | dropsFreed : Does process .dropFreed { process with freed := process.freed - 1 }
  | releases {event} : Does process event { process with
      state := process.state.releaseUnlessInUse }

theorem LockProcess.act_does {process : LockProcess n σ} {unlocked p directory event}
    {effect : LockEffect n σ} (hact : process.act unlocked p directory event = some effect) :
    process.Does event effect.process := by
  -- With the gate a variable, each case of the match names what the gate was.
  obtain ⟨state, gate, guards, lent, freed, stores⟩ := process
  cases event <;> simp only [act] at hact
  case openStore name reuse holdsState =>
    split at hact <;> cases hact
    exact .keeps
  case join name intent =>
    obtain ⟨store, -, hact⟩ := Option.bind_eq_some_iff.mp hact
    obtain ⟨⟨state, lock⟩, hj, hact⟩ := Option.bind_eq_some_iff.mp hact
    cases hact
    obtain ⟨hh, ha, rfl⟩ := tryJoin_eq_some hj
    rw [setLock_eq]
    exact .joins hh rfl ha (.inl rfl)
  case enter acquisition =>
    split at hact <;> cases hact
    exact .goes rfl nofun nofun nofun
  case joinAtGate =>
    split at hact
    next acquisition flock hh =>
      obtain ⟨store, -, hact⟩ := Option.bind_eq_some_iff.mp hact
      have hso : state.held.isSome = true := by simp [hh]
      split at hact
      next lock hj =>
        cases hact
        obtain ⟨-, ha, rfl⟩ := tryJoin_eq_some hj
        rw [setLock_eq]
        exact .joins hso rfl ha (.inr ⟨rfl, rfl⟩)
      next =>
        cases hact
        rw [setLock_eq]
        refine .countsIn hso rfl rfl rfl fun han => ?_
        by_cases hw : acquisition.intent = .write <;>
          simp_all [Gate.announced]
    next => cases hact
  case advanceJoined nonce =>
    split at hact
    next acquisition stale advance known =>
      split at hact
      · cases hact
      · split at hact
        next =>
          cases hact
          exact .handsOut rfl fun hw => by simp [Gate.announced, hw]
        next =>
          obtain ⟨drawn, -, hact⟩ := Option.bind_eq_some_iff.mp hact
          cases hact
          exact .goes rfl nofun nofun fun _ => .inr (.inl Nat.one_pos)
    next => cases hact
  case beginTake =>
    split at hact <;> cases hact
    next hn => exact .goes rfl (fun _ => .inl hn) nofun fun _ => .inl rfl
  case openLockFile =>
    split at hact
    next =>
      split at hact
      · cases hact
        exact .goes rfl .inr nofun fun he => .inr (.inr he)
      · split at hact <;> cases hact
        · exact .goes rfl nofun nofun nofun
        · exact .goes rfl .inr nofun fun he => .inr (.inr he)
    next => cases hact
  case createDirectory =>
    split at hact <;> cases hact
    exact .goes rfl .inr nofun fun he => .inr (.inr he)
  case pollFlock =>
    split at hact
    next =>
      split at hact
      · cases hact
        exact .goes rfl .inr nofun fun he => .inr (.inr he)
      · split at hact <;> cases hact
        exact .goes rfl nofun nofun nofun
    next => cases hact
  case readEpoch readable nonce =>
    split at hact
    next acquisition flock recreated =>
      obtain ⟨store, -, hact⟩ := Option.bind_eq_some_iff.mp hact
      split at hact
      · obtain ⟨drawn, -, hact⟩ := Option.bind_eq_some_iff.mp hact
        cases hact
        exact .goes rfl .inr nofun fun he => .inr (.inr he)
      next hr =>
        cases hact
        rw [adoptUnless_eq]
        exact .holds rfl rfl rfl rfl rfl rfl (fun hw => absurd (.inl hw) hr) rfl
          fun _ => nextGeneration_lt _
    next => cases hact
  case landEpoch =>
    split at hact
    next =>
      split at hact <;> cases hact
      exact .goes rfl .inr nofun (by simp [Gate.encloses])
    next => cases hact
  case failEpoch =>
    split at hact <;> cases hact
    exact .cancels (.inl rfl)
  case recordAdvance =>
    split at hact <;> cases hact
    next acquisition taken awaited flock stamp stale =>
      rw [adoptUnless_eq]
      refine .records ?_ ?_ ?_
      · cases awaited <;> cases taken <;> rfl
      · cases awaited <;> simp [Gate.taking]
      · cases awaited <;> simp [Gate.encloses]
  case settle =>
    split at hact <;> cases hact
    next acquisition taken flock stale =>
      cases taken with
      | true => exact .holds rfl rfl rfl rfl rfl rfl (fun _ => rfl) rfl id
      | false => exact .handsOut rfl fun _ => rfl
  case cancel =>
    cases hact
    exact .cancels (.inr rfl)
  case beginReload =>
    split at hact
    next acquisition =>
      obtain ⟨store, -, hact⟩ := Option.bind_eq_some_iff.mp hact
      cases hact
      exact .goes rfl nofun id nofun
    next => cases hact
  case noteRefreshed =>
    split at hact
    next acquisition surveyed =>
      obtain ⟨store, -, hact⟩ := Option.bind_eq_some_iff.mp hact
      cases hact
      refine @Does.handsOut n σ _ ⟨state, _, guards, lent, freed, stores⟩ _ _ _ false rfl fun hw => ?_
      exact decide_eq_true hw
    next => cases hact
  case intoSpan guard =>
    split at hact <;> cases hact
    next hg => exact .intoSpan hg.1 hg.2
  case dropGuard guard =>
    split at hact <;> cases hact
    next hmem => exact .dropsGuard hmem
  case lend guard =>
    split at hact <;> cases hact
    next hg => exact .lends hg.1 hg.2
  case returnLent =>
    split at hact <;> cases hact
    next hl => exact .takesBack hl
  case dropFreed =>
    split at hact <;> cases hact
    exact .dropsFreed
  case release =>
    cases hact
    exact .releases
  case flagUnflushed value | flagInUse value =>
    cases hact
    exact .keeps
  case writeGuarded guard =>
    split at hact <;> cases hact
    exact .keeps
  case writeCovered name =>
    obtain ⟨store, -, hact⟩ := Option.bind_eq_some_iff.mp hact
    split at hact <;> cases hact
    exact .keeps

theorem Counted.does {process after : LockProcess n σ} {event} (h : Counted process)
    (hd : process.Does event after) : Counted after := by
  cases hd with
  | keeps => exact { h with }
  | @joins _ stores gate guard hh hspa had hga =>
    have hen : Counted { process with gate := gate } := by
      rcases hga with rfl | ⟨rfl, hf⟩
      · exact h
      · exact h.move (by rw [hf]; rfl) nofun nofun
    exact { hen.join hh hspa had with }
  | countsIn hh hf hc hta han =>
    exact { h.countIn hh hf hc hta han with }
  | goes hc hta han he =>
    exact { h.move hc (fun ht => (hta ht).elim id h.taking)
      fun ha => h.advanced (.inr (han ha)) with }
  | cancels hf => exact h.cancel hf
  | @records _ stores gate stamp hc hta he =>
    have hac := h.active
    refine ⟨h.active.trans (by rw [hc]), h.spans, h.held, fun ht => h.taking (hta ht), ?_,
      rfl, nextGeneration_lt _⟩
    -- Whoever may write is counted, so the flock is held.
    rintro (⟨guard, hgu, -⟩ | han)
    · have : 0 < process.guards.length := length_pos_of_mem hgu
      exact h.held (by omega)
    · have : 0 < gate.counted := Gate.counted_of_announced han
      exact h.held (by omega)
  | @handsOut _ stores _ stale hc han =>
    have hsa : Counted { process with stores := stores } := { h with }
    exact hsa.handOut hc fun hw => h.advanced (.inr (han hw))
  | holds htak hta he hh hac hsp had hp hge =>
    exact h.hold htak (h.taking hta) hh hac hsp had hp (hge h.generation)
  | @intoSpan _ guard hmem hspa =>
    have hl := length_erase_of_mem hmem
    have hpos := length_pos_of_mem hmem
    have hco : process.guards.countP (·.span) = (process.guards.erase guard).countP (·.span) := by
      rw [countP_erase]
      simp [hspa]
    refine ⟨?_, ?_, h.held, h.taking, ?_, rfl, h.generation⟩
    · have := h.active
      simp only [LockState.intoSpan, LockState.publish_active, length_cons]
      omega
    · have := h.spans
      simp only [LockState.intoSpan, LockState.publish_spans, countP_cons, if_true]
      omega
    · rw [exists_mem_cons_iff, or_assoc]
      rintro (hi | hw)
      · exact h.advanced (.inl ⟨guard, hmem, hi⟩)
      · exact h.advanced (hw.imp_left fun ⟨other, ho, hi⟩ => ⟨other, mem_of_mem_erase ho, hi⟩)
  | @dropsGuard _ guard hmem =>
    have hl := length_erase_of_mem hmem
    have hpos := length_pos_of_mem hmem
    refine @Counted.drop n σ process _ h _ rfl ?_ ?_ (fun other ho => mem_of_mem_erase ho) id id
    · show _ = (process.guards.erase guard).length + process.lent + process.gate.counted + 1
      omega
    · rw [countP_erase]
      have hco : guard.span = true → 0 < process.guards.countP (·.span) :=
        fun hspa => countP_pos_iff.mpr ⟨guard, hmem, hspa⟩
      by_cases hspa : guard.span = true
      · have := hco hspa
        simp [hmem, hspa]
        omega
      · simp [hspa]
  | @lends guard hmem hspa =>
    have hl := length_erase_of_mem hmem
    have hpos := length_pos_of_mem hmem
    refine ⟨?_, ?_, h.held, h.taking, ?_, h.published, h.generation⟩
    · have := h.active
      simp only
      omega
    · rw [countP_erase]
      simpa [hspa] using h.spans
    · exact fun hw =>
        h.advanced (hw.imp_left fun ⟨other, ho, hi⟩ => ⟨other, mem_of_mem_erase ho, hi⟩)
  | takesBack hle =>
    refine @Counted.drop n σ process _ h false rfl ?_ (by simp) (fun _ hg => hg) id id
    show _ = process.guards.length + (process.lent - 1) + process.gate.counted + 1
    omega
  | dropsFreed => exact { h with }
  | releases =>
    exact .release rfl h.active h.spans h.held h.taking h.advanced h.generation

end Counted

end Lore.Storage
