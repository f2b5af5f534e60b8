import Mathlib.Data.Fin.Basic
import Mathlib.Logic.Function.Basic
import Lore.Storage.StoreLock

/-!
# LockSystem — processes on one store directory

Any number of processes use one directory, each through any number of store objects. Each
`Event` is what a process does between two awaits of one of its tasks, so a run is an
interleaving of tasks and of processes. At most one acquisition of a process is past the
gate, or one advance that outlived its acquisition; `Gate` says how far it has come. An
acquisition can be dropped at every await, a process can crash at every step, and the
directory can be deleted and created again by anyone.

A flock is on a lock file, and `FSLock` polls the file it opened: a lock file that is
deleted while a process waits for it, or holds it, is still the file that process locks.
A store's memory is what the writes on disk were when each part of it was read.
-/

namespace Lore.Storage

open Lore.Lib

/-- A completed write to the directory. -/
structure Written (n : Nat) where
  writer : Fin n
  serial : Nat
deriving DecidableEq, Repr

/-- The store directory. -/
structure StoreDirectory (n : Nat) where
  present : Bool
  /-- The lock file its path names. -/
  file : Nat
  epoch : Epoch
  log : List (Written n)
  serial : Nat
  /-- The nonces drawn so far. -/
  drawn : List UInt64

/-- A store object: its lock, and what the writes on disk were when each part of its memory
was read. -/
structure OpenStore (n : Nat) where
  lock : StoreLock
  memory : List (List (Written n))

/-- A call of `acquire` or `try_acquire`. -/
structure Acquisition (σ : Type) where
  store : σ
  intent : Intent
  contention : Contention
deriving DecidableEq

/-- A guard that is not stale, or whose store was reloaded. -/
structure StoreGuard (σ : Type) where
  store : σ
  intent : Intent
  span : Bool
deriving DecidableEq

/-- Who has the gate, and how far it has come. `taken` says whether the flock was taken by
this acquisition, rather than joined, and `awaited` whether the acquisition that began an
advance still waits for it. -/
inductive Gate (n : Nat) (σ : Type) where
  | free
  | entered (acquisition : Acquisition σ)
  /-- Counted in on a flock this process holds, with the flock where it has to advance. -/
  | joined (acquisition : Acquisition σ) (stale : Bool) (advance : Option Flock) (known : Epoch)
  | opening (acquisition : Acquisition σ) (recreated : Bool)
  | creating (acquisition : Acquisition σ)
  | polling (acquisition : Acquisition σ) (file : Nat) (recreated : Bool)
  | reading (acquisition : Acquisition σ) (flock : Flock) (recreated : Bool)
  | writing (acquisition : Acquisition σ) (taken awaited : Bool) (flock : Flock) (stamp : Stamp)
      (stale : Bool)
  /-- The epoch is written and not yet recorded. -/
  | landed (acquisition : Acquisition σ) (taken awaited : Bool) (flock : Flock) (stamp : Stamp)
      (stale : Bool)
  | recorded (acquisition : Acquisition σ) (taken : Bool) (flock : Flock) (stale : Bool)
  /-- Kept by a stale guard, with what its reload read, once it began. -/
  | reloading (acquisition : Acquisition σ) (surveyed : Option (List (Written n)))

namespace Gate

variable {n : Nat} {σ : Type}

/-- The flock the gate's holder has a reference to. -/
def flocks : Gate n σ → List Flock
  | .joined _ _ advance _ => advance.toList
  | .reading _ flock _ | .writing _ _ _ flock _ _ => [flock]
  | .landed _ taken awaited flock _ _ => if taken && awaited then [flock] else []
  | .recorded _ taken flock _ => if taken then [flock] else []
  | _ => []

/-- The guards the gate's holder is counted in with. -/
def counted : Gate n σ → Nat
  | .joined .. | .reloading .. => 1
  | .writing _ taken awaited _ _ _ | .landed _ taken awaited _ _ _ =>
      if !taken && awaited then 1 else 0
  | .recorded _ taken _ _ => if taken then 0 else 1
  | _ => 0

/-- Whether the gate's holder keeps the hold on the enclosing flock, for the flock it takes
or has a reference to. -/
def encloses : Gate n σ → Bool
  | .opening .. | .creating .. | .polling .. | .reading .. | .writing .. => true
  | .landed _ taken awaited _ _ _ => taken && awaited
  | .recorded _ taken _ _ => taken
  | _ => false

/-- Whether the gate's holder takes the flock, or took it and has not stored it. -/
def taking : Gate n σ → Bool
  | .opening .. | .creating .. | .polling .. | .reading .. => true
  | .writing _ taken _ _ _ _ | .landed _ taken _ _ _ _ | .recorded _ taken _ _ => taken
  | _ => false

end Gate

/-- One process, as far as it uses the directory. -/
structure LockProcess (n : Nat) (σ : Type) where
  state : LockState
  gate : Gate n σ
  guards : List (StoreGuard σ)
  /-- Guards kept by the flock of a lock nested in this one. -/
  lent : Nat
  /-- Flocks gone whose hold on the enclosing flock is still to be dropped. -/
  freed : Nat
  stores : σ → Option (OpenStore n)

namespace LockProcess

variable {n : Nat} {σ : Type}

def initial : LockProcess n σ := ⟨.initial, .free, [], 0, 0, fun _ => none⟩

/-- The flocks the process has, one entry for each reference. -/
def flocks (process : LockProcess n σ) : List Flock :=
  process.state.held.toList ++ process.gate.flocks

/-- Whether a hold on the enclosing flock is kept for a flock of the process. -/
def encloses (process : LockProcess n σ) : Bool :=
  process.state.held.isSome || process.gate.encloses

/-- The process after a step: with the last reference to a flock goes the flock, and its hold
on the enclosing one is to be dropped next. -/
def passOn (before after : LockProcess n σ) : LockProcess n σ :=
  if before.encloses && !after.encloses then { after with freed := after.freed + 1 } else after

/-- The guard an acquisition answers. A stale one keeps the gate. -/
def handOut (process : LockProcess n σ) (acquisition : Acquisition σ) (stale : Bool) :
    LockProcess n σ :=
  if stale then { process with gate := .reloading acquisition none }
  else
    { process with
      gate := .free
      guards := ⟨acquisition.store, acquisition.intent, false⟩ :: process.guards }

variable [DecidableEq σ] (process : LockProcess n σ)

def setStore (name : σ) (store : OpenStore n) : LockProcess n σ :=
  { process with stores := Function.update process.stores name (some store) }

/-- The process with the store's lock replaced. -/
def setLock (name : σ) (lock : StoreLock) : LockProcess n σ :=
  match process.stores name with
  | none => process
  | some store => process.setStore name { store with lock := lock }

/-- The store adopts the process's current epoch, unless it is stale. -/
def adoptUnless (stale : Bool) (name : σ) : LockProcess n σ :=
  match process.stores name with
  | none => process
  | some store => if stale then process else process.setLock name (store.lock.adopt process.state)

/-- The acquisition past the gate, or the guard that keeps it, is dropped. -/
def cancel (process : LockProcess n σ) : LockProcess n σ :=
  let counted := process.gate.counted
  let gate := match process.gate with
    | .writing acquisition taken _ flock stamp stale => .writing acquisition taken false flock stamp stale
    | .landed acquisition taken _ flock stamp stale => .landed acquisition taken false flock stamp stale
    | _ => .free
  { process with
    gate := gate
    state := if counted = 0 then process.state else process.state.dropGuard false }

end LockProcess

/-- What one task of a process does between two awaits, or the store and its I/O do. -/
inductive LockEvent (σ : Type) where
  | openStore (name : σ) (reuseStateAcrossHolds holdsState : Bool)
  /-- The look `acquire` and `try_acquire` begin with. -/
  | join (name : σ) (intent : Intent)
  | enter (acquisition : Acquisition σ)
  /-- The first section past the gate, on a flock this process holds. -/
  | joinAtGate
  | advanceJoined (nonce : UInt64)
  /-- The first section past the gate where nothing is held, up to the hold on the enclosing
  flock. -/
  | beginTake
  | openLockFile
  | createDirectory
  | pollFlock
  /-- The epoch is read, or cannot be. -/
  | readEpoch (readable : Bool) (nonce : UInt64)
  | landEpoch
  /-- The write fails, and the acquisition that waits for it ends with it. -/
  | failEpoch
  | recordAdvance
  /-- The acquisition goes on after its advance. -/
  | settle
  | cancel
  | beginReload
  | noteRefreshed
  | intoSpan (guard : StoreGuard σ)
  | dropGuard (guard : StoreGuard σ)
  /-- A guard goes to the flock of a nested lock, and is dropped with it. -/
  | lend (guard : StoreGuard σ)
  | returnLent
  | dropFreed
  /-- `release_if_clean`, and each retry of a release. -/
  | release
  | flagUnflushed (value : Bool)
  | flagInUse (value : Bool)
  | writeGuarded (guard : StoreGuard σ)
  | writeCovered (name : σ)

/-- What an event leaves: the process, the directory, and the epochs the process brought in
or adopted. -/
structure LockEffect (n : Nat) (σ : Type) where
  process : LockProcess n σ
  directory : StoreDirectory n
  learned : List Epoch

namespace StoreDirectory

variable {n : Nat}

/-- A directory created where none is. -/
def create (directory : StoreDirectory n) : StoreDirectory n :=
  if directory.present then directory
  else { directory with present := true, file := directory.file + 1, epoch := .absent, log := [] }

/-- The directory deleted, with all it holds. -/
def delete (directory : StoreDirectory n) : StoreDirectory n :=
  { directory with present := false, epoch := .absent, log := [] }

/-- The next stamp, where the nonce it may need was never drawn. -/
def draw (directory : StoreDirectory n) (known : Epoch) (nonce : UInt64) :
    Option (StoreDirectory n × Stamp) :=
  if nonce ∈ directory.drawn then none
  else some ({ directory with drawn := nonce :: directory.drawn }, nextEpoch known nonce)

def write (directory : StoreDirectory n) (writer : Fin n) : StoreDirectory n :=
  { directory with
    log := directory.log ++ [⟨writer, directory.serial⟩]
    serial := directory.serial + 1 }

end StoreDirectory

section Act

variable {n : Nat} {σ : Type} [DecidableEq σ]

/-- What the process `p` does, `none` where it cannot. `unlocked` says of a lock file that no
process has it locked. -/
def LockProcess.act (unlocked : Nat → Bool) (p : Fin n) (directory : StoreDirectory n)
    (process : LockProcess n σ) : LockEvent σ → Option (LockEffect n σ)
  | .openStore name reuse holdsState =>
      if (process.stores name).isSome then none
      else some ⟨process.setStore name ⟨.opened reuse holdsState, []⟩, directory, []⟩
  | .join name intent => do
      let store ← process.stores name
      let (state, lock) ← store.lock.tryJoin process.state intent
      some ⟨{ (process.setLock name lock) with
        state := state, guards := ⟨name, intent, false⟩ :: process.guards }, directory, []⟩
  | .enter acquisition =>
      match process.gate, process.stores acquisition.store with
      | .free, some _ => some ⟨{ process with gate := .entered acquisition }, directory, []⟩
      | _, _ => none
  | .joinAtGate =>
      match process.gate, process.state.held with
      | .entered acquisition, some flock => do
          let store ← process.stores acquisition.store
          match store.lock.tryJoin process.state acquisition.intent with
          | some (state, lock) =>
              some ⟨({ (process.setLock acquisition.store lock) with state := state }).handOut
                acquisition false, directory, []⟩
          | none =>
              let current := store.lock.isCurrent process.state
              let advance := acquisition.intent = .write && !process.state.advanced
              let lock := if current then store.lock.takeGeneration process.state else store.lock
              some ⟨{ (process.setLock acquisition.store lock) with
                state := process.state.countIn
                gate := .joined acquisition (!current) (if advance then some flock else none)
                  process.state.current }, directory, []⟩
      | _, _ => none
  | .advanceJoined nonce =>
      match process.gate with
      | .joined acquisition stale advance known =>
          -- A stale store's files in use are waited for.
          if stale && process.state.filesInUse then none
          else
            match advance with
            | none => some ⟨process.handOut acquisition stale, directory, []⟩
            | some flock => do
                let (directory, stamp) ← directory.draw known nonce
                some ⟨{ process with gate := .writing acquisition false true flock stamp stale },
                  directory, []⟩
      | _ => none
  | .beginTake =>
      match process.gate, process.state.held with
      | .entered acquisition, none =>
          some ⟨{ process with gate := .opening acquisition false }, directory, []⟩
      | _, _ => none
  | .openLockFile =>
      match process.gate with
      | .opening acquisition recreated =>
          if directory.present then
            some ⟨{ process with gate := .polling acquisition directory.file recreated }, directory, []⟩
          else if recreated then some ⟨{ process with gate := .free }, directory, []⟩
          else some ⟨{ process with gate := .creating acquisition }, directory, []⟩
      | _ => none
  | .createDirectory =>
      match process.gate with
      | .creating acquisition =>
          some ⟨{ process with gate := .opening acquisition true }, directory.create, []⟩
      | _ => none
  | .pollFlock =>
      match process.gate with
      | .polling acquisition file recreated =>
          if unlocked file then
            some ⟨{ process with gate := .reading acquisition ⟨file⟩ recreated }, directory, []⟩
          else if acquisition.contention = .skip then
            some ⟨{ process with gate := .free }, directory, []⟩
          else none
      | _ => none
  | .readEpoch readable nonce =>
      match process.gate with
      | .reading acquisition flock recreated => do
          let store ← process.stores acquisition.store
          let onDisk := if readable then directory.epoch else .unreadable
          let stale := (recreated && store.lock.holdsState) || store.lock.isStaleAgainst onDisk
          if acquisition.intent = .write ∨ recreated = true then
            let (directory, stamp) ← directory.draw onDisk nonce
            some ⟨{ process with gate := .writing acquisition true true flock stamp stale },
              directory, []⟩
          else
            some ⟨(({ process with state := process.state.holdUnadvanced flock onDisk }).adoptUnless
              stale acquisition.store).handOut acquisition stale, directory,
              if stale then [] else [onDisk]⟩
      | _ => none
  | .landEpoch =>
      match process.gate with
      | .writing acquisition taken awaited flock stamp stale =>
          if directory.present then
            some ⟨{ process with gate := .landed acquisition taken awaited flock stamp stale },
              { directory with epoch := .stamped stamp }, [.stamped stamp]⟩
          else none
      | _ => none
  | .failEpoch =>
      match process.gate with
      | .writing .. => some ⟨{ process.cancel with gate := .free }, directory, []⟩
      | _ => none
  | .recordAdvance =>
      match process.gate with
      | .landed acquisition taken awaited flock stamp stale =>
          some ⟨({ process with
            state := process.state.recordAdvance stamp
            gate := if awaited then .recorded acquisition taken flock stale else .free }).adoptUnless
              stale acquisition.store, directory, if stale then [] else [.stamped stamp]⟩
      | _ => none
  | .settle =>
      match process.gate with
      | .recorded acquisition taken flock stale =>
          some ⟨({ process with
            state := if taken then process.state.holdAdvanced flock else process.state }).handOut
              acquisition stale, directory, []⟩
      | _ => none
  | .cancel => some ⟨process.cancel, directory, []⟩
  | .beginReload =>
      match process.gate with
      | .reloading acquisition none => do
          let store ← process.stores acquisition.store
          some ⟨{ (process.setStore acquisition.store
              { store with memory := store.memory ++ [directory.log] }) with
            gate := .reloading acquisition (some directory.log) }, directory, []⟩
      | _ => none
  | .noteRefreshed =>
      match process.gate with
      | .reloading acquisition (some surveyed) => do
          let store ← process.stores acquisition.store
          some ⟨(process.setStore acquisition.store
              ⟨store.lock.adopt process.state, [surveyed]⟩).handOut acquisition false, directory,
            [process.state.current]⟩
      | _ => none
  | .intoSpan guard =>
      if guard ∈ process.guards ∧ guard.span = false then
        some ⟨{ process with
          state := process.state.intoSpan
          guards := { guard with span := true } :: process.guards.erase guard }, directory, []⟩
      else none
  | .dropGuard guard =>
      if guard ∈ process.guards then
        some ⟨{ process with
          state := process.state.dropGuard guard.span
          guards := process.guards.erase guard }, directory, []⟩
      else none
  | .lend guard =>
      if guard ∈ process.guards ∧ guard.span = false then
        some ⟨{ process with guards := process.guards.erase guard, lent := process.lent + 1 },
          directory, []⟩
      else none
  | .returnLent =>
      if 0 < process.lent then
        some ⟨{ process with state := process.state.dropGuard false, lent := process.lent - 1 },
          directory, []⟩
      else none
  | .dropFreed =>
      if 0 < process.freed then
        some ⟨{ process with freed := process.freed - 1 }, directory, []⟩
      else none
  | .release => some ⟨{ process with state := process.state.releaseUnlessInUse }, directory, []⟩
  | .flagUnflushed value =>
      some ⟨{ process with state := { process.state with hasUnflushed := value } }, directory, []⟩
  | .flagInUse value =>
      some ⟨{ process with state := { process.state with filesInUse := value } }, directory, []⟩
  | .writeGuarded guard =>
      if guard ∈ process.guards ∧ guard.intent = .write ∧ directory.present = true then
        some ⟨process, directory.write p, []⟩
      else none
  | .writeCovered name => do
      let store ← process.stores name
      if store.lock.covers process.state .write = true ∧ directory.present = true then
        some ⟨process, directory.write p, []⟩
      else none

end Act

/-- The directory and the processes that use it. -/
structure LockWorld (n : Nat) (σ : Type) where
  directory : StoreDirectory n
  processes : Fin n → LockProcess n σ
  /-- The epochs each process has brought in or adopted. -/
  learned : List (Fin n × Epoch)

inductive LockAction (n : Nat) (σ : Type) where
  | act (p : Fin n) (event : LockEvent σ)
  | crash (p : Fin n)
  /-- Anyone deletes the directory, or creates it again. -/
  | delete
  | recreate

namespace LockWorld

variable {n : Nat} {σ : Type} [DecidableEq σ]

/-- Whether no process has the lock file locked. -/
def unlocked (world : LockWorld n σ) (file : Nat) : Bool :=
  decide (∀ p, ∀ flock ∈ (world.processes p).flocks, flock.file ≠ file)

def step (world : LockWorld n σ) : LockAction n σ → Option (LockWorld n σ)
  | .act p event =>
      ((world.processes p).act world.unlocked p world.directory event).map fun effect =>
        ⟨effect.directory,
          Function.update world.processes p ((world.processes p).passOn effect.process),
          world.learned ++ effect.learned.map (p, ·)⟩
  | .crash p => some { world with processes := Function.update world.processes p .initial }
  | .delete => some { world with directory := world.directory.delete }
  | .recreate => some { world with directory := world.directory.create }

/-- No process has the directory open, and nothing was written under an epoch yet. -/
structure Initial (world : LockWorld n σ) : Prop where
  processes : ∀ p, world.processes p = .initial
  learned : world.learned = []
  log : world.directory.log = []
  absent : world.directory.present = false → world.directory.epoch = .absent
  drawn : ∀ stamp, world.directory.epoch = .stamped stamp → stamp.nonce ∈ world.directory.drawn

end LockWorld

end Lore.Storage
