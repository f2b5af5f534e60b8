import Lore.Lib.Machine

/-!
# StoreLock — the lock on a store directory

One `LockState` stands for a directory in each process that has a store open on it: the
flock while it is held, the guards counted in, and the epoch the process last established.
Each store object has a `StoreLock` of its own, saying which epoch its memory was built
against. Every definition here is one section of the source under the directory's state
lock. What runs between the sections, and on disk, is in `LockSystem`.
-/

namespace Lore.Storage

/-- What a caller intends to do under the lock. -/
inductive Intent where
  | read
  | write
deriving DecidableEq, Repr

/-- How an acquisition treats another process holding the flock. -/
inductive Contention where
  | wait
  | skip
deriving DecidableEq, Repr

/-! ## Epochs -/

/-- Which lifetime of the store directory, and how far into it. -/
structure Stamp where
  nonce : UInt64
  count : UInt64
deriving DecidableEq, Repr

/-- What the store directory says about its epoch. -/
inductive Epoch where
  | absent
  | unreadable
  | stamped (stamp : Stamp)
deriving DecidableEq, Repr

/-- `is_stale`: only two definite answers that match are fresh. -/
def isStale (observed : Option Epoch) (current : Epoch) : Bool :=
  match observed with
  | some (.stamped mine) => current ≠ .stamped mine
  | some .absent => current ≠ .absent
  | some .unreadable | none => true

/-- `next_epoch`: a readable epoch counts on; anything else begins a lifetime, under the
nonce drawn. -/
def nextEpoch (current : Epoch) (nonce : UInt64) : Stamp :=
  match current with
  | .stamped stamp => ⟨stamp.nonce, stamp.count + 1⟩
  | .absent | .unreadable => ⟨nonce, 1⟩

/-! ## Generations -/

/-- `NEVER_ADOPTED`. -/
def neverAdopted : UInt64 := 0xFFFFFFFFFFFFFFFF

/-- `GENERATION_MASK`. -/
def generationMask : UInt64 := neverAdopted >>> 1

/-- `ADVANCED`. -/
def advancedBit : UInt64 := ~~~ generationMask

/-- `NOT_HELD`. -/
def notHeld : UInt64 := 0xFFFFFFFFFFFFFFFF

def nextGeneration (generation : UInt64) : UInt64 :=
  let next := (generation + 1) &&& generationMask
  if next = generationMask then 0 else next

/-! ## The state of one directory in one process -/

/-- The flock, named by the lock file it is on. -/
structure Flock where
  file : Nat
deriving DecidableEq, Repr

structure LockState where
  held : Option Flock
  /-- The guards in flight, and the spans among them. -/
  active : Nat
  spans : Nat
  advanced : Bool
  current : Epoch
  generation : UInt64
  /-- What the stores on the directory answer: `has_unflushed`, and `files_in_use` or a file
  `release_files` could not close. -/
  hasUnflushed : Bool
  filesInUse : Bool
  /-- `PathLock::live`. -/
  live : UInt64

/-- One store object's view of its directory's lock. -/
structure StoreLock where
  observed : Option Epoch
  observedGeneration : UInt64
  reuseStateAcrossHolds : Bool
  holdsState : Bool

namespace LockState

def initial : LockState := ⟨none, 0, 0, false, .absent, 0, false, false, notHeld⟩

variable (state : LockState)

def setCurrent (epoch : Epoch) : LockState :=
  { state with current := epoch, generation := nextGeneration state.generation }

def countIn : LockState := { state with active := state.active + 1 }

/-- The word `publish` stores. -/
def word : UInt64 :=
  if state.spans = 0 then notHeld
  else if state.held.isNone then notHeld
  else if state.advanced then state.generation ||| advancedBit
  else state.generation

def publish : LockState := { state with live := state.word }

/-- `release_unless_in_use`: the flock goes with the last guard, unless something is
unflushed or in use. -/
def releaseUnlessInUse : LockState :=
  if state.active = 0 ∧ state.hasUnflushed = false ∧
      ¬ (state.held.isSome = true ∧ state.filesInUse = true) then
    { state with held := none, advanced := false }.publish
  else state.publish

/-- `StoreGuard::drop`. -/
def dropGuard (span : Bool) : LockState :=
  { state with
    active := state.active - 1
    spans := if span then state.spans - 1 else state.spans }.releaseUnlessInUse

/-- `StoreGuard::into_span`. -/
def intoSpan : LockState := { state with spans := state.spans + 1 }.publish

end LockState

namespace StoreLock

/-- The lock of a store that has established nothing. -/
def opened (reuseStateAcrossHolds holdsState : Bool) : StoreLock :=
  ⟨none, neverAdopted, reuseStateAcrossHolds, holdsState⟩

def isStaleAgainst (lock : StoreLock) (current : Epoch) : Bool :=
  lock.holdsState && (!lock.reuseStateAcrossHolds || isStale lock.observed current)

/-- What `is_current` answers. -/
def isCurrent (lock : StoreLock) (state : LockState) : Bool :=
  lock.observedGeneration = state.generation || !lock.isStaleAgainst state.current

/-- What `is_current` records where it answers that the store is current. -/
def takeGeneration (lock : StoreLock) (state : LockState) : StoreLock :=
  { lock with observedGeneration := state.generation }

def adopt (lock : StoreLock) (state : LockState) : StoreLock :=
  { lock with observed := some state.current, observedGeneration := state.generation }

def covers (lock : StoreLock) (state : LockState) (intent : Intent) : Bool :=
  if state.live = notHeld ∨ state.live &&& generationMask ≠ lock.observedGeneration then false
  else intent = .read || state.live &&& advancedBit ≠ 0

/-- `try_join`: what the state and the store's lock become where it joins. -/
def tryJoin (lock : StoreLock) (state : LockState) (intent : Intent) :
    Option (LockState × StoreLock) :=
  if state.held.isNone ∨ (intent = .write ∧ state.advanced = false) ∨
      lock.isCurrent state = false then none
  else some (state.countIn, lock.takeGeneration state)

end StoreLock

/-- The section of `record_advance`, once the epoch is written. -/
def LockState.recordAdvance (state : LockState) (stamp : Stamp) : LockState :=
  ({ state with advanced := state.held.isSome }.setCurrent (.stamped stamp)).publish

/-- The last section of `acquire_at_gate`, where the epoch was advanced. -/
def LockState.holdAdvanced (state : LockState) (flock : Flock) : LockState :=
  { state with held := some flock, advanced := true }.countIn.publish

/-- The last section of `acquire_at_gate`, where the hold did not advance. -/
def LockState.holdUnadvanced (state : LockState) (flock : Flock) (onDisk : Epoch) : LockState :=
  ({ state with held := some flock, advanced := false }.setCurrent onDisk).countIn.publish

end Lore.Storage
