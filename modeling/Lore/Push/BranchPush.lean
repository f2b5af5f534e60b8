import Mathlib.Tactic.Common
import Lore.Storage.Fragment
import Lore.Lib.Machine

/-!
# BranchPush — pushes of one branch, step by step

The server's push of a revision (`push_loaded` and the functions under it) for any number of
tasks that push to one branch without `force`. A task reads the head and the incoming
revision's state, decides how the head moves, verifies the fragments against the incoming
revision's own parents, renumbers the revision where its number is wrong, and swaps the head;
where the head had moved, it decides again, or builds a merge revision onto the new head and
swaps that. Each of these is one action, so that any other task may act between two of them.

A store keeps the states that were put into it and reads one back by its hash. Of a state the
model has the parents and the revision number; everything else it holds is `κ`, whose hash,
whose saved form and whose three-way merge are parameters.
-/

namespace Lore.Push

open Lore.Lib Lore.Storage

/-- A revision's `StateData`. -/
structure StateData (κ : Type) where
  parentSelf : Hash
  parentOther : Hash
  revisionNumber : UInt64
  content : κ
deriving DecidableEq

/-- A `State` in memory: its data and the signature it was read or last serialized at. -/
structure State (κ : Type) extends StateData κ where
  signature : Hash
deriving DecidableEq

/-- The states put into the immutable store, the earliest first. -/
abbrev StateStore (κ : Type) := List (StateData κ)

/-- What the push calls and the model leaves open. -/
structure PushEnv (κ : Type) where
  /-- the hash of a serialized state -/
  hash : StateData κ → Hash
  /-- what `State::new` holds -/
  emptyContent : κ
  /-- what `serialize` makes of the content: format, flags and the blocks it writes -/
  save : κ → κ
  /-- `diff3_collect` of base, source and target and `apply_tree_changes` of the result,
  with the metadata of the merge; `none` where the diff has conflicts -/
  mergeContent : StateStore κ → Hash → State κ → Hash → Option κ

/-- What a client asks for; `force` is not set. -/
structure PushRequest where
  latest : Hash
  fastForwardMerge : Bool
deriving DecidableEq

variable {κ τ : Type}

variable (env : PushEnv κ)

/-- The state stored at a hash: the first put stays. -/
def PushEnv.read (store : StateStore κ) (signature : Hash) : Option (StateData κ) :=
  store.find? fun state => env.hash state = signature

/-- `State::deserialize`: the zero signature is the empty state. -/
def PushEnv.deserialize (store : StateStore κ) (signature : Hash) : Option (State κ) :=
  if isZero signature then some ⟨⟨0, 0, 0, env.emptyContent⟩, 0⟩
  else (env.read store signature).map fun data => ⟨data, signature⟩

/-- The data `serialize` writes for a state. -/
def PushEnv.saved (data : StateData κ) : StateData κ :=
  { data with content := env.save data.content }

/-- `State::serialize` of a state that is dirty: the store with it, and the state at its new
signature. -/
def PushEnv.serialize (store : StateStore κ) (data : StateData κ) : StateStore κ × State κ :=
  (store ++ [env.saved data], ⟨env.saved data, env.hash (env.saved data)⟩)

inductive HeadMove where
  | store
  | merge
deriving DecidableEq

/-- `decide_head_move` of an unforced push: `error` where the branch is not found, `ok none`
where the push is declined. -/
def decideHeadMove (current : Hash) (state : State κ) (fastForwardMerge : Bool) :
    Except Unit (Option HeadMove) :=
  if current = state.parentSelf then .ok (some .store)
  else if isZero current then .error ()
  else if !fastForwardMerge then .ok none
  else .ok (some .merge)

/-- `next_revision_number`. -/
def nextRevisionNumber (parentSelfNumber parentOtherNumber : UInt64) : UInt64 :=
  max parentSelfNumber parentOtherNumber + 1

structure HeadUpdate where
  success : Bool
  fastForwardMerged : Bool
  revision : Hash
  revisionNumber : UInt64
deriving DecidableEq

/-- `HeadUpdate::declined`. -/
def HeadUpdate.declined (current : Hash) : HeadUpdate := ⟨false, false, current, 0⟩

structure VerifiedParents (κ : Type) where
  parent : State κ
  other : Option (State κ)

/-- Where a task is in its push, with what it holds there. -/
inductive Phase (κ : Type) where
  /-- `load_head_and_incoming`: its two reads run beside each other -/
  | loading (head : Option Hash) (incoming : Option (State κ))
  /-- `prepare_push` decided on a move; `verify_incoming_fragments` is next -/
  | verifying (headMove : HeadMove) (head : Hash) (incoming : State κ)
  /-- `store_new_head` before its loop -/
  | committing (head : Hash) (incoming : State κ) (parents : VerifiedParents κ)
  /-- `store_new_head` before a swap -/
  | storing (current : Hash) (incoming : State κ) (newHead : Hash)
  /-- `try_fast_forward_merge` at the top of its loop -/
  | merging (currentHead : Hash) (incoming : State κ)
  /-- `try_fast_forward_merge` before its swap -/
  | swapping (currentHead : Hash) (incoming : State κ) (newRevision : Hash)
      (revisionNumber : UInt64)
  /-- the head is swapped; the history step is stored before the answer -/
  | moved (update : HeadUpdate)
  /-- the push returned, or was dropped -/
  | answered (result : Except Unit HeadUpdate)

structure World (τ κ : Type) where
  /-- the branch's latest pointer, zero when it has none -/
  head : Hash
  store : StateStore κ
  phase : τ → Phase κ

/-- One step of a push. -/
inductive PushAction where
  /-- `load_latest_local`; a read that fails reads as none -/
  | readHead (readable : Bool)
  | readIncoming
  | prepare
  | verify
  | renumber
  | swap
  | merge
  | swapMerged
  | answer
  /-- an error of any read, write or check, or the handler dropped -/
  | fail

inductive Action (τ κ : Type) where
  /-- a client uploads a state -/
  | upload (data : StateData κ)
  | act (task : τ) (action : PushAction)

/-- `try_store_latest`: the swap is atomic and returns what the head was. -/
def tryStoreLatest (head currentExpectedLatest newLatest : Hash) : Hash × Hash :=
  if head = currentExpectedLatest then (newLatest, head) else (head, head)

/-- The end of `prepare_push`, once both reads are there. -/
def preparePush (request : PushRequest) (head : Hash) (incoming : State κ) : Phase κ :=
  if isZero request.latest then .answered (.error ())
  else if head = request.latest then
    .answered (.ok ⟨true, false, head, incoming.revisionNumber⟩)
  else
    match decideHeadMove head incoming request.fastForwardMerge with
    | .error _ => .answered (.error ())
    | .ok none => .answered (.ok (HeadUpdate.declined head))
    | .ok (some headMove) => .verifying headMove head incoming

/-- `load_other_parent_state`. -/
def PushEnv.loadOtherParentState (store : StateStore κ) (state : State κ) :
    Option (Option (State κ)) :=
  if isZero state.parentOther then some none
  else (env.deserialize store state.parentOther).map some

/-- Where a push goes on once its fragments are verified. -/
def afterVerify (headMove : HeadMove) (head : Hash) (incoming : State κ)
    (parents : VerifiedParents κ) : Phase κ :=
  match headMove with
  | .store => .committing head incoming parents
  | .merge => .merging head incoming

/-- `store_new_head` before its loop: the incoming revision is rewritten where its number is
not the one its parents give. -/
def PushEnv.renumber (store : StateStore κ) (latest head : Hash)
    (incoming : State κ) (parents : VerifiedParents κ) : StateStore κ × Phase κ :=
  let revisionNumber := nextRevisionNumber parents.parent.revisionNumber
    (parents.other.elim 0 (·.revisionNumber))
  if incoming.revisionNumber ≠ revisionNumber then
    let (store, rewritten) :=
      env.serialize store { incoming.toStateData with revisionNumber := revisionNumber }
    (store, .storing head rewritten rewritten.signature)
  else (store, .storing head incoming latest)

/-- One round of the loop of `store_new_head` after the swap returned `previousHead`. -/
def afterSwap (fastForwardMerge : Bool) (current previousHead : Hash) (incoming : State κ)
    (newHead : Hash) : Phase κ :=
  if previousHead = current then .moved ⟨true, false, newHead, incoming.revisionNumber⟩
  else
    match decideHeadMove previousHead incoming fastForwardMerge with
    | .error _ => .answered (.error ())
    | .ok (some .store) => .storing previousHead incoming newHead
    | .ok none => .answered (.ok (HeadUpdate.declined previousHead))
    | .ok (some .merge) => .merging previousHead incoming

/-- One round of `try_fast_forward_merge` up to its swap: declined on conflicts, else a merge
revision onto the current head; `none` where the current head's state cannot be read. -/
def PushEnv.merge (store : StateStore κ) (currentHead : Hash)
    (incoming : State κ) : Option (StateStore κ × Phase κ) :=
  match env.mergeContent store incoming.parentSelf incoming currentHead with
  | none => some (store, .answered (.ok (HeadUpdate.declined currentHead)))
  | some content => do
    let parent ← env.deserialize store currentHead
    let revisionNumber := nextRevisionNumber parent.revisionNumber incoming.revisionNumber
    let (store, merged) :=
      env.serialize store ⟨currentHead, incoming.signature, revisionNumber, content⟩
    return (store, .swapping currentHead incoming merged.signature revisionNumber)

/-- The end of a round of `try_fast_forward_merge`: a lost swap goes round with the head it
found. -/
def afterSwapMerged (currentHead previousHead : Hash) (incoming : State κ)
    (newRevision : Hash) (revisionNumber : UInt64) : Phase κ :=
  if previousHead = currentHead then .moved ⟨true, true, newRevision, revisionNumber⟩
  else .merging previousHead incoming

/-- What a step of a push does to the head, to the store and to the push. -/
def PushEnv.act (request : PushRequest) (head : Hash) (store : StateStore κ) :
    Phase κ → PushAction → Option (Hash × StateStore κ × Phase κ)
  | .loading none incoming, .readHead readable =>
    some (head, store, .loading (some (if readable then head else 0)) incoming)
  | .loading read none, .readIncoming => do
    let incoming ← env.deserialize store request.latest
    return (head, store, .loading read (some incoming))
  | .loading (some read) (some incoming), .prepare =>
    some (head, store, preparePush request read incoming)
  | .verifying headMove read incoming, .verify => do
    let parent ← env.deserialize store incoming.parentSelf
    let other ← env.loadOtherParentState store incoming
    return (head, store, afterVerify headMove read incoming ⟨parent, other⟩)
  | .committing current incoming parents, .renumber =>
    some (head, env.renumber store request.latest current incoming parents)
  | .storing current incoming newHead, .swap =>
    let (head, previousHead) := tryStoreLatest head current newHead
    some (head, store, afterSwap request.fastForwardMerge current previousHead incoming newHead)
  | .merging currentHead incoming, .merge => do
    let merged ← env.merge store currentHead incoming
    return (head, merged)
  | .swapping currentHead incoming newRevision revisionNumber, .swapMerged =>
    let (head, previousHead) := tryStoreLatest head currentHead newRevision
    some (head, store, afterSwapMerged currentHead previousHead incoming newRevision revisionNumber)
  | .moved update, .answer => some (head, store, .answered (.ok update))
  | .answered _, _ => none
  | _, .fail => some (head, store, .answered (.error ()))
  | _, _ => none

/-- What one action does. -/
def step [DecidableEq τ] (env : PushEnv κ) (requests : τ → PushRequest) (w : World τ κ) :
    Action τ κ → Option (World τ κ)
  | .upload data => some { w with store := w.store ++ [data] }
  | .act task action => do
    let (head, store, phase) ← env.act (requests task) w.head w.store (w.phase task) action
    return ⟨head, store, Function.update w.phase task phase⟩

end Lore.Push
