import Lore.Lib.Chain
import Lore.Storage.Fragment

/-!
# History — the walk to the branch point of two revisions

A revision's state names its number and its self parent, and the self parents of a revision
are its history line. The walk takes two lines further in rounds, ten revisions at a time in
the local store, or by a page of the remote where the store lacks the revision a line is at,
until the lines meet, both end, or neither can go on.
-/

namespace Lore.Revision

open Lore.Lib Lore.Storage

/-- What the walk reads of a revision's `StateData`: its number and `parent[0]`. -/
structure StateData where
  revisionNumber : Nat
  parent : Hash
deriving DecidableEq, Repr

/-- A read of a revision's state in the local store alone: the state, `AddressNotFound` or
`PayloadNotFound`, or another error. -/
inductive StoreRead where
  | state (state : StateData)
  | lacks
  | fails
deriving DecidableEq, Repr

/-- The kinds of `ProtocolError` the walk tells apart. -/
inductive ProtocolError where
  | notFound
  | noRemote
  | failed
deriving DecidableEq, Repr

/-- An item of a page: a revision and the state it carries, `none` where the bytes are not
those its signature is the hash of. -/
structure RevisionItem where
  signature : Hash
  state : Option StateData
deriving DecidableEq, Repr

/-- `verified_number`. -/
def verifiedNumber (item : RevisionItem) : Option Nat := item.state.map (·.revisionNumber)

structure RevisionListResponse where
  items : List RevisionItem
  nextRevision : Hash
deriving DecidableEq, Repr

/-- `items_from`: the items from the revision `anchor` down to the oldest in the page. -/
def RevisionListResponse.itemsFrom (page : RevisionListResponse) (anchor : Hash) :
    List RevisionItem := page.items.dropWhile fun item => item.signature ≠ anchor

/-- The errors of the walk. -/
inductive HistoryError where
  /-- reading the state of a revision -/
  | reading (revision : Hash)
  /-- the remote listed a revision without its own state -/
  | withoutState (revision : Hash)
  /-- the history line is out of order at a revision -/
  | outOfOrder (number : Nat) (revision : Hash)
  /-- listing the right line's revisions -/
  | listing
  /-- `RevisionNotFound`, with what the remote said if it was asked -/
  | revisionNotFound (revision : Hash) (cause : Option ProtocolError)
  /-- the remote's error, listing the revisions from a cursor -/
  | remote (err : ProtocolError) (cursor : Hash)
  /-- failed to find a branch point -/
  | noBranchPoint
deriving DecidableEq, Repr

/-- How a round takes a line further. -/
inductive Step where
  | store
  | remote
  | stopped (failure : Option ProtocolError)
deriving DecidableEq, Repr

/-- One line of the walk: its revisions with their numbers, newest first, its cursor, and how
many revisions the round added. A revision the store lacks is numbered zero until a page lists
it. -/
structure Line where
  revisions : List (Nat × Hash)
  cursor : Hash
  step : Step
  added : Nat
deriving DecidableEq, Repr

namespace Line

def new (latest : Hash) : Line := ⟨[], latest, .store, 0⟩

/-- The revisions without their numbers. -/
def history (line : Line) : List Hash := line.revisions.map Prod.snd

/-- `push`. -/
def push (line : Line) (number : Nat) (revision : Hash) : Line :=
  { line with revisions := line.revisions ++ [(number, revision)], added := line.added + 1 }

def asks (line : Line) : Bool := line.step == .remote

def advances (line : Line) : Bool := line.step == .store && !isZero line.cursor

/-- The revisions `numbered_at` gives: short of the one the remote is asked to number. -/
def numbered (line : Line) : List (Nat × Hash) :=
  if line.asks then line.revisions.dropLast else line.revisions

/-- `walk_store`, ten revisions at most. -/
def walkStore (store : Hash → StoreRead) : Nat → Line → Except HistoryError Line
  | 0, line => .ok line
  | n + 1, line =>
      if isZero line.cursor then .ok line
      else
        match store line.cursor with
        | .state state =>
            walkStore store n
              { line.push state.revisionNumber line.cursor with cursor := state.parent }
        | .lacks => .ok { line.push 0 line.cursor with step := .remote }
        | .fails => .error (.reading line.cursor)

/-- The items of a page as revisions with their numbers, or the first that does not carry its
own state. -/
def verify : List RevisionItem → Except Hash (List (Nat × Hash))
  | [] => .ok []
  | item :: items =>
      match verifiedNumber item with
      | none => .error item.signature
      | some number => (verify items).map ((number, item.signature) :: ·)

/-- Numbers the last revision. -/
def numberLast (revisions : List (Nat × Hash)) (number : Nat) : List (Nat × Hash) :=
  match revisions.getLast? with
  | none => revisions
  | some (_, revision) => revisions.dropLast ++ [(number, revision)]

/-- `extend`, with whether the cursor moved. -/
def extend (line : Line) (listed : List RevisionItem) (next : Hash) : Except Hash (Line × Bool) :=
  match listed with
  | [] => .ok ({ line with cursor := 0 }, true)
  | first :: older =>
      match verifiedNumber first with
      | none => .error first.signature
      | some anchorNumber =>
          (verify older).map fun older =>
            ({ line with
                revisions := numberLast line.revisions anchorNumber ++ older
                added := line.added + older.length
                cursor := next }, next ≠ line.cursor)

/-- `take`: the remote's answer for the page holding the cursor. -/
def take (line : Line) (listing : Except ProtocolError RevisionListResponse) :
    Except HistoryError Line :=
  match listing with
  | .ok page =>
      match line.extend (page.itemsFrom line.cursor) page.nextRevision with
      | .ok (line, true) => .ok { line with step := .store }
      | .ok (line, false) => .ok { line with step := .stopped none }
      | .error revision => .error (.withoutState revision)
  | .error .notFound => .ok { line with cursor := 0, step := .store }
  | .error err => .ok { line with step := .stopped (some err) }

end Line

/-- The first of `rest` whose number is not below the one before it, `above` being that of the
revision before the first. -/
def firstOutOfOrder (above : Nat) : List (Nat × Hash) → Option (Nat × Hash)
  | [] => none
  | (number, revision) :: rest =>
      if number ≥ above then some (number, revision) else firstOutOfOrder number rest

/-- `out_of_order`. -/
def outOfOrder (line : List (Nat × Hash)) (start : Nat) : Option (Nat × Hash) :=
  match line.drop (max start 1 - 1) with
  | [] => none
  | (above, _) :: rest => firstOutOfOrder above rest

/-- `check_round`. -/
def Line.checkRound (line : Line) : Except HistoryError Unit :=
  match outOfOrder line.revisions (line.revisions.length - line.added) with
  | some (number, revision) => .error (.outOfOrder number revision)
  | none => .ok ()

/-- The loop of `meet`, of at most `fuel` passes. -/
def meetFrom (left right : List (Nat × Hash)) :
    Nat → Nat × Nat → Option (Nat × Nat) × (Nat × Nat)
  | 0, passed => (none, passed)
  | fuel + 1, passed =>
      match left[passed.1]?, right[passed.2]? with
      | some (leftNumber, leftRevision), some (rightNumber, rightRevision) =>
          if leftRevision = rightRevision then (some passed, passed)
          else
            meetFrom left right fuel
              (if leftNumber ≥ rightNumber then passed.1 + 1 else passed.1,
                if rightNumber ≥ leftNumber then passed.2 + 1 else passed.2)
      | _, _ => (none, passed)

/-- `meet`, with `passed` as it leaves it. Each pass takes one of the lines further, so it
ends within their lengths. -/
def meet (left right : List (Nat × Hash)) (passed : Nat × Nat) : Option (Nat × Nat) × (Nat × Nat) :=
  meetFrom left right (left.length + right.length + 1) passed

/-- What a round meets outside the walk: the local store, which what the pages of the rounds
before carried may have been added to; the remote, or why it is not reached; its answer for
the page holding a revision; and whether the task of the right line's request came back. -/
structure Outside where
  store : Hash → StoreRead
  reached : Except ProtocolError Unit
  revisionList : Hash → Except ProtocolError RevisionListResponse
  joined : Bool

section

variable (outside : Outside) (store : Hash → StoreRead) (left right : Line) (passed : Nat × Nat)

/-- `advancing`. -/
def advancing : Bool × Bool :=
  let leftWaits := passed.1 == left.revisions.length && left.advances
  let rightWaits := passed.2 == right.revisions.length && right.advances
  if leftWaits || rightWaits then (leftWaits, rightWaits)
  else (left.advances, right.advances)

/-- `ask_remote`. -/
def askRemote : Except HistoryError (Line × Line) :=
  if !left.asks && !right.asks then .ok (left, right)
  else
    match outside.reached with
    | .error err =>
        .ok (if left.asks then { left with step := .stopped (some err) } else left,
          if right.asks then { right with step := .stopped (some err) } else right)
    | .ok () => do
        if left.asks then
          let taken ← left.take (outside.revisionList left.cursor)
          if right.asks then
            if !outside.joined then .error .listing
            else
              let right ← right.take (outside.revisionList right.cursor)
              .ok (taken, right)
          else .ok (taken, right)
        else
          let right ← right.take (outside.revisionList right.cursor)
          .ok (left, right)

/-- What `find_branch_point` answers: the revision, and those above it on each line. -/
abbrev BranchPoint := Hash × List Hash × List Hash

/-- `branch_point`. The lines hold the revision at these indices. -/
def branchPoint (shared : Nat × Nat) : BranchPoint :=
  ((left.history[shared.1]?).getD 0, left.history.take shared.1, right.history.take shared.2)

/-- `stall`. -/
def stall : HistoryError :=
  let (cursor, failure) : Hash × Option ProtocolError :=
    match left.step, right.step with
    | .stopped (some failure), _ => (left.cursor, some failure)
    | _, .stopped (some failure) => (right.cursor, some failure)
    | _, _ => if isZero left.cursor then (right.cursor, none) else (left.cursor, none)
  match failure with
  | some .noRemote => .revisionNotFound cursor (some .noRemote)
  | some err => .remote err cursor
  | none => .revisionNotFound cursor none

/-- How a round ends: with the answer, or with the lines to go on with. -/
inductive Round where
  | found (answer : BranchPoint)
  | next (left right : Line) (passed : Nat × Nat)
deriving DecidableEq, Repr

/-- A line as a round starts it, walked in the store if the round walks it. -/
def Line.startRound (store : Hash → StoreRead) (walks : Bool) (line : Line) :
    Except HistoryError Line :=
  if walks then Line.walkStore store 10 { line with added := 0 }
  else .ok { line with added := 0 }

/-- The round before the remote is asked: the lines walked in the store. -/
def walkRound : Except HistoryError (Line × Line) := do
  let left' ← left.startRound store (advancing left right passed).1
  let right' ← right.startRound store (advancing left right passed).2
  .ok (left', right')

/-- The round where a line reached a revision the store lacks: the remote is asked only if the
lines do not meet short of it, and not both lines reached the same. -/
def askRound : Except HistoryError Round := do
  left.checkRound
  right.checkRound
  match meet left.numbered right.numbered passed with
  | (some shared, _) => .ok (.found (branchPoint left right shared))
  | (none, passed) =>
      if left.asks && right.asks && left.cursor == right.cursor then
        .ok (.found (branchPoint left right
          (left.revisions.length - 1, right.revisions.length - 1)))
      else
        let (left, right) ← askRemote outside left right
        .ok (.next left right passed)

/-- The end of the round: where the lines meet, or whether the walk goes on. -/
def endRound : Except HistoryError Round := do
  left.checkRound
  right.checkRound
  match meet left.revisions right.revisions passed with
  | (some shared, _) => .ok (.found (branchPoint left right shared))
  | (none, passed) =>
      if isZero left.cursor && isZero right.cursor then
        .ok (.found (0, left.history, right.history))
      else if left.added = 0 ∧ right.added = 0 then .error (stall left right)
      else .ok (.next left right passed)

/-- One round of the loop. -/
def round : Except HistoryError Round := do
  let (left, right) ← walkRound outside.store left right passed
  if left.asks || right.asks then
    match ← askRound outside left right passed with
    | .found answer => .ok (.found answer)
    | .next left right passed => endRound left right passed
  else endRound left right passed

end

/-- The loop of `find_branch_point`, of at most `fuel` rounds, `none` where they run out. The
`n`-th round meets `outside n`. -/
def rounds (outside : Nat → Outside) : Nat → Nat → Line → Line → Nat × Nat →
    Option (Except HistoryError BranchPoint)
  | 0, _, _, _, _ => none
  | fuel + 1, n, left, right, passed =>
      if isZero left.cursor && isZero right.cursor then some (.error .noBranchPoint)
      else
        match round (outside n) left right passed with
        | .error err => some (.error err)
        | .ok (.found answer) => some (.ok answer)
        | .ok (.next left right passed) => rounds outside fuel (n + 1) left right passed

/-- `find_branch_point`. -/
def findBranchPoint (outside : Nat → Outside) (fuel : Nat) (leftLatest rightLatest : Hash) :
    Option (Except HistoryError BranchPoint) :=
  rounds outside fuel 0 (.new leftLatest) (.new rightLatest) (0, 0)

end Lore.Revision
