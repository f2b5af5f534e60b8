import Mathlib.Data.Fintype.Basic
import Mathlib.Data.List.Dedup
import Mathlib.Logic.Function.Basic
import Lore.Lib.Machine

/-!
# ResourceLocks — lock and unlock requests over lists of resources

The local store takes and returns the locks of a request one entry at a time, and undoes a lock
that fails by an unlock of what it took. The database store writes a request in transactions of a
hundred resources; where the owner has some of the resources already, it leaves them out and tries
again. The transactions of a request run here in the order of its list, which is any, and none
after one that is refused. Requests are all or nothing as long as none comes to a resource another
in progress has been at, an unlock is refused at its first resource or not at all, and a request to
the database fits into one transaction.

`Locks.granted` is not in the source: it has the locks of the requests answered with success.
-/

namespace Lore.Server

open Lore.Lib List Function Option

/-- A request in progress, with the resources it has yet to come to last. -/
inductive LockRequest (ω ρ : Type) where
  /-- `LocalLockStore::lock_resources`, with what it has passed and what of that it took -/
  | lock (owner : ω) (passed taken rest : List ρ)
  /-- the `unlock_resources` of a lock that failed -/
  | undo (owner : ω) (rest : List ρ)
  | unlock (owner : ω) (validateUser : Bool) (released rest : List ρ)
  /-- `DynamoDbLockStore::lock_resources`, with what it left out, what it wrote, and the
  transactions to come -/
  | put (owner : ω) (passed written : List ρ) (chunks : List (List ρ))
  | delete (owner : ω) (validateUser : Bool) (deleted : List ρ) (chunks : List (List ρ))

structure Locks (ω ρ τ : Type) where
  storage : ρ → Option ω
  requests : τ → Option (LockRequest ω ρ)
  granted : ρ → Option ω

inductive LockAction (ω ρ τ : Type) where
  | lock (task : τ) (owner : ω) (resources : List ρ)
  | unlock (task : τ) (owner : ω) (validateUser : Bool) (resources : List ρ)
  /-- the next access of one entry, or the next transaction -/
  | access (task : τ)

/-- What an access leaves in the store and of its request, and the answer it gives. -/
structure Access (ω ρ : Type) where
  storage : ρ → Option ω
  next : Option (LockRequest ω ρ)
  answer : Option Bool

variable {ω ρ τ : Type} [DecidableEq ω] [DecidableEq ρ] [DecidableEq τ]

/-- An unlock takes the entry: there is one, of the owner if the user is validated. -/
def releases (owner : ω) (validateUser : Bool) : Option ω → Bool
  | none => false
  | some other => !validateUser || other = owner

theorem releases_iff {owner : ω} {validateUser entry} : releases owner validateUser entry = true ↔
    entry = some owner ∨ validateUser = false ∧ entry ≠ none := by
  cases entry <;> simp [releases, or_comm]

namespace LockRequest

/-- Every one of `resources` is the owner's, or nobody's. -/
def setOwner (locks : ρ → Option ω) (resources : List ρ) (owner : Option ω) : ρ → Option ω :=
  fun key => if key ∈ resources then owner else locks key

/-- `TRANSACT_WRITE_ITEMS_CHUNKS`. -/
def transactWriteItemsChunks : Nat := 100

/-- The transactions of `transact_write_items`. -/
def chunksOf (items : List ρ) : List (List ρ) :=
  let count := (items.length + (transactWriteItemsChunks - 1)) / transactWriteItemsChunks
  (range count).map fun i =>
    (items.drop (i * transactWriteItemsChunks)).take transactWriteItemsChunks

def access (storage : ρ → Option ω) : LockRequest ω ρ → Access ω ρ
  | lock _ _ _ [] => ⟨storage, none, true⟩
  | lock owner passed taken (key :: rest) =>
    match storage key with
    | none => ⟨update storage key owner, lock owner (key :: passed) (key :: taken) rest, none⟩
    | some other =>
      if other = owner then ⟨storage, lock owner (key :: passed) taken rest, none⟩
      else ⟨storage, undo owner taken.reverse, false⟩
  | undo _ [] => ⟨storage, none, none⟩
  | undo owner (key :: rest) =>
    if releases owner true (storage key) then
      ⟨update storage key none, undo owner rest, none⟩
    else ⟨storage, none, none⟩
  | unlock _ _ _ [] => ⟨storage, none, true⟩
  | unlock owner validateUser released (key :: rest) =>
    if releases owner validateUser (storage key) then
      ⟨update storage key none, unlock owner validateUser (key :: released) rest, none⟩
    else ⟨storage, none, false⟩
  | put _ _ _ [] => ⟨storage, none, true⟩
  | put owner passed written (chunk :: chunks) =>
    let held := chunk.filter fun key => storage key ≠ none
    if ∃ key ∈ held, storage key ≠ owner then ⟨storage, none, false⟩
    else if held = [] then
      if chunks = [] then ⟨setOwner storage chunk owner, none, true⟩
      else ⟨setOwner storage chunk owner, put owner passed (chunk ++ written) chunks, none⟩
    else
      let items := (written ++ chunk ++ chunks.flatten).filter (· ∉ held)
      if items = [] then ⟨storage, none, true⟩
      else ⟨storage, put owner (held ++ passed) [] (chunksOf items), none⟩
  | delete _ _ _ [] => ⟨storage, none, true⟩
  | delete owner validateUser deleted (chunk :: chunks) =>
    -- without the check of the user a delete has no condition
    if validateUser ∧ ∃ key ∈ chunk, storage key ≠ owner then ⟨storage, none, false⟩
    else if chunks = [] then ⟨setOwner storage chunk none, none, true⟩
    else ⟨setOwner storage chunk none, delete owner validateUser (chunk ++ deleted) chunks, none⟩

/-- The resources a request in progress has been at, and has yet to undo. -/
def touched : LockRequest ω ρ → List ρ
  | lock _ passed _ _ => passed
  | undo _ rest => rest
  | unlock _ _ released _ => released
  | put _ passed written _ => written ++ passed
  | delete _ _ deleted _ => deleted

def rest : LockRequest ω ρ → List ρ
  | lock _ _ _ rest | unlock _ _ _ rest => rest
  | put _ _ _ chunks | delete _ _ _ chunks => chunks.flatten
  | undo .. => []

def resources (request : LockRequest ω ρ) : List ρ := request.touched ++ request.rest

/-- What a request answered with success grants or takes back. -/
def grant (locks : ρ → Option ω) (request : LockRequest ω ρ) : ρ → Option ω :=
  match request with
  | lock owner .. | put owner .. => setOwner locks request.resources owner
  | unlock .. | delete .. => setOwner locks request.resources none
  | undo .. => locks

/-- No key of a lock is another's; every one of an unlock can be released. -/
def Allowed (locks : ρ → Option ω) (request : LockRequest ω ρ) : Prop :=
  match request with
  | lock owner .. | put owner .. => ∀ key ∈ request.resources,
      locks key = none ∨ locks key = owner
  | unlock owner validateUser .. | delete owner validateUser .. =>
      ∀ key ∈ request.resources, releases owner validateUser (locks key)
  | undo .. => False

/-- An unlock has released nothing yet and checks the user, or can release the rest. -/
def Releasing (storage : ρ → Option ω) : LockRequest ω ρ → Prop
  | unlock owner validateUser released rest => released = [] ∧ validateUser = true ∨
      ∀ key ∈ rest, releases owner validateUser (storage key)
  | delete owner validateUser _ chunks => validateUser = true ∨
      ∀ key ∈ chunks.flatten, releases owner validateUser (storage key)
  | _ => True

/-- What holds at a key the request has been at. -/
def Keeps (key : ρ) (stored granted : Option ω) : LockRequest ω ρ → Prop
  | lock owner _ taken _ => stored = owner ∧ granted = if key ∈ taken then none else owner
  | undo owner _ => stored = owner ∧ granted = none
  | unlock owner validateUser _ _ => stored = none ∧ releases owner validateUser granted
  | put owner .. => stored = owner ∧ granted = owner
  | delete .. => True

/-- A transaction to come is the only one of its request. -/
def Single (written : List ρ) (chunks : List (List ρ)) : Prop :=
  written = [] ∧ (chunks = [] ∨ ∃ chunk, chunks = [chunk] ∧ chunk.length ≤ transactWriteItemsChunks)

/-- What was taken was taken once, and a request to the database is one transaction. -/
def Once : LockRequest ω ρ → Prop
  | lock _ passed taken _ => taken.Nodup ∧ taken ⊆ passed
  | undo _ rest => rest.Nodup
  | unlock .. => True
  | put _ _ written chunks | delete _ _ written chunks => Single written chunks

end LockRequest

open LockRequest

namespace Locks

def begin (w : Locks ω ρ τ) (task : τ) (request : LockRequest ω ρ) : Option (Locks ω ρ τ) :=
  if (w.requests task).isNone then some { w with requests := update w.requests task request }
  else none

/-- The next access of the task's request. -/
def after (w : Locks ω ρ τ) (task : τ) (request : LockRequest ω ρ) : Locks ω ρ τ :=
  let access := request.access w.storage
  ⟨access.storage, update w.requests task access.next,
    if access.answer = some true then request.grant w.granted else w.granted⟩

def step (database : Bool) (w : Locks ω ρ τ) : LockAction ω ρ τ → Option (Locks ω ρ τ)
  | .lock task owner resources =>
    w.begin task (if database then put owner [] [] (chunksOf resources.dedup)
      else lock owner [] [] resources)
  | .unlock task owner validateUser resources =>
    w.begin task (if database then delete owner validateUser [] (chunksOf resources.dedup)
      else unlock owner validateUser [] resources)
  | .access task => (w.requests task).map (w.after task)

/-- Nobody else in progress has been at the key. -/
def Alone (w : Locks ω ρ τ) (task : τ) (key : ρ) : Prop :=
  ∀ other request, other ≠ task → w.requests other = some request → key ∉ request.touched

def Undisturbed (database : Bool) (w : Locks ω ρ τ) : LockAction ω ρ τ → Prop
  | .lock _ _ resources | .unlock _ _ _ resources =>
      database = true → resources.dedup.length ≤ transactWriteItemsChunks
  | .access task => ∀ request, w.requests task = some request →
      (∀ key ∈ request.rest, w.Alone task key) ∧ request.Releasing w.storage

def empty : Locks ω ρ τ := ⟨fun _ => none, fun _ => none, fun _ => none⟩

structure Inv (w : Locks ω ρ τ) : Prop where
  fits : ∀ {task request}, w.requests task = some request → request.Once ∧
    ∀ key ∈ request.touched, w.Alone task key ∧
      request.Keeps key (w.storage key) (w.granted key)
  settled : ∀ key, (∀ task request, w.requests task = some request →
    key ∉ request.touched) → w.storage key = w.granted key

variable {w t : Locks ω ρ τ} {task : τ} {request : LockRequest ω ρ}

section

variable (hr : w.requests task = some request)
include hr

/-- A key the request has yet to come to, and has not been at before, nobody has been at. -/
theorem Inv.untouched (h : w.Inv) (ha : ∀ key ∈ request.rest, w.Alone task key) {key}
    (hmem : key ∈ request.resources) (hnew : key ∉ request.touched) :
    w.storage key = w.granted key := by
  have hrest : key ∈ request.rest := (mem_append.mp hmem).resolve_left hnew
  refine h.settled key fun other beside hb => ?_
  by_cases hne : other = task
  · subst hne
    cases hr.symm.trans hb
    exact hnew
  · exact ha key hrest other beside hne hb

/-- A request that changes entries of its own resources alone. -/
theorem Inv.advance (h : w.Inv) (hal : ∀ key ∈ request.rest, w.Alone task key) {next}
    (hreq : t.requests = update w.requests task next)
    (hre : ∀ key ∉ request.resources, t.storage key = w.storage key ∧ t.granted key = w.granted key)
    (hn : ∀ after, next = some after → after.Once ∧ ∀ key ∈ after.touched, key ∈ request.resources ∧
        after.Keeps key (t.storage key) (t.granted key))
    (hres : ∀ key ∈ request.resources, (∀ after, next = some after →
      key ∉ after.touched) → t.storage key = t.granted key) : t.Inv := by
  have hm : ∀ key ∈ request.resources, w.Alone task key := fun key hmem =>
    (mem_append.mp hmem).elim (fun hat => ((h.fits hr).2 key hat).1) (hal key)
  have hse : t.requests task = next := by rw [hreq, update_self]
  have ho : ∀ {other}, other ≠ task → t.requests other = w.requests other :=
    fun hne => by rw [hreq, update_of_ne hne]
  refine ⟨fun {other beside} hb => ?_, fun key hno => ?_⟩
  · by_cases hne : other = task
    · subst hne
      obtain ⟨hon, hk⟩ := hn beside (hse.symm.trans hb)
      refine ⟨hon, fun key hat => ⟨fun another request' hne hr' => ?_, (hk key hat).2⟩⟩
      exact hm key (hk key hat).1 another request' hne (ho hne ▸ hr')
    · have hbe := ho hne ▸ hb
      obtain ⟨hon, hk⟩ := h.fits hbe
      refine ⟨hon, fun key hat => ?_⟩
      have hout : key ∉ request.resources := fun hmem =>
        hm key hmem other beside hne hbe hat
      rw [(hre key hout).1, (hre key hout).2]
      refine ⟨fun another request' hne' hr' hat' => ?_, (hk key hat).2⟩
      by_cases ht : another = task
      · subst ht
        exact hout ((hn request' (hse.symm.trans hr')).2 key hat').1
      · exact (hk key hat).1 another request' hne' (ho ht ▸ hr') hat'
  · by_cases hmem : key ∈ request.resources
    · exact hres key hmem fun after ha => hno task after (hse.trans ha)
    · rw [(hre key hmem).1, (hre key hmem).2]
      refine h.settled key fun other beside hb hat => ?_
      by_cases hne : other = task
      · subst hne
        cases hr.symm.trans hb
        exact hmem (mem_append_left _ hat)
      · exact hno other beside ((ho hne).trans hb) hat

end

/-- An access leaves the invariant, and answers as the locks granted say. -/
def Accessed (w : Locks ω ρ τ) (task : τ) (request : LockRequest ω ρ) : Prop :=
  (w.after task request).Inv ∧ ∀ ok, (request.access w.storage).answer = some ok →
    (ok = true ↔ request.Allowed w.granted)

/-- What a request leaves behind at a key it goes on to hold. -/
abbrev Leaves (w : Locks ω ρ τ) (storage : ρ → Option ω) (request : LockRequest ω ρ)
    (next : Option (LockRequest ω ρ)) : Prop :=
  ∀ after, next = some after → after.Once ∧ ∀ key ∈ after.touched, key ∈ request.resources ∧
    after.Keeps key (storage key) (w.granted key)

section

variable (h : w.Inv) (hr : w.requests task = some request)
  (hal : ∀ key ∈ request.rest, w.Alone task key)
include h hr hal

theorem Inv.goesOn {storage next} (hacc : request.access w.storage = ⟨storage, next, none⟩)
    (hre : ∀ key ∉ request.resources, storage key = w.storage key)
    (hn : w.Leaves storage request next)
    (hres : ∀ key ∈ request.resources, (∀ after, next = some after → key ∉ after.touched) →
      storage key = w.granted key) : w.Accessed task request := by
  constructor
  · refine h.advance hr hal rfl ?_ ?_ ?_
    · simpa [Locks.after, hacc] using hre
    · simpa [Locks.after, hacc] using hn
    · simpa [Locks.after, hacc] using hres
  · simp [hacc]

theorem Inv.grants {storage} (hacc : request.access w.storage = ⟨storage, none, some true⟩)
    (hre : ∀ key ∉ request.resources, storage key = w.storage key)
    (hres : ∀ key ∈ request.resources, storage key = request.grant w.granted key)
    (hall : request.Allowed w.granted) : w.Accessed task request := by
  constructor
  · refine h.advance hr hal rfl ?_ ?_ ?_
    · intro key hout
      have hgrant : request.grant w.granted key = w.granted key := by
        cases request <;> simp_all [grant, setOwner]
      simp [Locks.after, hacc, hre key hout, hgrant]
    · simp [hacc]
    · simpa [Locks.after, hacc] using hres
  · simp [hacc, hall]

theorem Inv.refuses {next} (hacc : request.access w.storage = ⟨w.storage, next, some false⟩)
    (hn : w.Leaves w.storage request next)
    (hres : ∀ key ∈ request.resources, (∀ after, next = some after → key ∉ after.touched) →
      w.storage key = w.granted key)
    (hnot : ¬ request.Allowed w.granted) : w.Accessed task request := by
  constructor
  · refine h.advance hr hal rfl ?_ ?_ ?_
    · simp [Locks.after, hacc]
    · simpa [Locks.after, hacc] using hn
    · simpa [Locks.after, hacc] using hres
  · simp [hacc, hnot]

end

omit [DecidableEq ω] [DecidableEq τ] in
theorem update_off {resources : List ρ} {key} (hin : key ∈ resources) {owner : Option ω} :
    ∀ other ∉ resources, update w.storage key owner other = w.storage other := by
  intro other hout
  refine update_of_ne ?_ ..
  rintro rfl
  exact hout hin

section

variable {owner : ω} {validateUser : Bool} {passed taken written rest : List ρ}
  {chunks : List (List ρ)} (h : w.Inv)
include h

theorem Inv.accessLock (hr : w.requests task = some (lock owner passed taken rest))
    (ha : ∀ key ∈ rest, w.Alone task key) : w.Accessed task (lock owner passed taken rest) := by
  obtain ⟨⟨hnodup, hsub⟩, hk⟩ := h.fits hr
  have hnew : ∀ key ∈ passed ++ rest, key ∉ passed → w.storage key = w.granted key :=
    fun key => h.untouched hr ha
  have hheld : ∀ key ∈ passed, w.storage key = owner := fun key hp => (hk key hp).2.1
  have hgranted : ∀ key ∈ passed, w.granted key = if key ∈ taken then none else owner :=
    fun key hp => (hk key hp).2.2
  cases rest with
  | nil =>
    have hres : (lock owner passed taken []).resources = passed := append_nil _
    refine h.grants hr ha rfl (fun _ _ => rfl) ?_ ?_
    · intro key hmem
      rw [grant, setOwner, if_pos hmem]
      exact hheld key (hres ▸ hmem)
    · intro key hmem
      rw [hgranted key (hres ▸ hmem)]
      split
      · exact .inl rfl
      · exact .inr rfl
  | cons key rest =>
    have hin : key ∈ passed ++ key :: rest := mem_append_right _ mem_cons_self
    cases hs : w.storage key with
    | none =>
      have hacc : (lock owner passed taken (key :: rest)).access w.storage
          = ⟨update w.storage key owner, lock owner (key :: passed) (key :: taken) rest, none⟩ := by
        simp only [LockRequest.access, hs]
      -- nobody has the key, so the lock has not been at it
      have hfirst : key ∉ passed := fun hp => by cases hs.symm.trans (hheld key hp)
      refine h.goesOn hr ha hacc (update_off hin) ?_ ?_
      · rintro _ ⟨⟩
        refine ⟨⟨nodup_cons.mpr ⟨fun ht => hfirst (hsub ht), hnodup⟩, cons_subset_cons key hsub⟩, ?_⟩
        intro other hat
        rcases mem_cons.mp hat with rfl | hp
        · refine ⟨hin, update_self .., ?_⟩
          rw [if_pos mem_cons_self, ← hnew other hin hfirst, hs]
        · have hne : other ≠ key := fun heq => hfirst (heq ▸ hp)
          refine ⟨mem_append_left _ hp, (update_of_ne hne ..).trans (hheld other hp), ?_⟩
          simpa [hne] using hgranted other hp
      · intro other hmem hout
        obtain ⟨hne, hp⟩ := not_or.mp (mt mem_cons.mpr (hout _ rfl))
        exact (update_of_ne hne ..).trans (hnew other hmem hp)
    | some other =>
      by_cases ho : other = owner
      · subst ho
        have hacc : (lock other passed taken (key :: rest)).access w.storage
            = ⟨w.storage, lock other (key :: passed) taken rest, none⟩ := by
          simp only [LockRequest.access, hs, if_true]
        refine h.goesOn hr ha hacc (fun _ _ => rfl) ?_ ?_
        · rintro _ ⟨⟩
          refine ⟨⟨hnodup, fun _ ht => mem_cons_of_mem _ (hsub ht)⟩, fun found hat => ?_⟩
          by_cases hp : found ∈ passed
          · exact ⟨mem_append_left _ hp, hheld found hp, hgranted found hp⟩
          · obtain rfl := (mem_cons.mp hat).resolve_right hp
            refine ⟨hin, hs, ?_⟩
            rw [if_neg fun ht => hp (hsub ht), ← hnew found hin hp, hs]
        · intro found hmem hout
          exact hnew found hmem fun hp => hout _ rfl (mem_cons_of_mem _ hp)
      · have hacc : (lock owner passed taken (key :: rest)).access w.storage
            = ⟨w.storage, undo owner taken.reverse, false⟩ := by
          simp only [LockRequest.access, hs, if_neg ho]
        -- the key is another's, so the lock has not been at it
        have hfirst : key ∉ passed := fun hp =>
          ho (some.inj (hs.symm.trans (hheld key hp)))
        refine h.refuses hr ha hacc ?_ ?_ fun hall => ?_
        · rintro _ ⟨⟩
          refine ⟨nodup_reverse.mpr hnodup, fun found hat => ?_⟩
          have ht : found ∈ taken := mem_reverse.mp hat
          refine ⟨mem_append_left _ (hsub ht), hheld found (hsub ht), ?_⟩
          rw [hgranted found (hsub ht), if_pos ht]
        · intro found hmem hout
          by_cases hp : found ∈ passed
          · rw [hheld found hp, hgranted found hp, if_neg]
            exact fun ht => hout _ rfl (mem_reverse.mpr ht)
          · exact hnew found hmem hp
        · have hgr := hall key hin
          rw [← hnew key hin hfirst, hs] at hgr
          rcases hgr with hgr | hgr
          · cases hgr
          · exact ho (some.inj hgr)

theorem Inv.accessUndo (hr : w.requests task = some (undo owner rest)) :
    w.Accessed task (undo owner rest) := by
  obtain ⟨hnodup, hk⟩ := h.fits hr
  have hheld : ∀ key ∈ rest, w.storage key = owner := fun key hp => (hk key hp).2.1
  have hgranted : ∀ key ∈ rest, w.granted key = none := fun key hp => (hk key hp).2.2
  have ha : ∀ key ∈ (undo owner rest).rest, w.Alone task key := by simp [LockRequest.rest]
  cases rest with
  | nil =>
    refine h.goesOn hr ha rfl (fun _ _ => rfl) nofun ?_
    simp [resources, touched, LockRequest.rest]
  | cons key rest =>
    -- what the lock took is still there to give back
    have hs : releases owner true (w.storage key) = true := by
      rw [releases_iff]
      exact .inl (hheld key mem_cons_self)
    have hacc : (undo owner (key :: rest)).access w.storage
        = ⟨update w.storage key none, undo owner rest, none⟩ := by
      simp only [LockRequest.access, if_pos hs]
    obtain ⟨hfirst, hnodup⟩ := nodup_cons.mp hnodup
    refine h.goesOn hr ha hacc (update_off (mem_append_left _ mem_cons_self)) ?_ ?_
    · rintro _ ⟨⟩
      refine ⟨hnodup, fun other hat => ?_⟩
      have hne : other ≠ key := fun heq => hfirst (heq ▸ hat)
      have hmem : other ∈ key :: rest := mem_cons_of_mem _ hat
      refine ⟨mem_append_left _ hmem, ?_, hgranted other hmem⟩
      exact (update_of_ne hne ..).trans (hheld other hmem)
    · intro other hmem hout
      have hmem : other ∈ key :: rest := by simpa [resources, touched, LockRequest.rest] using hmem
      obtain rfl := (mem_cons.mp hmem).resolve_right (hout _ rfl)
      exact (update_self ..).trans (hgranted other hmem).symm

theorem Inv.accessUnlock (hr : w.requests task = some (unlock owner validateUser taken rest))
    (ha : ∀ key ∈ rest, w.Alone task key)
    (hre : (unlock owner validateUser taken rest).Releasing w.storage) :
    w.Accessed task (unlock owner validateUser taken rest) := by
  obtain ⟨-, hk⟩ := h.fits hr
  have hnew : ∀ key ∈ taken ++ rest, key ∉ taken → w.storage key = w.granted key :=
    fun key => h.untouched hr ha
  have hgone : ∀ key ∈ taken, w.storage key = none := fun key ht => (hk key ht).2.1
  have hgranted : ∀ key ∈ taken, releases owner validateUser (w.granted key) = true :=
    fun key ht => (hk key ht).2.2
  cases rest with
  | nil =>
    have hres : (unlock owner validateUser taken []).resources = taken := append_nil _
    refine h.grants hr ha rfl (fun _ _ => rfl) ?_ ?_
    · intro key hmem
      rw [grant, setOwner, if_pos hmem]
      exact hgone key (hres ▸ hmem)
    · exact fun key hmem => hgranted key (hres ▸ hmem)
  | cons key rest =>
    have hin : key ∈ taken ++ key :: rest := mem_append_right _ mem_cons_self
    by_cases hs : releases owner validateUser (w.storage key) = true
    · have hacc : (unlock owner validateUser taken (key :: rest)).access w.storage
          = ⟨update w.storage key none, unlock owner validateUser (key :: taken) rest, none⟩ := by
        simp only [LockRequest.access, if_pos hs]
      -- there is an entry, so the unlock has not been at it
      have hfirst : key ∉ taken := fun ht => by simp [hgone key ht, releases] at hs
      refine h.goesOn hr ha hacc (update_off hin) ?_ ?_
      · rintro _ ⟨⟩
        refine ⟨trivial, fun other hat => ?_⟩
        rcases mem_cons.mp hat with rfl | ht
        · refine ⟨hin, update_self .., ?_⟩
          rwa [← hnew other hin hfirst]
        · have hne : other ≠ key := fun heq => hfirst (heq ▸ ht)
          exact ⟨mem_append_left _ ht, (update_of_ne hne ..).trans (hgone other ht),
            hgranted other ht⟩
      · intro other hmem hout
        obtain ⟨hne, ht⟩ := not_or.mp (mt mem_cons.mpr (hout _ rfl))
        exact (update_of_ne hne ..).trans (hnew other hmem ht)
    · have hacc : (unlock owner validateUser taken (key :: rest)).access w.storage
          = ⟨w.storage, none, false⟩ := by simp only [LockRequest.access, if_neg hs]
      -- it has released nothing
      have hnone : taken = [] := by
        rcases hre with ⟨hnone, -⟩ | hall
        · exact hnone
        · exact absurd (hall key mem_cons_self) hs
      subst hnone
      refine h.refuses hr ha hacc nofun (fun other hmem _ => hnew other hmem not_mem_nil) ?_
      intro hall
      refine hs ?_
      rw [hnew key hin not_mem_nil]
      exact hall key hin

omit [DecidableEq ρ] h in
theorem chunksOf_of_le {items : List ρ} (hle : items.length ≤ transactWriteItemsChunks) :
    Single [] (chunksOf items) ∧ (chunksOf items).flatten = items := by
  unfold transactWriteItemsChunks at hle
  cases items with
  | nil => simp [Single, chunksOf, transactWriteItemsChunks]
  | cons item items =>
    have hone : ((item :: items).length + 99) / 100 = 1 := by
      rw [length_cons] at hle ⊢
      omega
    have hall : chunksOf (item :: items) = [item :: items] := by
      simp only [chunksOf, transactWriteItemsChunks, Nat.reduceSub, hone, range_one, map_cons,
        map_nil, Nat.zero_mul, drop_zero, take_of_length_le hle]
    rw [hall]
    exact ⟨⟨rfl, .inr ⟨_, rfl, hle⟩⟩, flatten_singleton⟩

theorem Inv.accessPut (hr : w.requests task = some (put owner passed written chunks))
    (ha : ∀ key ∈ chunks.flatten, w.Alone task key) :
    w.Accessed task (put owner passed written chunks) := by
  obtain ⟨⟨rfl, hone⟩, hk⟩ := h.fits hr
  have hpassed : ∀ key ∈ passed, w.storage key = owner ∧ w.granted key = owner :=
    fun key hp => (hk key hp).2
  have hnew : ∀ key ∈ passed ++ chunks.flatten, key ∉ passed → w.storage key = w.granted key :=
    fun key => h.untouched hr ha
  rcases hone with rfl | ⟨chunk, rfl, hlen⟩
  · have hres : (put owner passed [] []).resources = passed := append_nil _
    refine h.grants hr ha rfl (fun _ _ => rfl) ?_ ?_
    · intro key hmem
      rw [grant, setOwner, if_pos hmem]
      exact (hpassed key (hres ▸ hmem)).1
    · exact fun key hmem => .inr (hpassed key (hres ▸ hmem)).2
  have hres : (put owner passed [] [chunk]).resources = passed ++ chunk := by
    simp [resources, touched, LockRequest.rest]
  rw [flatten_singleton] at hnew
  generalize hheld : (chunk.filter fun key => w.storage key ≠ none) = held
  have hmem : ∀ key, key ∈ held ↔ key ∈ chunk ∧ w.storage key ≠ none := by simp [← hheld]
  by_cases hother : ∃ key ∈ held, w.storage key ≠ owner
  · have hacc : (put owner passed [] [chunk]).access w.storage = ⟨w.storage, none, false⟩ := by
      simp only [LockRequest.access, hheld, if_pos hother]
    refine h.refuses hr ha hacc nofun ?_ fun hallowed => ?_
    · intro key hin _
      by_cases hp : key ∈ passed
      · exact (hpassed key hp).1.trans (hpassed key hp).2.symm
      · exact hnew key (hres ▸ hin) hp
    · -- the key is another's, so it is not one that was left out
      obtain ⟨key, hkey, hne⟩ := hother
      obtain ⟨hchunk, hsome⟩ := (hmem key).mp hkey
      have hsame := hnew key (mem_append_right _ hchunk) fun hp => hne (hpassed key hp).1
      have hgranted := hallowed key (hres ▸ mem_append_right _ hchunk)
      rw [← hsame] at hgranted
      exact hgranted.elim hsome hne
  -- no key of the request is another's
  have hours : ∀ key ∈ passed ++ chunk, w.storage key = none ∨ w.storage key = owner := by
    intro key hin
    rcases mem_append.mp hin with hp | hchunk
    · exact .inr (hpassed key hp).1
    · by_contra hno
      obtain ⟨hsome, hne⟩ := not_or.mp hno
      exact hother ⟨key, (hmem key).mpr ⟨hchunk, hsome⟩, hne⟩
  have hallowed : (put owner passed [] [chunk]).Allowed w.granted := by
    intro key hin
    rw [hres] at hin
    by_cases hp : key ∈ passed
    · exact .inr (hpassed key hp).2
    · exact hnew key hin hp ▸ hours key hin
  by_cases hfree : held = []
  · have hacc : (put owner passed [] [chunk]).access w.storage
        = ⟨setOwner w.storage chunk owner, none, true⟩ := by
      simp only [LockRequest.access, hheld, if_neg hother, if_pos hfree, if_true]
    refine h.grants hr ha hacc ?_ ?_ hallowed
    · intro key hout
      exact if_neg fun hchunk => hout (hres ▸ mem_append_right _ hchunk)
    · intro key hin
      rw [grant, setOwner, setOwner, if_pos hin]
      split
      case isTrue => rfl
      case isFalse hchunk =>
        exact (hpassed key ((mem_append.mp (hres ▸ hin)).resolve_right hchunk)).1
  -- what is held is the owner's, and left out
  have hitems : ([] ++ chunk ++ ([] : List (List ρ)).flatten).filter (· ∉ held)
      = chunk.filter (· ∉ held) := by simp
  have hleft : ∀ key ∈ held, w.storage key = owner := fun key hkey =>
    (hours key (mem_append_right _ ((hmem key).mp hkey).1)).resolve_left ((hmem key).mp hkey).2
  by_cases hall : chunk.filter (· ∉ held) = []
  · have hacc : (put owner passed [] [chunk]).access w.storage = ⟨w.storage, none, true⟩ := by
      simp only [LockRequest.access, hheld, if_neg hother, if_neg hfree, hitems, if_pos hall]
    refine h.grants hr ha hacc (fun _ _ => rfl) (fun key hin => ?_) hallowed
    rw [grant, setOwner, if_pos hin]
    rcases mem_append.mp (hres ▸ hin) with hp | hchunk
    · exact (hpassed key hp).1
    · exact hleft key (by simpa using filter_eq_nil_iff.mp hall key hchunk)
  · have hacc : (put owner passed [] [chunk]).access w.storage = ⟨w.storage,
        put owner (held ++ passed) [] (chunksOf (chunk.filter (· ∉ held))), none⟩ := by
      simp only [LockRequest.access, hheld, if_neg hother, if_neg hfree, hitems, if_neg hall]
    refine h.goesOn hr ha hacc (fun _ _ => rfl) ?_ ?_
    · rintro _ ⟨⟩
      refine ⟨(chunksOf_of_le (Nat.le_trans (length_filter_le ..) hlen)).1, fun key hat => ?_⟩
      by_cases hp : key ∈ passed
      · exact ⟨mem_append_left _ hp, hpassed key hp⟩
      · have hat : key ∈ held ++ passed := hat
        have hkey : key ∈ held := (mem_append.mp hat).resolve_right hp
        have hin : key ∈ passed ++ chunk := mem_append_right _ ((hmem key).mp hkey).1
        exact ⟨hres ▸ hin, hleft key hkey, (hnew key hin hp).symm.trans (hleft key hkey)⟩
    · intro key hin hout
      exact hnew key (hres ▸ hin) fun hp => hout _ rfl (mem_append_right held hp)

theorem Inv.accessDelete (hr : w.requests task = some (delete owner validateUser written chunks))
    (ha : ∀ key ∈ chunks.flatten, w.Alone task key)
    (hre : (delete owner validateUser written chunks).Releasing w.storage) :
    w.Accessed task (delete owner validateUser written chunks) := by
  obtain ⟨⟨rfl, hone⟩, -⟩ := h.fits hr
  have hnew : ∀ key ∈ chunks.flatten, w.storage key = w.granted key :=
    fun key hmem => h.untouched hr ha hmem not_mem_nil
  rcases hone with rfl | ⟨chunk, rfl, -⟩
  · refine h.grants hr ha rfl (fun _ _ => rfl) ?_ ?_ <;>
      simp [resources, touched, LockRequest.rest, Allowed]
  have hres : (delete owner validateUser [] [chunk]).resources = chunk := flatten_singleton
  simp only [Releasing, flatten_singleton] at hre hnew
  by_cases hother : validateUser = true ∧ ∃ key ∈ chunk, w.storage key ≠ owner
  · have hacc : (delete owner validateUser [] [chunk]).access w.storage
        = ⟨w.storage, none, false⟩ := by simp only [LockRequest.access, if_pos hother]
    refine h.refuses hr ha hacc nofun (fun key hin _ => hnew key (hres ▸ hin)) fun hall => ?_
    obtain ⟨rfl, key, hchunk, hne⟩ := hother
    have hgranted := hall key (hres.symm ▸ hchunk)
    rw [← hnew key hchunk, releases_iff] at hgranted
    exact hne (hgranted.resolve_right fun hno => by cases hno.1)
  · have hacc : (delete owner validateUser [] [chunk]).access w.storage
        = ⟨setOwner w.storage chunk none, none, true⟩ := by
      simp only [LockRequest.access, if_neg hother, if_true]
    refine h.grants hr ha hacc ?_ ?_ ?_
    · exact fun key hout => if_neg fun hchunk => hout (hres.symm ▸ hchunk)
    · intro key hin
      rw [grant, setOwner, setOwner, if_pos hin, if_pos (hres ▸ hin)]
    · -- the user is checked and has every key, or there is an entry for every one
      intro key hin
      rw [hres] at hin
      rw [← hnew key hin]
      rcases hre with hvalidates | hre
      · rw [releases_iff]
        by_contra hno
        exact hother ⟨hvalidates, key, hin, fun heq => hno (.inl heq)⟩
      · exact hre key hin

end

theorem Inv.accessed {database : Bool} (h : w.Inv) (hr : w.requests task = some request)
    (hg : w.Undisturbed database (.access task)) : w.Accessed task request := by
  obtain ⟨ha, hre⟩ := hg request hr
  cases request with
  | lock owner passed taken rest => exact h.accessLock hr ha
  | undo owner rest => exact h.accessUndo hr
  | unlock owner validateUser released rest => exact h.accessUnlock hr ha hre
  | put owner passed written chunks => exact h.accessPut hr ha
  | delete owner validateUser deleted chunks => exact h.accessDelete hr ha hre

theorem Inv.begin (h : w.Inv) (hnew : request.touched = [] ∧ request.Once)
    (hbe : w.begin task request = some t) : t.Inv := by
  obtain ⟨hi, rfl⟩ := guarded hbe
  refine ⟨fun {other beside} hb => ?_, fun key hn => h.settled key fun other beside hb => ?_⟩
  · rcases update_eq_some hb with ⟨rfl, rfl⟩ | ⟨-, hb⟩
    · rw [hnew.1]
      exact ⟨hnew.2, nofun⟩
    · obtain ⟨ho, hk⟩ := h.fits hb
      refine ⟨ho, fun key hat => ⟨fun another request' hne hr' => ?_, (hk key hat).2⟩⟩
      rcases update_eq_some hr' with ⟨rfl, rfl⟩ | ⟨-, hr'⟩
      · rw [hnew.1]
        exact not_mem_nil
      · exact (hk key hat).1 another request' hne hr'
  · refine hn other beside ((update_of_ne ?_ ..).trans hb)
    rintro rfl
    rw [hb] at hi
    cases hi

theorem Inv.step (h : w.Inv) {database action} (hg : w.Undisturbed database action)
    (hst : w.step database action = some t) : t.Inv := by
  cases action with
  | lock task owner resources =>
    refine h.begin ?_ hst
    cases database with
    | false => simp [touched, Once]
    | true => exact ⟨rfl, (chunksOf_of_le (hg rfl)).1⟩
  | unlock task owner validateUser resources =>
    refine h.begin ?_ hst
    cases database with
    | false => exact ⟨rfl, trivial⟩
    | true => exact ⟨rfl, (chunksOf_of_le (hg rfl)).1⟩
  | access task =>
    obtain ⟨request, hr, rfl⟩ := map_eq_some_iff.mp hst
    exact (h.accessed hr hg).1

/-! ## Deciding the condition -/

instance (request : LockRequest ω ρ) (storage : ρ → Option ω) :
    Decidable (request.Releasing storage) := by
  cases request <;> unfold Releasing <;> infer_instance

instance [Fintype τ] (w : Locks ω ρ τ) (task : τ) (key : ρ) : Decidable (w.Alone task key) :=
  decidable_of_iff (∀ other, other ≠ task → ∀ request ∈ w.requests other, key ∉ request.touched)
    ⟨fun h other request hne hr => h other hne request hr,
      fun h other hne request hr => h other request hne hr⟩

instance [Fintype τ] (database : Bool) (w : Locks ω ρ τ) (action : LockAction ω ρ τ) :
    Decidable (w.Undisturbed database action) :=
  match action with
  | .lock _ _ resources | .unlock _ _ _ resources =>
    inferInstanceAs (Decidable (database = true → resources.dedup.length ≤ _))
  | .access task => decidable_of_iff (∀ request ∈ w.requests task,
      (∀ key ∈ request.rest, w.Alone task key) ∧ request.Releasing w.storage) .rfl

end Locks

open Locks

/-- Two owners lock at a time: the first is granted its two keys, and the second has taken one and
comes to a key of the first. -/
def lockedBeside : List (LockAction Bool Nat Bool) :=
  [.lock false false [0, 1], .lock true true [2, 1], .access false, .access true, .access false,
    .access false]

/-- What the last request of the second task is answered, and the first key before the answer. -/
def lastAnswer (database : Bool) (actions : List (LockAction Bool Nat Bool)) :
    Option (Option Bool × Option Bool × Option Bool) :=
  (run (Locks.step database) empty actions).bind fun w => (w.requests true).map fun request =>
    ((request.access w.storage).answer, w.granted 0, w.storage 0)

end Lore.Server
