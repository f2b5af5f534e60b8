import Mathlib.Data.Fintype.Basic
import Mathlib.Data.List.Nodup
import Lore.Lib.Machine
import Lore.Server.Authorizer

/-!
# Sessions — storage commands on one connection

A client starts a session for a repository with its token and is handed an id; a command names
the id and runs for the session found under it. Every access of the session map, of the counter
and of a session's authorized sources is one step. Ids come from a counter of 32 bits, and the
limit is checked before the id is taken: no id is handed out twice until the counter comes
round, and the limit holds where no start checks it while another is past its check.

`Connection.handed` and `Connection.handled` are not in the source: the sessions inserted so
far, with their ids, and the commands that reached a store handler.
-/

namespace Lore.Server

open Lore.Lib List Function Option

inductive Command (ρ : Type) where
  | get
  | getMetadata
  | getResolved
  | query
  | mutableLoad
  | verify (heal : Bool)
  | put
  | putResolved
  | mutableStoreOp
  | mutableCas
  | copy (sourceRepository : ρ)

variable {ρ θ τ : Type}

def Command.requiredAction : Command ρ → Option Action
  | get | getMetadata | getResolved | query | mutableLoad => none
  | verify heal => if heal then some .write else none
  | put | putResolved | mutableStoreOp | mutableCas | copy _ => some .write

structure SessionEntry (ρ θ : Type) where
  repository : ρ
  grants : Option Grants
  token : Option θ
  /-- which of `Connection.sources` is its `authorized_sources` -/
  authorizedSources : Nat

inductive CommandPhase (ρ : Type) where
  /-- asks the authorizer, where the grants were not enumerated -/
  | ask
  | dispatch
  | askSource (source : ρ)
  | insertSource (source : ρ)
  | handle

/-- What a request in progress does next. -/
inductive Request (ρ θ : Type) where
  | checkLimit (session : SessionEntry ρ θ)
  | fetchId (session : SessionEntry ρ θ)
  | insert (id : UInt32) (session : SessionEntry ρ θ)
  | command (phase : CommandPhase ρ) (id : UInt32) (session : SessionEntry ρ θ)
      (command : Command ρ)

/-- A start past its check of the limit. -/
def Request.Starting : Request ρ θ → Prop
  | fetchId _ | insert .. => True
  | _ => False

structure Connection (ρ θ τ : Type) where
  entries : List (UInt32 × SessionEntry ρ θ)
  counter : UInt32
  sources : Nat → List ρ
  requests : τ → Option (Request ρ θ)
  handed : List (UInt32 × SessionEntry ρ θ)
  handled : List (UInt32 × ρ × Command ρ)

inductive ConnectionAction (ρ θ τ : Type) where
  | start (task : τ) (repository : ρ) (token : Option θ)
  | stop (id : UInt32)
  | command (task : τ) (id : UInt32) (command : Command ρ)
  /-- the next access of a request, or the authorizer's answer to it -/
  | advance (task : τ)

def maxConcurrentSessions : Nat := 10000

namespace Connection

variable [DecidableEq ρ] [DecidableEq τ] (authorizer : Authorizer ρ θ)

variable (w : Connection ρ θ τ)

/-- A command finds its session and the grants enumerated at its start. -/
def lookup (w : Connection ρ θ τ) (id : UInt32) (command : Command ρ) :
    Option (Request ρ θ) := do
  let session ← w.entries.lookup id
  match command.requiredAction, session.grants with
  | none, _ => some (.command .dispatch id session command)
  | some _, none => some (.command .ask id session command)
  | some action, some grants =>
    if grants.permits action then some (.command .dispatch id session command) else none

/-- What a request does after its next access, `none` where it is answered. -/
def next : Request ρ θ → Option (Request ρ θ)
  | .checkLimit session =>
    if w.entries.length ≥ maxConcurrentSessions then none else some (.fetchId session)
  | .fetchId session => if w.counter = 0 then none else some (.insert w.counter session)
  | .insert .. => none
  | .command .ask id session command =>
    if authorizer.checkRepositoryAccess session.token session.repository
        (command.requiredAction.getD .read) then some (.command .dispatch id session command)
    else none
  | .command .dispatch id session command =>
    match command with
    | .copy source =>
      if source = session.repository ∨ source ∈ w.sources session.authorizedSources then
        some (.command .handle id session command)
      else some (.command (.askSource source) id session command)
    | _ => some (.command .handle id session command)
  | .command (.askSource source) id session command =>
    if authorizer.checkRepositoryAccess session.token source .read then
      some (.command (.insertSource source) id session command)
    else none
  | .command (.insertSource _) id session command =>
    some (.command .handle id session command)
  | .command .handle .. => none

/-- What the next access of a request leaves. -/
def access : Request ρ θ → Connection ρ θ τ
  | .fetchId _ => { w with counter := w.counter + 1 }
  | .insert id session =>
    let session := { session with authorizedSources := w.handed.length }
    { w with
      entries := (id, session) :: w.entries.filter (·.1 ≠ id)
      sources := update w.sources w.handed.length []
      handed := w.handed ++ [(id, session)] }
  | .command (.insertSource source) _ session _ =>
    { w with
      sources := update w.sources session.authorizedSources
        (source :: w.sources session.authorizedSources) }
  | .command .handle id session command =>
    { w with handled := (id, session.repository, command) :: w.handled }
  | _ => w

def goOn (task : τ) (next : Option (Request ρ θ)) : Connection ρ θ τ :=
  { w with requests := update w.requests task next }

def step : ConnectionAction ρ θ τ → Option (Connection ρ θ τ)
  | .start task repository token =>
    if (w.requests task).isNone then
      some (w.goOn task ((authorizer.grantedAccess token repository).map fun grants =>
        .checkLimit ⟨repository, grants, token, 0⟩))
    else none
  | .stop id => some { w with entries := w.entries.filter (·.1 ≠ id) }
  | .command task id command =>
    if (w.requests task).isNone then some (w.goOn task (w.lookup id command)) else none
  | .advance task => do
    let request ← w.requests task
    return (w.access request).goOn task (w.next authorizer request)

/-- The counter has not come round, and a start checks the limit alone. -/
def Undisturbed : ConnectionAction ρ θ τ → Prop
  | .advance task =>
    match w.requests task with
    | some (.checkLimit _) => ∀ other request, w.requests other = some request →
        ¬ request.Starting
    | some (.fetchId _) => w.counter ≠ 0
    | _ => True
  | _ => True

instance (request : Request ρ θ) : Decidable request.Starting := by
  cases request <;> unfold Request.Starting <;> infer_instance

instance [Fintype τ] : DecidablePred w.Undisturbed
  | .advance task =>
    match hr : w.requests task with
    | some (.checkLimit _) =>
      decidable_of_iff (∀ other, ∀ request ∈ w.requests other, ¬ request.Starting)
        (by simp [Undisturbed, hr])
    | some (.fetchId _) => decidable_of_iff (w.counter ≠ 0) (by simp [Undisturbed, hr])
    | some (.insert ..) | some (.command ..) | none => .isTrue (by simp [Undisturbed, hr])
  | .start .. | .stop _ | .command .. => .isTrue trivial

def new : Connection ρ θ τ := ⟨[], 1, fun _ => [], fun _ => none, [], []⟩

end Connection

/-! ## What is known of a session -/

section

variable (authorizer : Authorizer ρ θ) (session : SessionEntry ρ θ) (command : Command ρ)

def SessionEntry.Granted : Prop :=
  authorizer.grantedAccess session.token session.repository = some session.grants

def SessionEntry.PermitsAction : Prop :=
  authorizer.checkRepositoryAccess session.token session.repository
    (command.requiredAction.getD .read) = true

def SessionEntry.PermitsSource : Prop :=
  ∀ source, command = .copy source →
    authorizer.checkRepositoryAccess session.token source .read = true

end

namespace Connection

section

variable (authorizer : Authorizer ρ θ) (w : Connection ρ θ τ)

/-- An id the counter has passed. -/
def Spent (id : UInt32) : Prop := id ≠ 0 ∧ (w.counter = 0 ∨ id < w.counter)

/-- What a request in progress knows. -/
def Holds : Request ρ θ → Prop
  | .checkLimit session => session.Granted authorizer
  | .fetchId session =>
    session.Granted authorizer ∧ w.entries.length < maxConcurrentSessions
  | .insert id session => session.Granted authorizer ∧
    w.entries.length < maxConcurrentSessions ∧ w.Spent id ∧ id ∉ w.handed.map Prod.fst
  | .command phase id session command => (id, session) ∈ w.handed ∧
    match phase with
    | .ask => True
    | .dispatch => session.PermitsAction authorizer command
    | .askSource source => session.PermitsAction authorizer command ∧ command = .copy source
    | .insertSource source => session.PermitsAction authorizer command ∧
        command = .copy source ∧
        authorizer.checkRepositoryAccess session.token source .read = true
    | .handle => session.PermitsAction authorizer command ∧
        session.PermitsSource authorizer command

/-- A start past its check is the only one. -/
def Only (task : τ) (request : Request ρ θ) : Prop :=
  request.Starting → ∀ other beside, other ≠ task → w.requests other = some beside →
    ¬ beside.Starting

structure Inv : Prop where
  requests : ∀ {task request}, w.requests task = some request →
    w.Holds authorizer request ∧ w.Only task request
  handed : ∀ {n id session}, w.handed[n]? = some (id, session) →
    session.Granted authorizer ∧ session.authorizedSources = n ∧ w.Spent id ∧
      ∀ source ∈ w.sources n, authorizer.checkRepositoryAccess session.token source .read = true
  once : (w.handed.map Prod.fst).Nodup
  entries : w.entries ⊆ w.handed
  limit : w.entries.length ≤ maxConcurrentSessions
  handled : ∀ id repository command, (id, repository, command) ∈ w.handled → ∃ session,
    (id, session) ∈ w.handed ∧ session.repository = repository ∧
      session.PermitsAction authorizer command ∧ session.PermitsSource authorizer command

end

variable {authorizer : Authorizer ρ θ} {w t : Connection ρ θ τ} {task : τ}

theorem Holds.mono {request} (h : w.Holds authorizer request) (hh : w.handed ⊆ t.handed)
    (hs : ∀ id, w.Spent id → t.Spent id)
    (hn : request.Starting → t.entries.length ≤ w.entries.length ∧ t.handed = w.handed) :
    t.Holds authorizer request := by
  cases request with
  | checkLimit session => exact h
  | fetchId session => exact ⟨h.1, Nat.lt_of_le_of_lt (hn trivial).1 h.2⟩
  | insert id session =>
    obtain ⟨hg, hl, hp, hm⟩ := h
    exact ⟨hg, Nat.lt_of_le_of_lt (hn trivial).1 hl, hs id hp, (hn trivial).2 ▸ hm⟩
  | command phase id session command => exact ⟨hh h.1, h.2⟩

theorem Inv.goOn [DecidableEq τ] (h : w.Inv authorizer) {next}
    (hn : ∀ request, next = some request → w.Holds authorizer request ∧ w.Only task request) :
    (w.goOn task next).Inv authorizer := by
  have hself : (w.goOn task next).requests task = next := update_self ..
  have hother : ∀ {other}, other ≠ task → (w.goOn task next).requests other = w.requests other :=
    fun hne => update_of_ne hne ..
  refine { h with requests := fun {other request} hr => ?_ }
  by_cases heq : other = task
  · subst heq
    obtain ⟨hh, ho⟩ := hn request (hself.symm.trans hr)
    exact ⟨hh, fun hs another beside hne hb => ho hs another beside hne (hother hne ▸ hb)⟩
  · obtain ⟨hh, ho⟩ := h.requests (hother heq ▸ hr)
    refine ⟨hh, fun hs another beside hne hb hb' => ?_⟩
    by_cases ha : another = task
    · subst ha
      exact (hn beside (hself.symm.trans hb)).2 hb' other request heq (hother heq ▸ hr) hs
    · exact ho hs another beside hne (hother ha ▸ hb) hb'

theorem Spent.count {id} (h : w.Spent id) (hc : w.counter ≠ 0) :
    Spent { w with counter := w.counter + 1 } id := by
  refine ⟨h.1, ?_⟩
  have hlt := h.2.resolve_left hc
  simp only [UInt32.lt_iff_toNat_lt, ← UInt32.toNat_inj] at hlt ⊢
  have := w.counter.toNat_lt
  simp
  omega

theorem Spent.fetched (hc : w.counter ≠ 0) :
    Spent { w with counter := w.counter + 1 } w.counter := by
  refine ⟨hc, ?_⟩
  simp only [UInt32.lt_iff_toNat_lt, ← UInt32.toNat_inj]
  have := w.counter.toNat_lt
  simp
  omega

theorem Inv.count (h : w.Inv authorizer) (hc : w.counter ≠ 0) :
    Inv authorizer { w with counter := w.counter + 1 } := by
  refine ⟨fun hr => ?_, fun hn => ?_, h.once, h.entries, h.limit, h.handled⟩
  · obtain ⟨hh, ho⟩ := h.requests hr
    exact ⟨hh.mono (fun _ he => he) (fun _ hs => hs.count hc) fun _ => ⟨Nat.le_refl _, rfl⟩, ho⟩
  · obtain ⟨hg, hi, hs, hc'⟩ := h.handed hn
    exact ⟨hg, hi, hs.count hc, hc'⟩

theorem Inv.insert (h : w.Inv authorizer) {id session}
    (hh : w.Holds authorizer (.insert id session))
    (hnone : ∀ other request, w.requests other = some request → ¬ request.Starting) :
    (w.access (.insert id session)).Inv authorizer := by
  obtain ⟨hg, hl, hs, hm⟩ := hh
  have hsub : w.handed ⊆ (w.access (.insert id session)).handed := fun _ => mem_append_left _
  refine ⟨fun hr => ?_, fun {n id' session'} hn => ?_, ?_, ?_, ?_,
    fun id' repository command he => ?_⟩
  · obtain ⟨hh, ho⟩ := h.requests hr
    exact ⟨hh.mono hsub (fun _ hs => hs) fun hs => absurd hs (hnone _ _ hr), ho⟩
  · rcases Nat.lt_trichotomy n w.handed.length with hlt | rfl | hgt
    · obtain ⟨hg', hi, hs', hc⟩ := h.handed ((getElem?_append_left hlt).symm.trans hn)
      refine ⟨hg', hi, hs', ?_⟩
      simpa [access, Nat.ne_of_lt hlt] using hc
    · cases (getElem?_concat_length).symm.trans hn
      refine ⟨hg, rfl, hs, ?_⟩
      simp [access]
    · have := (List.getElem?_eq_some_iff.mp hn).1
      simp [access] at this
      omega
  · simpa [access, nodup_append] using
      ⟨h.once, fun a s he heq => hm (mem_map.mpr ⟨(a, s), he, heq⟩)⟩
  · refine cons_subset.mpr ⟨mem_append_right _ mem_cons_self, fun e he => ?_⟩
    exact hsub (h.entries (mem_of_mem_filter he))
  · have := length_filter_le (fun e : UInt32 × SessionEntry ρ θ => decide (e.1 ≠ id)) w.entries
    simp only [access, length_cons]
    omega
  · obtain ⟨s, hs, hp⟩ := h.handled id' repository command he
    exact ⟨s, hsub hs, hp⟩

theorem Inv.insertSource (h : w.Inv authorizer) {source id session command}
    (hh : w.Holds authorizer (.command (.insertSource source) id session command)) :
    (w.access (.command (.insertSource source) id session command)).Inv authorizer := by
  obtain ⟨hm, -, -, hc⟩ := hh
  obtain ⟨m, hm⟩ := mem_iff_getElem?.mp hm
  obtain ⟨-, hi, -⟩ := h.handed hm
  refine { h with handed := fun {n id' session'} hn => ?_ }
  obtain ⟨hg, hi', hs, hc'⟩ := h.handed hn
  refine ⟨hg, hi', hs, ?_⟩
  -- the set is this session's alone
  by_cases heq : n = session.authorizedSources
  · subst heq
    cases (hi ▸ hm).symm.trans hn
    simpa [access] using ⟨hc, hc'⟩
  · simpa [access, heq] using hc'

theorem Inv.handle (h : w.Inv authorizer) {id session command}
    (hh : w.Holds authorizer (.command .handle id session command)) :
    (w.access (.command .handle id session command)).Inv authorizer := by
  refine { h with handled := fun id' repository command' he => ?_ }
  rcases mem_cons.mp he with heq | he
  · cases heq
    exact ⟨session, hh.1, rfl, hh.2⟩
  · exact h.handled id' repository command' he

variable [DecidableEq ρ] [DecidableEq τ] {request : Request ρ θ}

omit [DecidableEq ρ] [DecidableEq τ] in
theorem Inv.lookup (h : w.Inv authorizer) {id command} (hl : w.lookup id command = some request) :
    w.Holds authorizer request ∧ ¬ request.Starting := by
  obtain ⟨session, hs, hl⟩ := bind_eq_some_iff.mp hl
  obtain ⟨before, behind, heq, -⟩ := lookup_eq_some_iff.mp hs
  have hm : (id, session) ∈ w.handed := h.entries (heq ▸ mem_append_right _ mem_cons_self)
  obtain ⟨n, hn⟩ := mem_iff_getElem?.mp hm
  obtain ⟨hr, hg⟩ := Authorizer.grantedAccess_spec (h.handed hn).1
  split at hl
  next ha =>
    cases hl
    refine ⟨⟨hm, ?_⟩, fun h => h⟩
    rwa [SessionEntry.PermitsAction, ha]
  next =>
    cases hl
    exact ⟨⟨hm, trivial⟩, fun h => h⟩
  next action grants ha hgrants =>
    obtain ⟨hp, hl⟩ := guarded hl
    cases hl
    refine ⟨⟨hm, ?_⟩, fun h => h⟩
    rw [SessionEntry.PermitsAction, ha, ← hg grants hgrants]
    exact hp

theorem Inv.advance (h : w.Inv authorizer) (hr : w.requests task = some request)
    (hgood : w.Undisturbed (.advance task)) :
    ((w.access request).goOn task (w.next authorizer request)).Inv authorizer := by
  obtain ⟨hh, ho⟩ := h.requests hr
  simp only [Undisturbed, hr] at hgood
  cases request with
  | checkLimit session =>
    refine h.goOn fun request hn => ?_
    obtain ⟨hl, hn⟩ := ite_none_left_eq_some.mp hn
    cases hn
    exact ⟨⟨hh, Nat.lt_of_not_le hl⟩, fun _ other beside _ => hgood other beside⟩
  | fetchId session =>
    refine (h.count hgood).goOn fun request hn => ?_
    obtain ⟨-, hn⟩ := ite_none_left_eq_some.mp hn
    cases hn
    refine ⟨⟨hh.1, hh.2, .fetched hgood, fun hm => ?_⟩, ho⟩
    -- the counter has handed out nothing it has not passed
    obtain ⟨⟨id, s⟩, hm, heq⟩ := mem_map.mp hm
    obtain ⟨n, hn⟩ := mem_iff_getElem?.mp hm
    obtain ⟨-, -, hs, -⟩ := h.handed hn
    exact absurd (hs.2.resolve_left hgood) (heq ▸ UInt32.lt_irrefl _)
  | insert id session =>
    have hidle : (w.goOn task none).Inv authorizer := h.goOn nofun
    refine hidle.insert hh fun other beside hb => ?_
    by_cases heq : other = task
    · subst heq
      cases (update_self ..).symm.trans hb
    · exact ho trivial other beside heq ((update_of_ne heq ..).symm.trans hb)
  | command phase id session command =>
    cases phase with
    | ask =>
      refine h.goOn fun request hn => ?_
      obtain ⟨hp, hn⟩ := guarded hn
      cases hn
      exact ⟨⟨hh.1, hp⟩, nofun⟩
    | dispatch =>
      refine h.goOn fun request hn => ?_
      obtain ⟨n, hm⟩ := mem_iff_getElem?.mp hh.1
      obtain ⟨hg, hi, -, hc⟩ := h.handed hm
      simp only [next] at hn
      split at hn
      next source =>
        split at hn
        next hknown =>
          cases hn
          refine ⟨⟨hh.1, hh.2, fun source' heq => ?_⟩, nofun⟩
          cases heq
          rcases hknown with rfl | hknown
          · exact (Authorizer.grantedAccess_spec hg).1
          · exact hc source (hi ▸ hknown)
        next =>
          cases hn
          exact ⟨⟨hh.1, hh.2, rfl⟩, nofun⟩
      next hcopy =>
        cases hn
        exact ⟨⟨hh.1, hh.2, fun source heq => absurd heq (hcopy source)⟩, nofun⟩
    | askSource source =>
      refine h.goOn fun request hn => ?_
      obtain ⟨hp, hn⟩ := guarded hn
      cases hn
      exact ⟨⟨hh.1, hh.2.1, hh.2.2, hp⟩, nofun⟩
    | insertSource source =>
      refine (h.insertSource hh).goOn fun request hn => ?_
      cases hn
      refine ⟨⟨hh.1, hh.2.1, fun source' heq => ?_⟩, nofun⟩
      cases hh.2.2.1.symm.trans heq
      exact hh.2.2.2
    | handle => exact (h.handle hh).goOn nofun

omit [DecidableEq ρ] [DecidableEq τ] in
theorem Inv.new : (Connection.new : Connection ρ θ τ).Inv authorizer := by
  constructor <;> simp [Connection.new]

theorem Inv.step (h : w.Inv authorizer) {action} (hgood : w.Undisturbed action)
    (hstep : w.step authorizer action = some t) : t.Inv authorizer := by
  cases action with
  | start task repository token =>
    obtain ⟨-, rfl⟩ := guarded hstep
    refine h.goOn fun request hn => ?_
    obtain ⟨grants, hg, rfl⟩ := map_eq_some_iff.mp hn
    exact ⟨hg, nofun⟩
  | stop id =>
    cases hstep
    have hle := length_filter_le (fun e : UInt32 × SessionEntry ρ θ => decide (e.1 ≠ id)) w.entries
    refine ⟨fun hr => ?_, h.handed, h.once, fun e he => h.entries (mem_of_mem_filter he),
      Nat.le_trans hle h.limit, h.handled⟩
    obtain ⟨hh, ho⟩ := h.requests hr
    exact ⟨hh.mono (fun _ he => he) (fun _ hs => hs) fun _ => ⟨hle, rfl⟩, ho⟩
  | command task id command =>
    obtain ⟨-, rfl⟩ := guarded hstep
    refine h.goOn fun request hn => ?_
    obtain ⟨hh, hs⟩ := h.lookup hn
    exact ⟨hh, fun hs' => absurd hs' hs⟩
  | advance task =>
    obtain ⟨request, hr, hstep⟩ := bind_eq_some_iff.mp hstep
    cases hstep
    exact h.advance hr hgood

end Connection

open Connection

/-- In every run in which the counter does not come round and no start checks the limit while
another is past its check: every command that reached a store handler acted on the repository of
the one session its id was handed out for, whose token permits there what the command needs and
the reading of a copy's source; no id was handed out twice, nor 0; and the limit holds. -/
theorem commands_run_with_own_authority [DecidableEq ρ] [DecidableEq τ]
    {authorizer : Authorizer ρ θ} {actions : List (ConnectionAction ρ θ τ)}
    {w : Connection ρ θ τ} (hgood : StepsMeet (Connection.step authorizer) Undisturbed new actions)
    (hrun : run (Connection.step authorizer) new actions = some w) :
    (∀ id repository command, (id, repository, command) ∈ w.handled → ∃ session,
      (id, session) ∈ w.handed ∧ (∀ other, (id, other) ∈ w.handed → other = session) ∧
      session.repository = repository ∧ session.PermitsAction authorizer command ∧
      session.PermitsSource authorizer command) ∧
    (w.handed.map Prod.fst).Nodup ∧ (∀ id session, (id, session) ∈ w.handed → id ≠ 0) ∧
    w.entries.length ≤ maxConcurrentSessions := by
  have h : w.Inv authorizer := run_invariant_of_stepsMeet (Connection.step authorizer)
    (fun _ _ _ h hgood hstep => h.step hgood hstep) .new hgood hrun
  refine ⟨fun id repository command he => ?_, h.once, fun id session hm => ?_, h.limit⟩
  · obtain ⟨session, hm, hp⟩ := h.handled id repository command he
    refine ⟨session, hm, fun other ho => ?_, hp⟩
    exact congrArg Prod.snd (inj_on_of_nodup_map h.once ho hm rfl)
  · obtain ⟨n, hn⟩ := mem_iff_getElem?.mp hm
    exact (h.handed hn).2.2.1.1

/-- A token for either of two repositories, the second of which may read the first. -/
def twoTokens : Authorizer Bool Bool :=
  .resourceGrants (fun token => if token then [⟨"b", ["write"]⟩, ⟨"a", []⟩] else [⟨"a", ["write"]⟩])
    ⟨fun repository => if repository then "b" else "a", "*"⟩

/-- A session is started on each repository, and one stopped while a put of its client and a copy
by the other's are under way. -/
def sessionsBeside : List (ConnectionAction Bool Bool Bool) :=
  [.start false false (some false), .start true true (some true)] ++
    replicate 3 (.advance false) ++ replicate 3 (.advance true) ++
    [.command true 2 (.copy false), .command false 1 .put, .advance true, .stop 1,
      .advance false, .advance true, .advance false, .advance true, .advance true]

theorem commands_run_with_own_authority_beside :
    ∃ w, run (Connection.step twoTokens) new sessionsBeside = some w ∧
      w.handled = [(2, true, .copy false), (1, false, .put)] ∧ w.entries.length = 1 ∧
      ∃ session, (2, session) ∈ w.handed ∧ session.repository = true ∧
        session.PermitsAction twoTokens (.copy false) ∧
        session.PermitsSource twoTokens (.copy false) := by
  have hgood : StepsMeet (Connection.step twoTokens) Undisturbed new sessionsBeside := by decide
  obtain ⟨session, hm, -, hp⟩ :=
    (commands_run_with_own_authority hgood rfl).1 2 true (.copy false) mem_cons_self
  exact ⟨_, rfl, rfl, rfl, session, hm, hp⟩

/-- Sessions started and stopped one by one until the counter comes round to 0, which one start
takes; then a session for another repository, and a command with id 1. -/
def comesRound : Nat → UInt32 → List (ConnectionAction Bool Unit Unit)
  | 0, _ => [.start () true none, .advance (), .advance (), .start () true none, .advance (),
      .advance (), .advance (), .command () 1 .get, .advance (), .advance ()]
  | n + 1, id => .start () false none :: .advance () :: .advance () :: .advance () :: .stop id ::
      comesRound n (id + 1)

theorem run_comesRound {n id} {w : Connection Bool Unit Unit} {session}
    (hn : (id.toNat + n) % 4294967296 = 0 ∧ n < 4294967295) (hc : w.counter = id)
    (he : w.entries = [(1, session)]) (hr : w.requests () = none) (hm : (1, session) ∈ w.handed) :
    ∃ t, run (Connection.step .allowAll) w (comesRound n id) = some t ∧
      (1, session) ∈ t.handed ∧ (1, true, .get) ∈ t.handled := by
  induction n generalizing w id with
  | zero =>
    have hid : id = 0 := by
      have := id.toNat_lt
      rw [← UInt32.toNat_inj]
      simp
      omega
    subst hid
    obtain ⟨entries, counter, sources, requests, handed, handled⟩ := w
    obtain rfl : requests = fun _ => none := funext fun _ => hr
    cases hc
    cases he
    exact ⟨_, rfl, mem_append_left _ hm, mem_cons_self⟩
  | succ n ih =>
    have hid : id ≠ 0 ∧ id ≠ 1 := by
      rw [ne_eq, ne_eq, ← UInt32.toNat_inj, ← UInt32.toNat_inj]
      simp
      omega
    simp [comesRound, run, Connection.step, Connection.goOn, Connection.next, Connection.access,
      hr, hc, he, Authorizer.grantedAccess, Authorizer.grantedActions,
      Grants.reachable, hid]
    refine ih ⟨?_, by omega⟩ ?_ ?_ ?_ ?_
    · simp
      omega
    · rfl
    · simp [hid.2.symm]
    · rfl
    · exact mem_append_left _ hm

/-- A session for one repository that is never stopped has id 1; the counter comes round, and
its command acts on the repository of the session that id 1 is handed out for again. -/
theorem command_acts_for_later_session :
    ∃ w : Connection Bool Unit Unit, run (Connection.step .allowAll) new
        ([.start () false none, .advance (), .advance (), .advance ()] ++
          comesRound 4294967294 2) = some w ∧
      (∃ session, (1, session) ∈ w.handed ∧ session.repository = false) ∧
      (1, true, .get) ∈ w.handled := by
  have hfirst : (run (Connection.step (.allowAll : Authorizer Bool Unit)) new
      [.start () false none, .advance (), .advance (), .advance ()]).isSome := rfl
  obtain ⟨session, he, hm, hf⟩ : ∃ session, (get _ hfirst).entries = [(1, session)] ∧
      (1, session) ∈ (get _ hfirst).handed ∧ session.repository = false :=
    ⟨_, rfl, mem_cons_self, rfl⟩
  have hn : (UInt32.toNat 2 + 4294967294) % 4294967296 = 0 ∧ 4294967294 < 4294967295 := by decide
  obtain ⟨t, hrun, hm, hh⟩ := run_comesRound hn rfl he rfl hm
  refine ⟨t, ?_, ⟨session, hm, hf⟩, hh⟩
  rw [run_append, ← some_get hfirst, bind_some, hrun]

end Lore.Server
