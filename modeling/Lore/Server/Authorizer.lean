import Mathlib.Data.List.Basic

/-!
# Authorizer — what a token permits

The four authorizers of the server, each with its answer to one question
(`check_repository_access`) and its enumeration of what a token holds on a repository
(`granted_actions`). An auth service whose answers do not change is a function. Where an
authorizer enumerates, the enumeration answers every question as asking would.
-/

namespace Lore.Server

inductive Action where
  | read
  | write
  | owner
  | admin
  | migrate
  | pushProtected
  | obliterate
  | presign
  deriving DecidableEq

def Action.asStr : Action → String
  | read => "read"
  | write => "write"
  | owner => "owner"
  | admin => "admin"
  | migrate => "migrate"
  | pushProtected => "push-protected"
  | obliterate => "obliterate"
  | presign => "presign"

def allowAllActions : List Action := [.read, .write, .obliterate, .presign]

/-- Tokens and the auth service name actions by their text. -/
inductive Grants where
  | denied
  | actions (granted : List String)

def Grants.reachable : Grants → Bool
  | denied => false
  | actions _ => true

def Grants.permits (action : Action) : Grants → Bool
  | denied => false
  | actions granted => action = .read ∨ action.asStr ∈ granted

structure ResourcePermission where
  resourceId : String
  permission : List String

/-- Some entry grants the action; every entry grants `read`. -/
def entriesPermit (entries : List ResourcePermission) (action : Action) : Bool :=
  entries.any fun entry => action = .read ∨ action.asStr ∈ entry.permission

/-- The permissions merged across the entries. -/
def mergedGrants (entries : List ResourcePermission) : Grants :=
  if entries.isEmpty then .denied else .actions (entries.flatMap (·.permission))

/-- What `resource_id_template` renders a repository to, and the wildcard. -/
structure ResourceMatcher (ρ : Type) where
  resourceFor : ρ → String
  resourceWildcard : String

variable {ρ θ : Type}

namespace ResourceMatcher

def matching (m : ResourceMatcher ρ) (resources : List ResourcePermission) (repository : ρ) :
    List ResourcePermission :=
  resources.filter fun entry =>
    entry.resourceId = m.resourceFor repository ∨ entry.resourceId = m.resourceWildcard

def permits (m : ResourceMatcher ρ) (resources : List ResourcePermission) (repository : ρ)
    (action : Action) : Bool := entriesPermit (m.matching resources repository) action

/-- `grants_from_resources_claim`, and `grants_on` of the resource grants. -/
def grantsOn (m : ResourceMatcher ρ) (resources : List ResourcePermission) (repository : ρ) :
    Grants := mergedGrants (m.matching resources repository)

end ResourceMatcher

/-- The entries of a `CheckUserPermission` response that name the resource. -/
def ofResource (response : List ResourcePermission) (resourceId : String) :
    List ResourcePermission := response.filter (·.resourceId = resourceId)

def evaluateCheckUserPermission (response : List ResourcePermission) (resourceId : String)
    (action : Action) : Bool := entriesPermit (ofResource response resourceId) action

def grantsFromResponse (response : List ResourcePermission) (resourceId : String) : Grants :=
  mergedGrants (ofResource response resourceId)

/-- An authorizer with what it reads of a verified token. -/
inductive Authorizer (ρ θ : Type) where
  | allowAll
  /-- the `resources` claim of an access token, and the answer for an identity token -/
  | authClient (resources : θ → Option (List ResourcePermission))
      (fetchPermissions : θ → String → Option (List ResourcePermission))
      (matcher : ResourceMatcher ρ)
  /-- the texts at `permission_claim` -/
  | globalGrants (implicitActions : List Action) (claimed : θ → List String)
  /-- the entries at `resource_claim` -/
  | resourceGrants (grants : θ → List ResourcePermission) (matcher : ResourceMatcher ρ)

namespace Authorizer

/-- `check_repository_access`, as whether it is Ok. -/
def checkRepositoryAccess (token : Option θ) (repository : ρ) (action : Action) :
    Authorizer ρ θ → Bool
  | allowAll => action ∈ allowAllActions
  | authClient resources fetchPermissions matcher =>
    match token with
    | none => false
    | some token =>
      match resources token with
      | some resources => matcher.permits resources repository action
      | none =>
        match fetchPermissions token (matcher.resourceFor repository) with
        | none => false
        | some response =>
          evaluateCheckUserPermission response (matcher.resourceFor repository) action
  | globalGrants implicitActions claimed =>
    match token with
    | none => false
    | some token =>
      action = .read ∨ action ∈ implicitActions ∨ action.asStr ∈ claimed token
  | resourceGrants grants matcher =>
    match token with
    | none => false
    | some token => matcher.permits (grants token) repository action

/-- `granted_actions`: an error, or the grants where they can be enumerated. -/
def grantedActions (token : Option θ) (repository : ρ) :
    Authorizer ρ θ → Option (Option Grants)
  | allowAll => some (some (.actions (allowAllActions.map Action.asStr)))
  | authClient resources fetchPermissions matcher =>
    match token with
    | none => some none
    | some token =>
      match resources token with
      | some resources => some (some (matcher.grantsOn resources repository))
      | none => (fetchPermissions token (matcher.resourceFor repository)).map fun response =>
          some (grantsFromResponse response (matcher.resourceFor repository))
  | globalGrants implicitActions claimed =>
    match token with
    | none => some (some .denied)
    | some token => some (some (.actions (implicitActions.map Action.asStr ++ claimed token)))
  | resourceGrants grants matcher =>
    match token with
    | none => some (some .denied)
    | some token => some (some (matcher.grantsOn (grants token) repository))

def grantedAccess (authorizer : Authorizer ρ θ) (token : Option θ) (repository : ρ) :
    Option (Option Grants) :=
  match authorizer.grantedActions token repository with
  | some (some grants) => if grants.reachable then some (some grants) else none
  | some none =>
    if authorizer.checkRepositoryAccess token repository .read then some none else none
  | none => none

end Authorizer

theorem Action.asStr_injective : Function.Injective Action.asStr := by
  intro a b h
  cases a <;> cases b <;> first | rfl | exact absurd h (by decide)

theorem permits_mergedGrants (entries : List ResourcePermission) (action : Action) :
    (mergedGrants entries).permits action = entriesPermit entries action := by
  cases entries with
  | nil => rfl
  | cons entry entries =>
    rw [Bool.eq_iff_iff]
    by_cases hr : action = .read
    · simp [mergedGrants, entriesPermit, Grants.permits, hr]
    · simp [mergedGrants, entriesPermit, Grants.permits, hr]

namespace Authorizer

variable {authorizer : Authorizer ρ θ} {token : Option θ} {repository : ρ}

theorem permits_grantedActions {grants}
    (h : authorizer.grantedActions token repository = some (some grants)) (action : Action) :
    grants.permits action = authorizer.checkRepositoryAccess token repository action := by
  cases authorizer with
  | allowAll =>
    cases h
    cases action <;> rfl
  | authClient resources fetchPermissions matcher =>
    cases token with
    | none => cases h
    | some token =>
      simp only [grantedActions] at h
      simp only [checkRepositoryAccess]
      split at h
      next =>
        cases h
        exact permits_mergedGrants _ action
      next =>
        obtain ⟨response, hf, h⟩ := Option.map_eq_some_iff.mp h
        cases h
        rw [hf]
        exact permits_mergedGrants _ action
  | globalGrants implicitActions claimed =>
    cases token with
    | none =>
      cases h
      rfl
    | some token =>
      cases h
      simp [Grants.permits, checkRepositoryAccess, List.mem_map_of_injective Action.asStr_injective]
  | resourceGrants grants matcher =>
    cases token with
    | none =>
      cases h
      rfl
    | some token =>
      cases h
      exact permits_mergedGrants _ action

theorem grantedAccess_spec {grants} (h : authorizer.grantedAccess token repository = some grants) :
    authorizer.checkRepositoryAccess token repository .read = true ∧
    ∀ g, grants = some g → ∀ action,
      g.permits action = authorizer.checkRepositoryAccess token repository action := by
  unfold grantedAccess at h
  split at h
  next g hg =>
    obtain ⟨hr, h⟩ := Option.ite_none_right_eq_some.mp h
    cases h
    refine ⟨?_, fun _ heq => ?_⟩
    · rw [← permits_grantedActions hg]
      cases g with
      | denied => cases hr
      | actions => rfl
    · cases heq
      exact permits_grantedActions hg
  next =>
    obtain ⟨hr, h⟩ := Option.ite_none_right_eq_some.mp h
    cases h
    exact ⟨hr, nofun⟩
  next => cases h

end Authorizer

end Lore.Server
