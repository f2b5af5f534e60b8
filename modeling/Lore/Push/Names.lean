import Mathlib.Data.Fintype.Basic
import Lore.Lib.Machine

/-!
# Names — which branch a name is mapped to

The metadata of a branch, with its name in it, is stored under its id, and its id under the
lower case of the name. A creation, a deletion and the name check of a push load and store these
keys one at a time, each in its own order. A branch is live from the store of its name on, until
it is deleted. Its name stays mapped to it as long as no two operations on one branch or one name
run at a time, no name is spelled in two ways, and no name spells an id: then every store finds the
keys it was decided on as they were. A store without a remote is modelled.

`Names.live` is not in the source: it is the name a branch was last answered Ok for.
-/

namespace Lore.Push

open Lore.Lib Function Option

/-- What `load_name_to_id` is asked for: whether the name of a creation is taken, whether its
branch is alive under the name in its metadata, whether the name of a deletion is its branch's. -/
inductive NameQuery (ν : Type) where
  | taken (name : ν)
  | alive (name existing : ν)
  | owned (name : ν)

def NameQuery.name {ν : Type} : NameQuery ν → ν
  | taken name | alive _ name | owned name => name

/-- The names an operation with this question comes to. -/
def NameQuery.names {ν : Type} : NameQuery ν → List ν
  | taken name | owned name => [name]
  | alive name existing => [name, existing]

/-- The load or store an operation makes next. -/
inductive NamePhase (ν ι : Type) where
  | loadName (query : NameQuery ν)
  | loadLatest (query : NameQuery ν)
  | storeFallback (query : NameQuery ν)
  | loadMapped (name : ν) (mapped : ι)
  | loadOwn (name : ν)
  | storeMetadata (name : ν)
  | storeName (name : ν)
  | loadDeleted
  | clearName (name : ν)
  | loadPushed
  | loadNameLocal (name : ν)
  | loadOther (name : ν) (other : ι)

/-- The names an operation in this phase has come to. -/
def NamePhase.names {ν ι : Type} : NamePhase ν ι → List ν
  | loadName query | loadLatest query | storeFallback query => query.names
  | loadMapped name _ | loadOwn name | storeMetadata name | storeName name | clearName name
  | loadNameLocal name | loadOther name _ => [name]
  | loadDeleted | loadPushed => []

/-- The key of a name, the id derived from it, and the id it spells, where that is none of zero. -/
structure Naming (κ ν ι : Type) where
  lowercase : ν → κ
  fallbackId : ν → ι
  idOf : ν → Option ι

/-- The keys of the branches, of a latest revision only whether there is one, and the branch and
phase of each operation. -/
structure Names (κ ν ι τ : Type) where
  nameToId : κ → Option ι
  metadata : ι → Option ν
  latest : ι → Bool
  live : ι → Option ν
  operations : τ → Option (ι × NamePhase ν ι)

inductive NameAction (ν ι τ : Type) where
  | create (task : τ) (branch : ι) (name : ν)
  | delete (task : τ) (branch : ι)
  | push (task : τ) (branch : ι)
  /-- the next load or store; `patches` where the metadata found lacks another field -/
  | advance (task : τ) (patches : Bool)
  /-- an answer with an error -/
  | fail (task : τ)
  | setLatest (branch : ι) (stored : Bool)

namespace Names

variable {κ ν ι τ : Type} [DecidableEq κ] [DecidableEq ν] [DecidableEq ι] [DecidableEq τ]

/-- Where an operation goes on with the id its name is mapped to. -/
def answer (branch : ι) : NameQuery ν → Option ι → Option (NamePhase ν ι)
  | .taken name, some mapped => some (.loadMapped name mapped)
  | .taken name, none => some (.loadOwn name)
  | .alive _ _, some _ => none
  | .alive name _, none => some (.storeMetadata name)
  | .owned name, mapped => if mapped = branch then some (.clearName name) else none

variable (naming : Naming κ ν ι) (w : Names κ ν ι τ)

/-- The phase after the next load or store, `none` where the operation is answered. -/
def next (branch : ι) (patches : Bool) : NamePhase ν ι → Option (NamePhase ν ι)
  | .loadName query =>
    match naming.idOf query.name with
    | some id => answer branch query id
    | none =>
      match w.nameToId (naming.lowercase query.name) with
      | some id => answer branch query id
      | none => some (.loadLatest query)
  | .loadLatest query =>
    if w.latest (naming.fallbackId query.name) then some (.storeFallback query)
    else answer branch query none
  | .storeFallback query => answer branch query (naming.fallbackId query.name)
  | .loadMapped name mapped => if (w.metadata mapped).isSome then none else some (.loadOwn name)
  | .loadOwn name =>
    match w.metadata branch with
    | none => some (.storeMetadata name)
    | some existing =>
      if existing ≠ name then some (.loadName (.alive name existing))
      else if patches then some (.storeMetadata name)
      else some (.storeName name)
  | .storeMetadata name => some (.storeName name)
  | .loadDeleted => (w.metadata branch).map fun name => .loadName (.owned name)
  | .loadPushed => (w.metadata branch).map .loadNameLocal
  | .loadNameLocal name =>
    match w.nameToId (naming.lowercase name) with
    | none => some (.storeName name)
    | some mapped => if mapped = branch then none else some (.loadOther name mapped)
  | .loadOther name other =>
    -- `other_branch_still_claims_name` compares the spelling
    if w.metadata other = name then none else some (.storeName name)
  | .storeName _ | .clearName _ => none

/-- What the next load or store leaves in the keys. -/
def write (branch : ι) (phase : NamePhase ν ι) : Names κ ν ι τ :=
  { w with
    nameToId := match phase with
      | .storeFallback query =>
        update w.nameToId (naming.lowercase query.name) (naming.fallbackId query.name)
      | .storeName name => update w.nameToId (naming.lowercase name) branch
      | .clearName name => update w.nameToId (naming.lowercase name) none
      | _ => w.nameToId
    metadata := match phase with
      | .storeMetadata name => update w.metadata branch name
      | _ => w.metadata
    live := update w.live branch <| match phase with
      | .storeName name => name
      | .clearName _ => none
      | .loadNameLocal name =>
        if w.nameToId (naming.lowercase name) = branch then name else w.live branch
      | _ => w.live branch }

def begin (task : τ) (branch : ι) (phase : NamePhase ν ι) : Option (Names κ ν ι τ) :=
  if (w.operations task).isSome then none
  else some { w with operations := update w.operations task (branch, phase) }

def step : NameAction ν ι τ → Option (Names κ ν ι τ)
  | .create task branch name => w.begin task branch (.loadName (.taken name))
  | .delete task branch => w.begin task branch .loadDeleted
  | .push task branch => w.begin task branch .loadPushed
  | .advance task patches => do
    let (branch, phase) ← w.operations task
    let next := w.next naming branch patches phase
    return { w.write naming branch phase with
      operations := update w.operations task (next.map (branch, ·)) }
  | .fail task => some { w with operations := update w.operations task none }
  | .setLatest branch stored => some { w with latest := update w.latest branch stored }

/-- The names an operation comes to: those of its phase, and the one its branch has. -/
def names (branch : ι) (phase : NamePhase ν ι) : List ν :=
  phase.names ++ (w.metadata branch).toList

/-- Two operations on different branches and names. -/
def Beside (one other : ι × NamePhase ν ι) : Prop :=
  one.1 ≠ other.1 ∧ ∀ name ∈ w.names one.1 one.2, ∀ spelled ∈ w.names other.1 other.2,
    naming.lowercase name ≠ naming.lowercase spelled

/-- No operation in progress is on the branch, or comes to a name of this phase. -/
def Apart (branch : ι) (phase : NamePhase ν ι) : Prop :=
  ∀ task, ∀ operation ∈ w.operations task, w.Beside naming operation (branch, phase)

/-- The name spells no id, and no branch has it in another spelling. -/
def OneSpelling (name : ν) : Prop :=
  naming.idOf name = none ∧ ∀ branch, ∀ spelled ∈ w.metadata branch,
    naming.lowercase spelled = naming.lowercase name → spelled = name

/-- An operation starts with no other on its branch or its names in progress, and a branch is made
with a name in its one spelling. -/
def Undisturbed : NameAction ν ι τ → Prop
  | .create _ branch name =>
    w.Apart naming branch (.loadName (.taken name)) ∧ w.OneSpelling naming name
  | .delete _ branch => w.Apart naming branch .loadDeleted
  | .push _ branch => w.Apart naming branch .loadPushed
  | .advance .. | .fail _ | .setLatest .. => True

instance [Fintype ι] [Fintype τ] : DecidablePred (w.Undisturbed naming)
  | .create .. => by unfold Undisturbed Apart Beside OneSpelling; infer_instance
  | .delete .. | .push .. => by unfold Undisturbed Apart Beside; infer_instance
  | .advance .. | .fail _ | .setLatest .. => instDecidableTrue

def empty : Names κ ν ι τ :=
  ⟨fun _ => none, fun _ => none, fun _ => false, fun _ => none, fun _ => none⟩

/-- Every live branch has its name, in its metadata and in the mapping. -/
def Mapped : Prop :=
  ∀ branch name, w.live branch = some name →
    w.nameToId (naming.lowercase name) = some branch ∧ w.metadata branch = some name

/-- The branch may have the name: who it is mapped to is the branch, or has it in no spelling. -/
def Free (branch : ι) (name : ν) : Prop :=
  ∀ other, w.nameToId (naming.lowercase name) = some other → other = branch ∨
    ∀ spelled, w.metadata other = some spelled → naming.lowercase spelled ≠ naming.lowercase name

/-- What an operation has found in the keys is there still. -/
def Loaded (branch : ι) : NamePhase ν ι → Prop
  | .loadName (.taken name) => w.OneSpelling naming name
  | .loadLatest (.taken name) | .storeFallback (.taken name) =>
    w.OneSpelling naming name ∧ w.nameToId (naming.lowercase name) = none
  | .loadMapped name mapped =>
    w.OneSpelling naming name ∧ w.nameToId (naming.lowercase name) = some mapped
  | .loadOwn name => w.OneSpelling naming name ∧ w.Free naming branch name
  | .loadName (.alive name existing) =>
    w.OneSpelling naming name ∧ w.Free naming branch name ∧ w.metadata branch = some existing
  | .loadLatest (.alive name existing) | .storeFallback (.alive name existing) =>
    w.OneSpelling naming name ∧ w.Free naming branch name ∧ w.metadata branch = some existing ∧
      w.nameToId (naming.lowercase existing) = none
  | .storeMetadata name =>
    w.OneSpelling naming name ∧ w.Free naming branch name ∧
      ∀ existing, w.metadata branch = some existing →
        existing = name ∨ w.nameToId (naming.lowercase existing) = none
  | .storeName name => w.metadata branch = some name ∧ w.Free naming branch name
  | .loadDeleted | .loadPushed => True
  | .loadName (.owned name) | .loadNameLocal name => w.metadata branch = some name
  | .loadLatest (.owned name) | .storeFallback (.owned name) =>
    w.metadata branch = some name ∧ w.nameToId (naming.lowercase name) = none
  | .clearName name =>
    w.metadata branch = some name ∧ w.nameToId (naming.lowercase name) = some branch
  | .loadOther name other =>
    w.metadata branch = some name ∧ w.nameToId (naming.lowercase name) = some other

structure Inv : Prop where
  mapped : w.Mapped naming
  spelled : ∀ branch name, w.metadata branch = some name → w.OneSpelling naming name
  loaded : ∀ task branch phase, w.operations task = some (branch, phase) →
    w.Loaded naming branch phase
  apart : ∀ task other p q, task ≠ other → w.operations task = some p →
    w.operations other = some q → w.Beside naming p q

variable {naming w} {t : Names κ ν ι τ} {action : NameAction ν ι τ} {branch own : ι}
  {phase after : NamePhase ν ι}

/-! ## One operation -/

omit [DecidableEq κ] [DecidableEq ν] [DecidableEq ι] [DecidableEq τ] in
theorem free_of_none {name : ν} (h : w.nameToId (naming.lowercase name) = none) :
    w.Free naming branch name := by
  intro other hother
  cases h.symm.trans hother

omit [DecidableEq τ] in
/-- What an operation leaves in the keys, it finds there in its next phase. -/
theorem Loaded.next (hsp : ∀ branch name, w.metadata branch = some name → w.OneSpelling naming name)
    (h : w.Loaded naming own phase) {patches} (hn : w.next naming own patches phase = some after) :
    (w.write naming own phase).Loaded naming own after := by
  cases phase with
  | loadName query =>
    have hid : naming.idOf query.name = none := by
      cases query with
      | taken name => exact h.1
      | alive name existing => exact (hsp own existing h.2.2).1
      | owned name => exact (hsp own name h).1
    simp only [Names.next, hid] at hn
    cases hma : w.nameToId (naming.lowercase query.name) with
    | none =>
      simp only [hma] at hn
      cases hn
      cases query with
      | taken name => exact ⟨h, hma⟩
      | alive name existing => exact ⟨h.1, h.2.1, h.2.2, hma⟩
      | owned name => exact ⟨h, hma⟩
    | some id =>
      simp only [hma] at hn
      cases query with
      | taken name =>
        cases hn
        exact ⟨h, hma⟩
      | alive name existing => cases hn
      | owned name =>
        obtain ⟨hown, hn⟩ := ite_none_right_eq_some.mp hn
        cases hn
        exact ⟨h, hma.trans hown⟩
  | loadLatest query =>
    simp only [Names.next] at hn
    split at hn
    · cases hn
      cases query <;> exact h
    · cases query with
      | taken name =>
        cases hn
        exact ⟨h.1, free_of_none h.2⟩
      | alive name existing =>
        cases hn
        refine ⟨h.1, h.2.1, fun other hother => .inr ?_⟩
        cases h.2.2.1.symm.trans hother
        exact h.2.2.2
      | owned name => cases hn
  | storeFallback query =>
    cases query with
    | taken name =>
      cases hn
      exact ⟨h.1, update_self ..⟩
    | alive name existing => cases hn
    | owned name =>
      obtain ⟨hown, hn⟩ := ite_none_right_eq_some.mp hn
      cases hn
      exact ⟨h.1, (update_self ..).trans hown⟩
  | loadMapped name mapped =>
    simp only [Names.next] at hn
    split at hn
    · cases hn
    next hnone =>
      cases hn
      refine ⟨h.1, fun other hother => .inr fun spelled hsome => ?_⟩
      cases h.2.symm.trans hother
      have hsome : w.metadata mapped = some spelled := hsome
      simp [hsome] at hnone
  | loadOwn name =>
    obtain ⟨hone, hfree⟩ := h
    simp only [Names.next] at hn
    cases hme : w.metadata own with
    | none =>
      simp only [hme] at hn
      cases hn
      exact ⟨hone, hfree, fun existing hex => by cases hme.symm.trans hex⟩
    | some existing =>
      simp only [hme] at hn
      split_ifs at hn with hne hpatch
      · cases hn
        exact ⟨hone, hfree, hme⟩
      · cases hn
        refine ⟨hone, hfree, fun other hother => .inl ?_⟩
        cases hme.symm.trans hother
        exact not_not.mp hne
      · cases hn
        exact ⟨hme.trans (congrArg some (not_not.mp hne)), hfree⟩
  | storeMetadata name =>
    cases hn
    refine ⟨update_self .., fun other hother => ?_⟩
    by_cases heq : other = own
    · exact .inl heq
    · refine (h.2.1 other hother).imp_right fun hfree spelled hspelled => hfree spelled ?_
      exact (update_of_ne heq ..).symm.trans hspelled
  | loadDeleted =>
    obtain ⟨name, hme, rfl⟩ := map_eq_some_iff.mp hn
    exact hme
  | loadPushed =>
    obtain ⟨name, hme, rfl⟩ := map_eq_some_iff.mp hn
    exact hme
  | loadNameLocal name =>
    simp only [Names.next] at hn
    cases hma : w.nameToId (naming.lowercase name) with
    | none =>
      simp only [hma] at hn
      cases hn
      exact ⟨h, free_of_none hma⟩
    | some mapped =>
      simp only [hma] at hn
      obtain ⟨-, hn⟩ := ite_none_left_eq_some.mp hn
      cases hn
      exact ⟨h, hma⟩
  | loadOther name other =>
    obtain ⟨hne, hn⟩ := ite_none_left_eq_some.mp hn
    cases hn
    refine ⟨h.1, fun mapped hmapped => .inr fun spelled hspelled hkey => hne ?_⟩
    cases h.2.symm.trans hmapped
    have hspelled : w.metadata other = some spelled := hspelled
    rw [hspelled, (hsp own name h.1).2 other spelled hspelled hkey]
  | storeName name => cases hn
  | clearName name => cases hn

omit [DecidableEq κ] [DecidableEq ν] [DecidableEq ι] [DecidableEq τ] in
theorem Loaded.unmapped {query : NameQuery ν} (h : w.Loaded naming own (.storeFallback query)) :
    w.nameToId (naming.lowercase query.name) = none := by
  cases query with
  | taken name => exact h.2
  | alive name existing => exact h.2.2.2
  | owned name => exact h.2

omit [DecidableEq ν] [DecidableEq τ] in
/-- A store leaves every live branch its name, its own branch included. -/
theorem Mapped.write (hm : w.Mapped naming) (h : w.Loaded naming own phase) :
    (w.write naming own phase).Mapped naming := by
  intro branch name hl
  -- a store at another key than a live branch's leaves it its name
  have hk : ∀ {stored id}, w.live branch = some name →
      naming.lowercase name ≠ naming.lowercase stored →
      update w.nameToId (naming.lowercase stored) id (naming.lowercase name) = some branch :=
    fun hwas hne => (update_of_ne hne ..).trans (hm branch name hwas).1
  by_cases heq : branch = own
  · subst heq
    replace hl := (update_self ..).symm.trans hl
    cases phase with
    | storeName stored =>
      cases hl
      exact ⟨update_self .., h.1⟩
    | clearName stored => cases hl
    | loadNameLocal stored =>
      simp only at hl
      split at hl
      next hown =>
        cases hl
        exact ⟨hown, h⟩
      · exact hm branch name hl
    | storeFallback query =>
      refine ⟨hk hl fun hkey => ?_, (hm branch name hl).2⟩
      cases (hkey ▸ (hm branch name hl).1).symm.trans h.unmapped
    | storeMetadata stored =>
      obtain ⟨hma, hme⟩ := hm branch name hl
      rcases h.2.2 name hme with rfl | hnone
      · exact ⟨hma, update_self ..⟩
      · cases hma.symm.trans hnone
    | _ => exact hm branch name hl
  · replace hl : w.live branch = some name := (update_of_ne heq ..).symm.trans hl
    obtain ⟨hma, hme⟩ := hm branch name hl
    cases phase with
    | storeFallback query =>
      refine ⟨hk hl fun hkey => ?_, hme⟩
      cases (hkey ▸ hma).symm.trans h.unmapped
    | storeMetadata stored => exact ⟨hma, (update_of_ne heq ..).trans hme⟩
    | storeName stored =>
      refine ⟨hk hl fun hkey => ?_, hme⟩
      exact (h.2 branch (hkey ▸ hma)).elim heq fun hfree => hfree name hme hkey
    | clearName stored =>
      refine ⟨hk hl fun hkey => heq ?_, hme⟩
      exact some.inj ((hkey ▸ hma).symm.trans h.2)
    | _ => exact ⟨hma, hme⟩

/-! ## Operations beside each other -/

omit [DecidableEq κ] [DecidableEq ν] [DecidableEq ι] [DecidableEq τ] in
/-- What an operation has found is left by one that is apart from it. -/
theorem Loaded.beside (h : w.Loaded naming branch phase)
    (hnames : ∀ name ∈ w.names branch phase,
      t.nameToId (naming.lowercase name) = w.nameToId (naming.lowercase name))
    (hown : t.metadata branch = w.metadata branch)
    (hother : ∀ other spelled, t.metadata other = some spelled → w.metadata other = some spelled ∨
      ∀ name ∈ w.names branch phase, naming.lowercase spelled ≠ naming.lowercase name) :
    t.Loaded naming branch phase := by
  have hone : ∀ name ∈ w.names branch phase, w.OneSpelling naming name →
      t.OneSpelling naming name := by
    intro name hmem hone
    refine ⟨hone.1, fun other spelled hspelled hkey => ?_⟩
    rcases hother other spelled hspelled with hwas | hne
    · exact hone.2 other spelled hwas hkey
    · exact absurd hkey (hne name hmem)
  have hfree : ∀ name ∈ w.names branch phase, w.Free naming branch name →
      t.Free naming branch name := by
    intro name hmem hfree other hmapped
    rw [hnames name hmem] at hmapped
    refine (hfree other hmapped).imp_right fun hno spelled hspelled => ?_
    rcases hother other spelled hspelled with hwas | hne
    · exact hno spelled hwas
    · exact hne name hmem
  have hmeta : ∀ existing, w.metadata branch = some existing →
      t.nameToId (naming.lowercase existing) = w.nameToId (naming.lowercase existing) := by
    intro existing hexisting
    exact hnames existing (List.mem_append_right _ (by simp [hexisting]))
  have hin : ∀ name ∈ phase.names, name ∈ w.names branch phase := fun _ => List.mem_append_left _
  clear hother
  cases phase with
  | loadName query | loadLatest query | storeFallback query =>
    cases query <;> grind [Loaded, NamePhase.names, NameQuery.names]
  | _ => grind [Loaded, NamePhase.names]

omit [DecidableEq κ] [DecidableEq τ] in
theorem names_next {patches} (hn : w.next naming own patches phase = some after) :
    after.names ⊆ w.names own phase := by
  intro name hmem
  cases phase with
  | loadName query | loadLatest query | storeFallback query =>
    cases query <;> grind [Names.next, answer, names, NamePhase.names, NameQuery.names]
  | loadDeleted | loadPushed =>
    obtain ⟨existing, hme, rfl⟩ := map_eq_some_iff.mp hn
    simpa [names, NamePhase.names, NameQuery.names, hme] using hmem
  | _ => grind [Names.next, names, NamePhase.names, NameQuery.names]

omit [DecidableEq ν] [DecidableEq τ] in
theorem write_nameToId (key : κ) (hkey : ∀ name ∈ w.names own phase, naming.lowercase name ≠ key) :
    (w.write naming own phase).nameToId key = w.nameToId key := by
  have hin : ∀ name ∈ phase.names, key ≠ naming.lowercase name := by
    intro name hmem heq
    exact hkey name (List.mem_append_left _ hmem) heq.symm
  cases phase with
  | storeFallback query =>
    refine update_of_ne (hin query.name ?_) ..
    cases query <;> simp [NamePhase.names, NameQuery.names, NameQuery.name]
  | storeName name | clearName name => exact update_of_ne (hin name (List.mem_singleton_self _)) ..
  | _ => rfl

omit [DecidableEq ν] [DecidableEq τ] in
theorem write_metadata {other : ι} {spelled : ν}
    (h : (w.write naming own phase).metadata other = some spelled) :
    w.metadata other = some spelled ∨ other = own ∧ phase = .storeMetadata spelled := by
  cases phase with
  | storeMetadata name =>
    rcases update_eq_some h with ⟨rfl, rfl⟩ | ⟨-, hwas⟩
    · exact .inr ⟨rfl, rfl⟩
    · exact .inl hwas
  | _ => exact .inl h

omit [DecidableEq ν] [DecidableEq τ] in
theorem names_write (hn : after.names ⊆ w.names own phase) :
    (w.write naming own phase).names own after ⊆ w.names own phase := by
  refine List.append_subset.mpr ⟨hn, fun name hmem => ?_⟩
  rcases write_metadata (Option.mem_toList.mp hmem) with hwas | ⟨-, rfl⟩
  · exact List.mem_append_right _ (by simp [hwas])
  · exact List.mem_append_left _ (List.mem_singleton_self _)

/-! ## Every operation -/

omit [DecidableEq ν] [DecidableEq τ] in
theorem OneSpelling.write
    (hsp : ∀ branch name, w.metadata branch = some name → w.OneSpelling naming name)
    (hl : w.Loaded naming own phase) {branch name}
    (h : (w.write naming own phase).metadata branch = some name) :
    (w.write naming own phase).OneSpelling naming name := by
  have hwas : w.OneSpelling naming name := by
    rcases write_metadata h with hwas | ⟨-, rfl⟩
    · exact hsp branch name hwas
    · exact hl.1
  refine ⟨hwas.1, fun other spelled hspelled hkey => ?_⟩
  rcases write_metadata hspelled with hold | ⟨rfl, rfl⟩
  · exact hwas.2 other spelled hold hkey
  -- the name stored is in the one spelling of its key
  · rcases write_metadata h with hold | ⟨-, hsame⟩
    · exact (hl.1.2 branch name hold hkey.symm).symm
    · cases hsame
      rfl

theorem Inv.advance (h : w.Inv naming) {task : τ} {patches : Bool}
    (hp : w.operations task = some (own, phase)) {t : Names κ ν ι τ}
    (ht : t = { w.write naming own phase with
      operations := update w.operations task ((w.next naming own patches phase).map (own, ·)) }) :
    t.Inv naming := by
  have hl := h.loaded task own phase hp
  have hself : t.operations task = (w.next naming own patches phase).map (own, ·) := by
    rw [ht]
    exact update_self ..
  have hothers : ∀ other, other ≠ task → t.operations other = w.operations other := by
    intro other hne
    rw [ht]
    exact update_of_ne hne ..
  have hnext : ∀ operation, t.operations task = some operation → operation.1 = own ∧
      t.names own operation.2 ⊆ w.names own phase ∧ t.Loaded naming own operation.2 := by
    intro operation hop
    obtain ⟨after, hn, rfl⟩ := map_eq_some_iff.mp (hself.symm.trans hop)
    have hnames : (w.write naming own phase).names own after ⊆ w.names own phase :=
      names_write (names_next hn)
    rw [ht]
    exact ⟨rfl, hnames, hl.next h.spelled hn⟩
  -- an operation beside is on another branch
  have hmeta : ∀ other operation, other ≠ task → w.operations other = some operation →
      t.metadata operation.1 = w.metadata operation.1 := by
    intro other operation hne hop
    have hbranch := (h.apart other task operation _ hne hop hp).1
    rw [ht]
    cases phase with
    | storeMetadata name => exact update_of_ne hbranch ..
    | _ => rfl
  have hwas : ∀ other operation, t.operations other = some operation →
      ∃ was, w.operations other = some was ∧ was.1 = operation.1 ∧
        t.names operation.1 operation.2 ⊆ w.names was.1 was.2 := by
    intro other operation hop
    by_cases hne : other = task
    · subst hne
      obtain ⟨hown, hnames, -⟩ := hnext operation hop
      exact ⟨_, hp, hown.symm, hown ▸ hnames⟩
    · rw [hothers other hne] at hop
      refine ⟨_, hop, rfl, ?_⟩
      rw [names, hmeta other operation hne hop]
      exact List.Subset.refl _
  refine ⟨?_, ?_, ?_, ?_⟩
  · rw [ht]
    exact h.mapped.write hl
  · intro branch name hname
    rw [ht] at hname ⊢
    exact OneSpelling.write h.spelled hl hname
  · intro other branch now hop
    by_cases hne : other = task
    · subst hne
      obtain ⟨rfl, -, hnow⟩ := hnext _ hop
      exact hnow
    · rw [hothers other hne] at hop
      obtain ⟨-, hnames⟩ := h.apart other task _ _ hne hop hp
      refine (h.loaded other branch now hop).beside ?_ (hmeta other _ hne hop) ?_
      · intro name hmem
        rw [ht]
        exact write_nameToId _ fun mine hmine heq => hnames name hmem mine hmine heq.symm
      · intro another spelled hspelled
        rw [ht] at hspelled
        have hspelled : (w.write naming own phase).metadata another = some spelled := hspelled
        rcases write_metadata hspelled with hold | ⟨-, rfl⟩
        · exact .inl hold
        · refine .inr fun name hmem heq => hnames name hmem spelled ?_ heq.symm
          exact List.mem_append_left _ (List.mem_singleton_self _)
  · intro one other p q hne hp hq
    obtain ⟨was, hw, hbranch, hsub⟩ := hwas one p hp
    obtain ⟨was', hw', hbranch', hsub'⟩ := hwas other q hq
    obtain ⟨hdiff, hnames⟩ := h.apart one other was was' hne hw hw'
    rw [hbranch, hbranch'] at hdiff
    exact ⟨hdiff, fun name hmem spelled hspelled =>
      hnames name (hsub hmem) spelled (hsub' hspelled)⟩

omit [DecidableEq κ] [DecidableEq ν] [DecidableEq ι] [DecidableEq τ] in
theorem Beside.symm {p q : ι × NamePhase ν ι} (h : w.Beside naming p q) : w.Beside naming q p :=
  ⟨h.1.symm, fun name hmem spelled hspelled heq => h.2 spelled hspelled name hmem heq.symm⟩

omit [DecidableEq κ] [DecidableEq ν] [DecidableEq ι] in
theorem Inv.begin (h : w.Inv naming) {task : τ} (hapart : w.Apart naming branch phase)
    (hl : w.Loaded naming branch phase) (hb : w.begin task branch phase = some t) :
    t.Inv naming := by
  obtain ⟨-, hb⟩ := ite_none_left_eq_some.mp hb
  cases hb
  refine ⟨h.mapped, h.spelled, ?_, ?_⟩
  · intro other own now hop
    rcases update_eq_some hop with ⟨rfl, heq⟩ | ⟨-, hop⟩
    · cases heq
      exact hl
    · exact h.loaded other own now hop
  · intro one other p q hne hp hq
    rcases update_eq_some hp with ⟨hfirst, rfl⟩ | ⟨-, hwas⟩
    · rcases update_eq_some hq with ⟨hsecond, -⟩ | ⟨-, hbeside⟩
      · exact absurd (hfirst.trans hsecond.symm) hne
      · exact Beside.symm (hapart other q hbeside)
    · rcases update_eq_some hq with ⟨-, rfl⟩ | ⟨-, hbeside⟩
      · exact hapart one p hwas
      · exact h.apart one other p q hne hwas hbeside

theorem Inv.step (h : w.Inv naming) (hg : w.Undisturbed naming action)
    (hst : w.step naming action = some t) : t.Inv naming := by
  cases action with
  | create task branch name => exact h.begin hg.1 hg.2 hst
  | delete task branch | push task branch => exact h.begin hg trivial hst
  | advance task patches =>
    obtain ⟨⟨own, phase⟩, hp, hst⟩ := bind_eq_some_iff.mp hst
    exact h.advance hp (some.inj hst).symm
  | fail task =>
    cases hst
    have hold : ∀ other operation, update w.operations task none other = some operation →
        w.operations other = some operation := by
      intro other operation hop
      by_cases hne : other = task
      · subst hne
        cases (update_self ..).symm.trans hop
      · exact (update_of_ne hne ..).symm.trans hop
    exact ⟨h.mapped, h.spelled, fun other own now hop => h.loaded other own now (hold _ _ hop),
      fun one other p q hne hp hq => h.apart one other p q hne (hold _ _ hp) (hold _ _ hq)⟩
  | setLatest branch stored =>
    cases hst
    exact ⟨h.mapped, h.spelled, h.loaded, h.apart⟩

end Names

open Names

/-- A creation from its start to its answer. -/
def creates {ν ι τ : Type} (task : τ) (branch : ι) (name : ν) : List (NameAction ν ι τ) :=
  .create task branch name :: List.replicate 5 (.advance task false)

/-- The actions of two tasks in turns. -/
def inTurns {ν ι τ : Type} (one other : List (NameAction ν ι τ)) : List (NameAction ν ι τ) :=
  (one.zip other).flatMap fun (a, b) => [a, b]

/-- Names of one spelling that spell no id. -/
def plainNames : Naming Nat Nat (Fin 3) := ⟨id, fun _ => 0, fun _ => none⟩

/-- Two branches are made at a time, then one is deleted while the other is pushed to, and a third
is made with the name that is free again. -/
def madeBeside : List (NameAction Nat (Fin 3) Bool) :=
  inTurns (creates false 0 0) (creates true 1 1) ++
    inTurns (.delete false 0 :: List.replicate 3 (.advance false false))
      [.push true 1, .advance true false, .advance true false, .setLatest 1 true] ++
    creates false 2 0

end Lore.Push
