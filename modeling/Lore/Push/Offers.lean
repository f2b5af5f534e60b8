import Lore.Push.HeadMoves

/-!
# Offers — pushes of one branch, one after another

A push (`push_loaded`) from its first read to its answer while nobody else pushes, so that the
first swap of the head is the last; with `force`, which the interleaved model leaves out. It
renumbers and merges as that model does. `Pushed` says all that a push can do.
-/

namespace Lore.Push

open Lore.Lib Lore.Storage List Option

/-- What a client asks for. -/
structure Offer extends PushRequest where
  force : Bool

structure Server (κ : Type) where
  /-- the branch's latest pointer, zero when it has none -/
  head : Hash
  store : StateStore κ

variable {κ : Type}

/-- `decide_head_move`. -/
def Offer.decideHeadMove (offer : Offer) (current : Hash) (state : State κ) :
    Except Unit (Option HeadMove) :=
  if offer.force then .ok (some .store)
  else Push.decideHeadMove current state offer.fastForwardMerge

/-- `store_new_head` or `try_fast_forward_merge`, with their swaps won. -/
def PushEnv.moveHead (env : PushEnv κ) (s : Server κ) (latest : Hash) (incoming : State κ)
    (parents : VerifiedParents κ) : HeadMove → Option (Server κ × HeadUpdate)
  | .store =>
    match env.renumber s.store latest s.head incoming parents with
    | (store, .storing _ stored newHead) =>
      some (⟨newHead, store⟩, ⟨true, false, newHead, stored.revisionNumber⟩)
    | _ => none
  | .merge =>
    match env.merge s.store s.head incoming with
    | some (store, .swapping _ _ newRevision revisionNumber) =>
      some (⟨newRevision, store⟩, ⟨true, true, newRevision, revisionNumber⟩)
    | some (store, .answered (.ok update)) => some (⟨s.head, store⟩, update)
    | _ => none

/-- The push of a revision; `none` where it fails. -/
def PushEnv.push (env : PushEnv κ) (s : Server κ) (offer : Offer) :
    Option (Server κ × HeadUpdate) := do
  let incoming ← env.deserialize s.store offer.latest
  if isZero offer.latest then none
  else if s.head = offer.latest then
    return (s, ⟨true, false, s.head, incoming.revisionNumber⟩)
  else
    match offer.decideHeadMove s.head incoming with
    | .error _ => none
    | .ok none => return (s, HeadUpdate.declined s.head)
    | .ok (some headMove) =>
      let parent ← env.deserialize s.store incoming.parentSelf
      let other ← env.loadOtherParentState s.store incoming
      env.moveHead s offer.latest incoming ⟨parent, other⟩ headMove

/-- What a push did: it left the head, made the revision the head under the number its parents
give, or made a merge of it onto the head the head. -/
inductive Pushed (env : PushEnv κ) (s : Server κ) (offer : Offer) :
    Server κ → HeadUpdate → Prop
  | kept {update} (hmerged : update.fastForwardMerged = false)
      (hrevision : update.revision = s.head)
      (hnumber : update.revisionNumber ≠ 0 → s.head = offer.latest) : Pushed env s offer s update
  | stored {incoming parent other data store}
      (hincoming : LoadedAs env s.store offer.latest incoming)
      (hhead : offer.force = false → s.head = incoming.parentSelf)
      (hparent : env.deserialize s.store incoming.parentSelf = some parent)
      (hother : env.loadOtherParentState s.store incoming = some other)
      (hstore : s.store <+: store) (hmem : data ∈ store)
      (hself : data.parentSelf = incoming.parentSelf)
      (hparents : data.parentOther = incoming.parentOther)
      (hcontent : data.content = incoming.content ∨ data.content = env.save incoming.content)
      (hnumber : data.revisionNumber = nextRevisionNumber parent.revisionNumber
        (other.elim 0 (·.revisionNumber))) :
      Pushed env s offer ⟨env.hash data, store⟩
        ⟨true, false, env.hash data, data.revisionNumber⟩
  | merged {incoming parent content data}
      (hincoming : LoadedAs env s.store offer.latest incoming) (hforce : offer.force = false)
      (hhead : ¬isZero s.head) (hne : s.head ≠ incoming.parentSelf)
      (hcontent : env.mergeContent s.store incoming.parentSelf incoming s.head = some content)
      (hparent : env.deserialize s.store s.head = some parent)
      (hdata : data = env.saved ⟨s.head, offer.latest,
        nextRevisionNumber parent.revisionNumber incoming.revisionNumber, content⟩) :
      Pushed env s offer ⟨env.hash data, s.store ++ [data]⟩
        ⟨true, true, env.hash data, data.revisionNumber⟩

variable {env : PushEnv κ} {s t : Server κ} {offer : Offer} {update : HeadUpdate}
  {incoming : State κ} {latest : Hash}

theorem Offer.decideHeadMove_eq {headMove}
    (h : offer.decideHeadMove s.head incoming = .ok (some headMove)) :
    (headMove = .store ∧ (offer.force = false → s.head = incoming.parentSelf)) ∨
      headMove = .merge ∧ offer.force = false ∧ ¬isZero s.head ∧ s.head ≠ incoming.parentSelf := by
  simp only [Offer.decideHeadMove, Push.decideHeadMove] at h
  grind

theorem push_cases (h : env.push s offer = some (t, update)) : Pushed env s offer t update := by
  obtain ⟨incoming, hl, h⟩ := bind_eq_some_iff.mp h
  obtain ⟨hz, h⟩ := ite_none_left_eq_some.mp h
  have hi := (LoadedAs.of_deserialize hl).resolve_left hz
  split_ifs at h with hh
  · cases h
    exact .kept rfl rfl fun _ => hh
  split at h
  · cases h
  · cases h
    exact .kept rfl rfl (absurd rfl)
  rename_i headMove hm
  obtain ⟨parent, hp, h⟩ := bind_eq_some_iff.mp h
  obtain ⟨other, ho, h⟩ := bind_eq_some_iff.mp h
  rcases Offer.decideHeadMove_eq hm with ⟨rfl, hse⟩ | ⟨rfl, hf, hh, hne⟩
  · simp only [PushEnv.moveHead, PushEnv.renumber] at h
    split_ifs at h with hn
    · cases h
      exact .stored hi hse hp ho (prefix_append _ _)
        (mem_append_right _ (mem_singleton_self _)) rfl rfl (.inr rfl) rfl
    · obtain ⟨hmem, hha⟩ := mem_of_read hi.1
      have hst := Pushed.stored hi hse hp ho prefix_rfl hmem rfl rfl (.inl rfl) (not_not.mp hn)
      rw [hha] at hst
      cases h
      exact hst
  · simp only [PushEnv.moveHead, PushEnv.merge] at h
    cases hc : env.mergeContent s.store incoming.parentSelf incoming s.head with
    | none =>
      simp only [hc] at h
      cases h
      exact .kept rfl rfl (absurd rfl)
    | some content =>
      cases hcu : env.deserialize s.store s.head with
      | none => simp [hc, hcu] at h
      | some current =>
        simp only [hc, hcu] at h
        cases h
        exact .merged hi hf hh hne hc hcu (by rw [← hi.2])

theorem Pushed.store_isPrefix (h : Pushed env s offer t update) : s.store <+: t.store := by
  cases h with
  | kept => exact prefix_rfl
  | stored => assumption
  | merged => exact prefix_append _ _

end Lore.Push
