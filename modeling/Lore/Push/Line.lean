import Lore.Push.Offers

/-!
# Line — a line of revisions pushed onto a moved branch

The client's loop over its unpushed revisions (`push_local_history`), oldest first, with a
fast-forward merge asked for and nobody else pushing. Once the peer has answered, every later
revision is re-parented onto the answer and keeps the tree it had. So the peer merges the first
revision only: a later one is a child of the head, and is stored without what the head had from
the other side.
-/

namespace Lore.Push

open Lore.Lib Lore.Storage List Option

/-- The loop between two revisions: the peer, and its variables. -/
structure LinePush (κ : Type) where
  peer : Server κ
  remoteLatest : Hash
  /-- zero until the peer has answered -/
  currentLatest : Hash

variable {κ : Type}

/-- The revision that is offered: on the current latest, if there is one. -/
def PushEnv.rebase (env : PushEnv κ) (currentLatest : Hash) (data : StateData κ) : StateData κ :=
  if !isZero currentLatest && data.parentSelf ≠ currentLatest then
    env.saved { data with parentSelf := currentLatest }
  else data

/-- One round of the loop; `none` where the push ends with an error. -/
def PushEnv.pushRevision (env : PushEnv κ) (p : LinePush κ) (data : StateData κ) :
    Option (LinePush κ) :=
  let offered := env.rebase p.currentLatest data
  let currentRevision := env.hash offered
  let peer := { p.peer with store := p.peer.store ++ [offered] }
  if p.remoteLatest = currentRevision then some ⟨peer, p.remoteLatest, currentRevision⟩
  else do
    let (peer, response) ← env.push peer ⟨⟨currentRevision, true⟩, false⟩
    if !response.fastForwardMerged && response.revisionNumber = 0 then none
    else return ⟨peer, response.revision, response.revision⟩

/-- `push_local_history` of a line, the oldest revision first. -/
def PushEnv.pushLocalHistory (env : PushEnv κ) (p : LinePush κ) (line : List (StateData κ)) :
    Option (LinePush κ) := line.foldlM env.pushRevision p

variable {env : PushEnv κ} {p q : LinePush κ} {data : StateData κ} {α : Type} {tree : κ → α}

theorem pushRevision_cases (h : env.pushRevision p data = some q) :
    let offered := env.rebase p.currentLatest data
    let peer : Server κ := { p.peer with store := p.peer.store ++ [offered] }
    (p.remoteLatest = env.hash offered ∧ q = ⟨peer, p.remoteLatest, env.hash offered⟩) ∨
      p.remoteLatest ≠ env.hash offered ∧ ∃ update,
        Pushed env peer ⟨⟨env.hash offered, true⟩, false⟩ q.peer update ∧
        q.remoteLatest = update.revision ∧ q.currentLatest = update.revision ∧
        (update.fastForwardMerged = false → update.revisionNumber ≠ 0) := by
  simp only [PushEnv.pushRevision] at h
  split_ifs at h with hr
  · exact .inl ⟨hr, (some.inj h).symm⟩
  · obtain ⟨⟨peer, update⟩, hp, h⟩ := bind_eq_some_iff.mp h
    obtain ⟨ha, h⟩ := ite_none_left_eq_some.mp h
    cases h
    exact .inr ⟨hr, update, push_cases hp, rfl, rfl, by simpa using ha⟩

theorem pushRevision_isPrefix (h : env.pushRevision p data = some q) :
    p.peer.store ++ [env.rebase p.currentLatest data] <+: q.peer.store := by
  rcases pushRevision_cases h with ⟨-, rfl⟩ | ⟨-, update, hp, -⟩
  · exact prefix_rfl
  · exact hp.store_isPrefix

/-- The head is the loop's latest, and `t` is its tree. -/
structure LinePush.AtTree (env : PushEnv κ) (tree : κ → α) (p : LinePush κ) (t : α) : Prop where
  remote : p.remoteLatest = p.peer.head
  current : p.currentLatest = p.peer.head
  head : ∃ data ∈ p.peer.store, env.hash data = p.peer.head ∧ tree data.content = t

section Round

variable (hsave : ∀ content, tree (env.save content) = tree content)
  (h : env.pushRevision p data = some q) (hfree : CollisionFree env q.peer.store)
include hsave h hfree

/-- Where the head has come to: to the revision offered, if it was that or its parent, or to a
merge of it. -/
theorem pushRevision_atTree (hr : p.remoteLatest = p.peer.head) :
    let offered := env.rebase p.currentLatest data
    ∃ t, q.AtTree env tree t ∧
      ((p.peer.head = env.hash offered ∨ p.peer.head = offered.parentSelf) ∧
          t = tree offered.content ∨
        p.peer.head ≠ offered.parentSelf ∧ ∃ state content, state.content = offered.content ∧
          env.mergeContent (p.peer.store ++ [offered]) offered.parentSelf state p.peer.head =
            some content ∧ t = tree content) := by
  intro offered
  have hsto := pushRevision_isPrefix h
  have hmem : offered ∈ p.peer.store ++ [offered] := by simp
  rcases pushRevision_cases h with ⟨hsa, rfl⟩ | ⟨hnew, update, hp, hq, hq', hn⟩
  · exact ⟨_, ⟨hr, hsa.symm.trans hr, offered, hmem, hsa ▸ hr, rfl⟩, .inl ⟨.inl (hr ▸ hsa), rfl⟩⟩
  -- What the peer loads is what was offered.
  have hre : env.read (p.peer.store ++ [offered]) (env.hash offered) = some offered :=
    read_of_mem (hfree.isPrefix hsto) hmem
  obtain ⟨peer, remoteLatest, currentLatest⟩ := q
  obtain ⟨rfl, rfl⟩ : remoteLatest = update.revision ∧ currentLatest = update.revision := ⟨hq, hq'⟩
  cases hp with
  | kept hm _ hl =>
    exact absurd (hr.trans (hl (hn hm))) hnew
  | @stored incoming _ _ stored _ hi hh _ _ _ hst _ _ hc _ =>
    obtain ho : offered = incoming.toStateData := some.inj (hre.symm.trans hi.1)
    refine ⟨_, ⟨rfl, rfl, stored, hst, rfl, ?_⟩, .inl ⟨.inr (ho ▸ hh rfl), rfl⟩⟩
    rw [ho]
    rcases hc with hc | hc <;> simp [hc, hsave]
  | @merged incoming _ content merged hi _ _ hne hc _ hd =>
    obtain ho : offered = incoming.toStateData := some.inj (hre.symm.trans hi.1)
    have hse : offered.parentSelf = incoming.parentSelf := by rw [ho]
    refine ⟨_, ⟨rfl, rfl, merged, by simp, rfl, ?_⟩,
      .inr ⟨hse ▸ hne, incoming, content, by rw [ho], hse ▸ hc, rfl⟩⟩
    rw [hd]
    exact hsave content

theorem pushRevision_merges {merge : α → α} (hcu : isZero p.currentLatest)
    (hr : p.remoteLatest = p.peer.head) (hmo : p.peer.head ≠ data.parentSelf)
    (hnew : p.peer.head ≠ env.hash data)
    (hm : ∀ state content, env.mergeContent (p.peer.store ++ [data]) data.parentSelf state
      p.peer.head = some content → tree content = merge (tree state.content)) :
    q.AtTree env tree (merge (tree data.content)) := by
  have ho : env.rebase p.currentLatest data = data := by simp [PushEnv.rebase, hcu]
  obtain ⟨t, hq, ⟨hh, -⟩ | ⟨-, state, content, hst, hc, rfl⟩⟩ :=
    pushRevision_atTree hsave h hfree hr
  · rw [ho] at hh
    exact absurd hh (not_or.mpr ⟨hnew, hmo⟩)
  · rw [ho] at hst hc
    rwa [hm state content hc, hst] at hq

theorem pushRevision_stores {t : α} (hp : p.AtTree env tree t) (hz : ¬isZero p.peer.head) :
    q.AtTree env tree (tree data.content) := by
  have ho : (env.rebase p.currentLatest data).parentSelf = p.peer.head ∧
      tree (env.rebase p.currentLatest data).content = tree data.content := by
    rw [PushEnv.rebase, hp.current]
    split_ifs with hpa
    · exact ⟨rfl, hsave _⟩
    · exact ⟨by simpa [hz] using hpa, rfl⟩
  obtain ⟨t, hq, ⟨-, rfl⟩ | ⟨hne, -⟩⟩ := pushRevision_atTree hsave h hfree hp.remote
  · rwa [ho.2] at hq
  · exact absurd ho.1.symm hne

end Round

theorem pushLocalHistory_isPrefix {line} (h : env.pushLocalHistory p line = some q) :
    p.peer.store <+: q.peer.store := by
  induction line generalizing p with
  | nil =>
    cases h
    exact prefix_rfl
  | cons data line ih =>
    obtain ⟨next, hn, h⟩ := bind_eq_some_iff.mp h
    exact ((prefix_append _ _).trans (pushRevision_isPrefix hn)).trans (ih h)

/-- The rest of a line: the head has the last revision's tree, or the one it had. -/
theorem pushLocalHistory_stores {line t} (hsave : ∀ content, tree (env.save content) = tree content)
    (hz : ∀ data, ¬isZero (env.hash data)) (hp : p.AtTree env tree t)
    (h : env.pushLocalHistory p line = some q) (hfree : CollisionFree env q.peer.store) :
    q.AtTree env tree (line.getLast?.elim t (tree ·.content)) := by
  induction line generalizing p t with
  | nil =>
    cases h
    exact hp
  | cons data line ih =>
    obtain ⟨next, hn, h⟩ := bind_eq_some_iff.mp h
    have hsto := pushLocalHistory_isPrefix h
    obtain ⟨head, -, hh, -⟩ := hp.head
    have hst := pushRevision_stores hsave hn (hfree.isPrefix hsto) hp (hh ▸ hz head)
    have hr := ih hst h
    cases line with
    | nil => exact hr
    | cons => simpa [getLast?_cons] using hr

/-- The tree of the head after a push of a line onto a moved branch is the merge of the local
latest with the head it found, just when the line is of one revision or the local latest has that
tree itself. -/
theorem pushed_line_merged_iff (env : PushEnv κ) (tree : κ → α) (merge : α → α)
    {first last : StateData κ} {rest : List (StateData κ)}
    (hsave : ∀ content, tree (env.save content) = tree content)
    (hzero : ∀ data, ¬isZero (env.hash data)) (hcurrent : isZero p.currentLatest)
    (hremote : p.remoteLatest = p.peer.head) (hmoved : p.peer.head ≠ first.parentSelf)
    (hnew : p.peer.head ≠ env.hash first)
    (hmerge : ∀ state content, env.mergeContent (p.peer.store ++ [first]) first.parentSelf state
      p.peer.head = some content → tree content = merge (tree state.content))
    (hlast : (first :: rest).getLast? = some last)
    (hpush : env.pushLocalHistory p (first :: rest) = some q)
    (hfree : CollisionFree env q.peer.store) :
    ∃ head, env.read q.peer.store q.peer.head = some head ∧
      (tree head.content = merge (tree last.content) ↔
        rest = [] ∨ tree last.content = merge (tree last.content)) := by
  obtain ⟨next, hn, hr⟩ := bind_eq_some_iff.mp hpush
  have hst := pushLocalHistory_isPrefix hr
  have hm := pushRevision_merges hsave hn (hfree.isPrefix hst) hcurrent hremote hmoved hnew hmerge
  obtain ⟨head, hmem, hh, ht⟩ := (pushLocalHistory_stores hsave hzero hm hr hfree).head
  refine ⟨head, hh ▸ read_of_mem hfree hmem, ?_⟩
  rw [ht]
  cases rest with
  | nil =>
    cases hlast
    simp
  | cons second rest =>
    rw [getLast?_cons_cons] at hlast
    simp [hlast]

/-! ## Two files, one changed on each side -/

def lineHash (data : StateData (Bool × Bool)) : Hash :=
  BitVec.ofNat 256 (data.revisionNumber.toNat * 4 + data.content.1.toNat * 2 + data.content.2.toNat + 1)

def mergeFile (base source target : Bool) : Bool := if source = base then target else source

def lineEnv : PushEnv (Bool × Bool) where
  hash := lineHash
  emptyContent := (false, false)
  save := id
  mergeContent store base source target := do
    let base ← store.find? (lineHash · = base)
    let target ← store.find? (lineHash · = target)
    return (mergeFile base.content.1 source.content.1 target.content.1,
      mergeFile base.content.2 source.content.2 target.content.2)

theorem lineHash_ne_zero (data : StateData (Bool × Bool)) : ¬isZero (lineHash data) := by
  have hn := data.revisionNumber.toNat_lt
  have hf := data.content.1.toNat_le
  have hse := data.content.2.toNat_le
  simp only [isZero, beq_iff_eq, lineHash, ← BitVec.toNat_inj, BitVec.toNat_ofNat]
  omega

/-- The branch point and the head above it, which changed the first file. -/
def movedBranch : LinePush (Bool × Bool) :=
  ⟨⟨11, [⟨0, 0, 1, (false, false)⟩, ⟨5, 0, 2, (true, false)⟩]⟩, 11, 0⟩

theorem pushed_line_merged_one : ∃ q head,
    lineEnv.pushLocalHistory movedBranch [⟨5, 0, 2, (false, true)⟩] = some q ∧
      lineEnv.read q.peer.store q.peer.head = some head ∧ head.content = (true, true) := by
  obtain ⟨q, hp, hfree⟩ : ∃ q, lineEnv.pushLocalHistory movedBranch
      [⟨5, 0, 2, (false, true)⟩] = some q ∧ CollisionFree lineEnv q.peer.store :=
    ⟨_, rfl, by unfold CollisionFree; decide⟩
  obtain ⟨head, hr, hiff⟩ := pushed_line_merged_iff lineEnv id
    (fun content => (mergeFile false content.1 true, mergeFile false content.2 false))
    (fun _ => rfl) lineHash_ne_zero rfl rfl (by decide) (by decide)
    (by rintro state content ⟨⟩; rfl) rfl hp hfree
  exact ⟨q, head, hp, hr, hiff.mpr (.inl rfl)⟩

/-- Of a line of two that changed the second file, the merge with the head has both changes, and
the pushed head has lost the first. -/
theorem pushed_line_drops_head_change : ∃ q head,
    lineEnv.pushLocalHistory movedBranch [⟨5, 0, 2, (false, true)⟩, ⟨10, 0, 3, (false, true)⟩] =
        some q ∧ CollisionFree lineEnv q.peer.store ∧
      lineEnv.read q.peer.store q.peer.head = some head ∧ head.content = (false, true) ∧
      lineEnv.mergeContent q.peer.store 5 ⟨⟨10, 0, 3, (false, true)⟩, 14⟩ 11 =
        some (true, true) := by
  refine ⟨_, _, rfl, ?_, rfl, rfl, rfl⟩
  unfold CollisionFree
  decide

end Lore.Push
