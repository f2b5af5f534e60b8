import Mathlib.Logic.Relation
import Lore.Push.BranchPush

/-!
# HeadMoves — no pushed revision is lost

Whatever the interleaving, the head moves from parent to child, so a revision reachable from
the head once stays reachable. What a task knows while it waits is therefore stated so that it
survives any move of the head (`PhaseHolds`), and one inversion of a step (`Moves`) says what a
push can do to the head, to the store and to its own phase.
-/

namespace Lore.Push

open Lore.Lib Lore.Storage List Option

variable {κ τ : Type} (env : PushEnv κ)

variable (store : StateStore κ)

/-- No two of the stored states have one hash. -/
def CollisionFree : Prop := ∀ s ∈ store, ∀ t ∈ store, env.hash s = env.hash t → s = t

/-- The store reads `revision` as a state with `parent` as its first or second parent. -/
def ParentOf (revision parent : Hash) : Prop :=
  ∃ s, env.read store revision = some s ∧ (parent = s.parentSelf ∨ parent = s.parentOther)

/-- `revision` is reached from `head` over first and second parents. -/
def Reachable : Hash → Hash → Prop := Relation.ReflTransGen (ParentOf env store)

/-- `revision` is the one pushed as `latest`, or the server's rewrite of its state under
another number. -/
def PushedAs (latest revision : Hash) : Prop :=
  revision = latest ∨ ∃ s number, env.read store latest = some s ∧
    revision = env.hash (env.saved { s with revisionNumber := number })

/-! ## Reaching a revision over the states that were put -/

/-- As `ParentOf`, of any stored state with the hash. -/
def ParentIn (revision parent : Hash) : Prop :=
  ∃ s ∈ store, env.hash s = revision ∧ (parent = s.parentSelf ∨ parent = s.parentOther)

def Reaches : Hash → Hash → Prop := Relation.ReflTransGen (ParentIn env store)

variable {env} {store store' : StateStore κ} {head head' latest revision : Hash}

theorem mem_of_read {s} (h : env.read store revision = some s) :
    s ∈ store ∧ env.hash s = revision := ⟨mem_of_find?_eq_some h, by simpa using find?_some h⟩

theorem read_of_mem (hf : CollisionFree env store) {s} (hs : s ∈ store) :
    env.read store (env.hash s) = some s := by
  obtain ⟨t, ht⟩ : ∃ t, env.read store (env.hash s) = some t := by
    rw [← isSome_iff_exists, PushEnv.read, find?_isSome]
    exact ⟨s, hs, by simp⟩
  obtain ⟨hmem, hh⟩ := mem_of_read ht
  rw [ht, hf t hmem s hs hh]

theorem read_of_isPrefix {s} (h : store <+: store') (hr : env.read store revision = some s) :
    env.read store' revision = some s := by
  obtain ⟨rest, rfl⟩ := h
  rw [PushEnv.read] at hr ⊢
  rw [find?_append, hr, some_or]

theorem CollisionFree.isPrefix (hf : CollisionFree env store') (h : store <+: store') :
    CollisionFree env store := fun s hs t ht => hf s (h.subset hs) t (h.subset ht)

theorem Reaches.isPrefix (h : store <+: store') (hr : Reaches env store head revision) :
    Reaches env store' head revision :=
  Relation.ReflTransGen.mono
    (fun _ _ ⟨s, hs, hh, hp⟩ => ⟨s, h.subset hs, hh, hp⟩) _ _ hr

theorem Reaches.reachable (hf : CollisionFree env store)
    (hr : Reaches env store head revision) : Reachable env store head revision := by
  refine Relation.ReflTransGen.mono ?_ _ _ hr
  rintro _ parent ⟨s, hs, rfl, hp⟩
  exact ⟨s, read_of_mem hf hs, hp⟩

theorem PushedAs.isPrefix (h : store <+: store') (hp : PushedAs env store latest revision) :
    PushedAs env store' latest revision := by
  rcases hp with hp | ⟨s, number, hr, hp⟩
  · exact .inl hp
  · exact .inr ⟨s, number, read_of_isPrefix h hr, hp⟩

/-! ## What a task knows in each phase -/

/-- The pushed revision of a task is reachable from the head. -/
def Kept (env : PushEnv κ) (store : StateStore κ) (head latest : Hash) : Prop :=
  ∃ revision, PushedAs env store latest revision ∧ Reaches env store head revision

/-- `state` is what the store reads at `latest`. -/
def LoadedAs (env : PushEnv κ) (store : StateStore κ) (latest : Hash) (state : State κ) : Prop :=
  env.read store latest = some state.toStateData ∧ state.signature = latest

/-- What holds of a task's values in a phase, whatever the other tasks do. -/
def PhaseHolds (env : PushEnv κ) (store : StateStore κ) (head latest : Hash) :
    Phase κ → Prop
  | .loading read incoming =>
    (∀ seen ∈ read, isZero seen ∨ Reaches env store head seen) ∧
      ∀ state ∈ incoming, isZero latest ∨ LoadedAs env store latest state
  | .verifying headMove current incoming =>
    LoadedAs env store latest incoming ∧ (headMove = .store → current = incoming.parentSelf)
  | .committing current incoming _ =>
    LoadedAs env store latest incoming ∧ current = incoming.parentSelf
  | .storing current incoming newHead =>
    current = incoming.parentSelf ∧ newHead = incoming.signature ∧
      incoming.toStateData ∈ store ∧ env.hash incoming.toStateData = newHead ∧
      PushedAs env store latest incoming.signature
  | .merging _ incoming => PushedAs env store latest incoming.signature
  | .swapping current incoming newRevision _ =>
    PushedAs env store latest incoming.signature ∧
      ∃ s ∈ store, env.hash s = newRevision ∧ s.parentSelf = current ∧
        s.parentOther = incoming.signature
  | .moved update => update.success = true ∧ Kept env store head latest
  | .answered (.ok update) => update.success = true → Kept env store head latest
  | .answered (.error _) => True

/-- The head is swapped, and the answer is a success or lost. -/
def Phase.HasMoved : Phase κ → Prop
  | .moved update | .answered (.ok update) => update.success = true
  | .answered (.error _) => True
  | _ => False

/-- A step on: nothing is lost from the store, and the old head is reachable from the new. -/
structure Advances (env : PushEnv κ) (w v : World τ κ) : Prop where
  store : w.store <+: v.store
  head : Reaches env v.store v.head w.head

theorem Advances.refl (w : World τ κ) : Advances env w w := ⟨prefix_rfl, .refl⟩

theorem Advances.trans {w v u : World τ κ} (h : Advances env w v) (h' : Advances env v u) :
    Advances env w u := ⟨h.store.trans h'.store, h'.head.trans (h.head.isPrefix h'.store)⟩

section Advance

variable (hstore : store <+: store') (hhead : Reaches env store' head' head)
include hstore

theorem LoadedAs.isPrefix {state} (h : LoadedAs env store latest state) :
    LoadedAs env store' latest state := ⟨read_of_isPrefix hstore h.1, h.2⟩

include hhead

theorem Kept.advance (h : Kept env store head latest) : Kept env store' head' latest := by
  obtain ⟨revision, hp, hr⟩ := h
  exact ⟨revision, hp.isPrefix hstore, hhead.trans (hr.isPrefix hstore)⟩

theorem PhaseHolds.advance {phase} (h : PhaseHolds env store head latest phase) :
    PhaseHolds env store' head' latest phase := by
  cases phase with
  | loading read incoming =>
    refine ⟨fun seen hse => ?_, fun state hst => ?_⟩
    · exact (h.1 seen hse).imp_right fun hr => hhead.trans (hr.isPrefix hstore)
    · exact (h.2 state hst).imp_right (LoadedAs.isPrefix hstore)
  | verifying headMove current incoming | committing current incoming parents =>
    exact ⟨h.1.isPrefix hstore, h.2⟩
  | storing current incoming newHead =>
    obtain ⟨hc, hnew, hmem, hh, hp⟩ := h
    exact ⟨hc, hnew, hstore.subset hmem, hh, hp.isPrefix hstore⟩
  | merging current incoming => exact PushedAs.isPrefix hstore h
  | swapping current incoming newRevision number =>
    obtain ⟨hp, s, hs, hre⟩ := h
    exact ⟨hp.isPrefix hstore, s, hstore.subset hs, hre⟩
  | moved update => exact ⟨h.1, h.2.advance hstore hhead⟩
  | answered result =>
    cases result with
    | ok update => exact fun hsu => (h hsu).advance hstore hhead
    | error _ => trivial

end Advance

/-! ## What the functions of the push keep -/

variable {request : PushRequest} {incoming : State κ} {current previousHead newHead : Hash}

theorem LoadedAs.of_deserialize {state} (h : env.deserialize store latest = some state) :
    isZero latest ∨ LoadedAs env store latest state := by
  rw [PushEnv.deserialize] at h
  split at h
  · exact .inl ‹_›
  · obtain ⟨data, hr, rfl⟩ := map_eq_some_iff.mp h
    exact .inr ⟨hr, rfl⟩

theorem decideHeadMove_store {ff} (h : decideHeadMove current incoming ff = .ok (some .store)) :
    current = incoming.parentSelf := by
  by_contra hne
  simp only [decideHeadMove] at h
  split_ifs at h <;> cases h

theorem preparePush_holds {seen} (hse : isZero seen ∨ Reaches env store head seen)
    (hi : isZero request.latest ∨ LoadedAs env store request.latest incoming) :
    PhaseHolds env store head request.latest (preparePush request seen incoming) := by
  unfold preparePush
  split_ifs with hz hn
  · trivial
  · -- the head was the pushed revision when it was read
    exact fun _ => ⟨seen, .inl hn, hse.resolve_left (hn ▸ hz)⟩
  · split
    · trivial
    · exact fun h => nomatch h
    · rename_i headMove hm
      refine ⟨hi.resolve_left hz, fun hstore => ?_⟩
      exact decideHeadMove_store (hstore ▸ hm)

theorem afterVerify_holds {headMove parents}
    (h : PhaseHolds env store head latest (.verifying headMove current incoming)) :
    PhaseHolds env store head latest (afterVerify headMove current incoming parents) := by
  cases headMove with
  | store => exact ⟨h.1, h.2 rfl⟩
  | merge => exact .inl h.1.2

theorem renumber_holds {parents}
    (h : PhaseHolds env store head latest (.committing current incoming parents)) :
    store <+: (env.renumber store latest current incoming parents).1 ∧
      PhaseHolds env (env.renumber store latest current incoming parents).1 head latest
        (env.renumber store latest current incoming parents).2 := by
  obtain ⟨⟨hr, hsi⟩, hc⟩ := h
  simp only [PushEnv.renumber, PushEnv.serialize]
  split_ifs
  · have hg := prefix_append store
    exact ⟨hg _, hc, rfl, by simp, rfl,
      .inr ⟨_, _, read_of_isPrefix (hg _) hr, rfl⟩⟩
  · obtain ⟨hmem, hh⟩ := mem_of_read hr
    exact ⟨prefix_rfl, hc, hsi.symm, hmem, hh, .inl hsi⟩

theorem afterSwap_holds {ff} (hl : previousHead ≠ current)
    (h : PhaseHolds env store head latest (.storing current incoming newHead)) :
    PhaseHolds env store head latest (afterSwap ff current previousHead incoming newHead) := by
  rw [afterSwap, if_neg hl]
  split
  · trivial
  · exact ⟨decideHeadMove_store ‹_›, h.2⟩
  · exact fun h => nomatch h
  · exact h.2.2.2.2

theorem merge_holds {phase} (h : PhaseHolds env store head latest (.merging current incoming))
    (hm : env.merge store current incoming = some (store', phase)) :
    store <+: store' ∧ PhaseHolds env store' head latest phase := by
  rw [PushEnv.merge] at hm
  split at hm
  · cases hm
    exact ⟨prefix_rfl, fun h => nomatch h⟩
  · obtain ⟨parent, -, hm⟩ := bind_eq_some_iff.mp hm
    cases hm
    have hg := prefix_append store
    exact ⟨hg _, PushedAs.isPrefix (hg _) h, _, by simp, rfl, rfl, rfl⟩

/-! ## What one step can do -/

/-- What a step of a push did: it added states and went on, or it moved the head to a stored
child of it. -/
inductive Moves (env : PushEnv κ) (latest head : Hash) (store : StateStore κ) (phase : Phase κ) :
    Hash × StateStore κ × Phase κ → Prop
  | goes {store' phase'} (hstore : store <+: store')
      (hholds : PhaseHolds env store' head latest phase')
      (hmoved : phase.HasMoved → phase'.HasMoved) :
      Moves env latest head store phase (head, store', phase')
  | moves {s update} (hs : s ∈ store) (hparent : s.parentSelf = head)
      (hsuccess : update.success = true) (hkept : Kept env store (env.hash s) latest) :
      Moves env latest head store phase (env.hash s, store, .moved update)

theorem act_moves {phase action result} (h : PhaseHolds env store head request.latest phase)
    (hact : env.act request head store phase action = some result) :
    Moves env request.latest head store phase result := by
  have hre : store <+: store := prefix_rfl
  unfold PushEnv.act at hact
  split at hact
  case h_1 incoming readable =>
    cases hact
    refine .goes hre ⟨?_, h.2⟩ nofun
    rintro seen ⟨⟩
    cases readable with
    | true => exact .inr .refl
    | false => exact .inl rfl
  case h_2 read =>
    obtain ⟨state, hl, hact⟩ := bind_eq_some_iff.mp hact
    cases hact
    refine .goes hre ⟨h.1, ?_⟩ nofun
    rintro _ ⟨⟩
    exact LoadedAs.of_deserialize hl
  case h_3 read incoming =>
    cases hact
    exact .goes hre (preparePush_holds (h.1 _ rfl) (h.2 _ rfl)) nofun
  case h_4 headMove read incoming =>
    obtain ⟨parent, -, hact⟩ := bind_eq_some_iff.mp hact
    obtain ⟨other, -, hact⟩ := bind_eq_some_iff.mp hact
    cases hact
    exact .goes hre (afterVerify_holds h) nofun
  case h_5 current incoming parents =>
    cases hact
    obtain ⟨hstore, hr⟩ := renumber_holds h
    exact .goes hstore hr nofun
  case h_6 current incoming newHead =>
    by_cases hsw : head = current
    · obtain ⟨hc, hnew, hmem, rfl, hp⟩ := h
      simp only [tryStoreLatest, if_pos hsw, afterSwap] at hact
      cases hact
      exact .moves hmem (hc.symm.trans hsw.symm) rfl ⟨_, hnew ▸ hp, .refl⟩
    · simp only [tryStoreLatest, if_neg hsw] at hact
      cases hact
      exact .goes hre (afterSwap_holds hsw h) nofun
  case h_7 current incoming =>
    obtain ⟨⟨store', phase'⟩, hme, hact⟩ := bind_eq_some_iff.mp hact
    cases hact
    obtain ⟨hstore, hm⟩ := merge_holds h hme
    exact .goes hstore hm nofun
  case h_8 current incoming newRevision number =>
    obtain ⟨hp, s, hs, rfl, hse, ho⟩ := h
    by_cases hsw : head = current
    · simp only [tryStoreLatest, if_pos hsw, afterSwapMerged] at hact
      cases hact
      exact .moves hs (hse.trans hsw.symm) rfl ⟨_, hp, .single ⟨s, hs, rfl, .inr ho.symm⟩⟩
    · simp only [tryStoreLatest, if_neg hsw, afterSwapMerged] at hact
      cases hact
      exact .goes hre hp nofun
  case h_9 update =>
    cases hact
    exact .goes hre (fun _ => h.2) fun _ => h.1
  case h_11 =>
    cases hact
    exact .goes hre trivial fun _ => trivial
  all_goals cases hact

section Steps

variable [DecidableEq τ] {requests : τ → PushRequest} {w v : World τ κ} {task : τ}
  {action : Action τ κ} {actions : List (Action τ κ)}

/-- Every task's values are what its phase says. -/
def Holds (env : PushEnv κ) (requests : τ → PushRequest) (w : World τ κ) : Prop :=
  ∀ task, PhaseHolds env w.store w.head (requests task).latest (w.phase task)

section

variable (hw : Holds env requests w) (hstep : step env requests w action = some v)
include hw hstep

theorem step_cases :
    (∃ data, action = .upload data ∧ v = { w with store := w.store ++ [data] }) ∨
      ∃ task push head store phase, action = .act task push ∧
        v = ⟨head, store, Function.update w.phase task phase⟩ ∧
        Moves env (requests task).latest w.head w.store (w.phase task) (head, store, phase) := by
  cases action with
  | upload data =>
    cases hstep
    exact .inl ⟨data, rfl, rfl⟩
  | act task push =>
    obtain ⟨⟨head, store, phase⟩, hact, hstep⟩ := bind_eq_some_iff.mp hstep
    cases hstep
    exact .inr ⟨task, push, head, store, phase, rfl, rfl, act_moves (hw task) hact⟩

theorem step_advances : Advances env w v := by
  rcases step_cases hw hstep with ⟨data, rfl, rfl⟩ | ⟨task, push, head, store, phase, rfl, rfl, h⟩
  · exact ⟨prefix_append _ _, .refl⟩
  · cases h with
    | goes hstore hh hm => exact ⟨hstore, .refl⟩
    | moves hs hp hsu hk =>
      exact ⟨prefix_rfl, .single ⟨_, hs, rfl, .inl hp.symm⟩⟩

theorem step_holds : Holds env requests v := by
  have ha := step_advances hw hstep
  intro other
  -- the phases of the tasks that did not act hold on as the world advances
  have hk := (hw other).advance ha.store ha.head
  rcases step_cases hw hstep with ⟨data, rfl, rfl⟩ | ⟨task, push, head, store, phase, rfl, rfl, h⟩
  · exact hk
  · by_cases ho : other = task
    · subst ho
      cases h with
      | goes hstore hh hm => simpa using hh
      | moves hs hp hsu hke =>
        simpa using show PhaseHolds _ _ _ _ (.moved _) from ⟨hsu, hke⟩
    · simpa [ho] using hk

theorem step_hasMoved (hm : (w.phase task).HasMoved) : (v.phase task).HasMoved := by
  rcases step_cases hw hstep with ⟨data, rfl, rfl⟩ | ⟨mover, push, head, store, phase, rfl, rfl, h⟩
  · exact hm
  · by_cases ht : task = mover
    · subst ht
      cases h with
      | goes hstore hh hk => simpa using hk hm
      | moves hs hp hsu hke => simpa [Phase.HasMoved] using hsu
    · simpa [ht] using hm

/-- An action that changes the head moved it to a stored child of it, and its task is past its
swap. -/
theorem step_child (hne : v.head ≠ w.head) :
    (∃ s ∈ v.store, env.hash s = v.head ∧ s.parentSelf = w.head) ∧
      ∀ task push, action = .act task push → (v.phase task).HasMoved := by
  rcases step_cases hw hstep with ⟨data, rfl, rfl⟩ | ⟨mover, push, head, store, phase, rfl, rfl, h⟩
  · exact absurd rfl hne
  · cases h with
    | goes hstore hh hm => exact absurd rfl hne
    | moves hs hp hsu hk =>
      refine ⟨⟨_, hs, rfl, hp⟩, ?_⟩
      rintro task _ ⟨⟩
      simpa [Phase.HasMoved] using hsu

end

/-! ## Runs -/

/-- No push has begun. -/
def Started (w : World τ κ) : Prop := ∀ task, w.phase task = .loading none none

omit [DecidableEq τ] in
theorem Started.holds (h : Started w) : Holds env requests w := by
  intro task
  rw [h task]
  exact ⟨nofun, nofun⟩

theorem run_holds (hw : Holds env requests w) (hrun : run (step env requests) w actions = some v) :
    Holds env requests v := run_invariant _ (fun _ _ _ => step_holds) hw hrun

theorem run_advances (hw : Holds env requests w)
    (hrun : run (step env requests) w actions = some v) : Advances env w v := by
  refine (@run_invariant _ _ _ (fun u => Holds env requests u ∧ Advances env w u) ?_ _ _ _
    ⟨hw, .refl w⟩ hrun).2
  rintro s action t ⟨hs, ha⟩ hstep
  exact ⟨step_holds hs hstep, ha.trans (step_advances hs hstep)⟩

theorem run_hasMoved (hw : Holds env requests w) (hm : (w.phase task).HasMoved)
    (hrun : run (step env requests) w actions = some v) : (v.phase task).HasMoved := by
  refine (@run_invariant _ _ _ (fun u => Holds env requests u ∧ (u.phase task).HasMoved) ?_ _ _ _
    ⟨hw, hm⟩ hrun).2
  rintro s action t ⟨hs, hm⟩ hstep
  exact ⟨step_holds hs hstep, step_hasMoved hs hstep hm⟩

/-- Pushes lose no revision, however they interleave. A push that was answered with success has
its revision, or the server's rewrite of it, reachable from the head in every later state; an
action moves the head only to a revision whose first parent is the head it replaces; and a push
one of whose actions moved the head is not answered as declined. -/
theorem pushes_lose_no_revision (env : PushEnv κ) (requests : τ → PushRequest)
    {start w : World τ κ} {actions : List (Action τ κ)} (hstart : Started start)
    (hrun : run (step env requests) start actions = some w) :
    (∀ task update, w.phase task = .answered (.ok update) → update.success = true →
      ∃ revision, PushedAs env w.store (requests task).latest revision ∧
        ∀ later w', run (step env requests) w later = some w' → CollisionFree env w'.store →
          Reachable env w'.store w'.head revision) ∧
    (∀ action w', step env requests w action = some w' → w'.head ≠ w.head →
      CollisionFree env w'.store →
      ∃ s, env.read w'.store w'.head = some s ∧ s.parentSelf = w.head) ∧
    (∀ task action w', step env requests w (.act task action) = some w' → w'.head ≠ w.head →
      ∀ later w'' update,
        run (step env requests) w' later = some w'' →
        w''.phase task = .answered (.ok update) → update.success = true) := by
  have hw : Holds env requests w := run_holds hstart.holds hrun
  refine ⟨fun task update hp hsu => ?_, fun action w' hstep hne hf => ?_,
    fun task action w' hstep hne later w'' update hl hp => ?_⟩
  · have han := hw task
    rw [hp] at han
    obtain ⟨revision, hpu, hr⟩ := han hsu
    refine ⟨revision, hpu, fun later w' hl hf => ?_⟩
    have ha := run_advances hw hl
    exact Reaches.reachable hf (ha.head.trans (hr.isPrefix ha.store))
  · obtain ⟨⟨s, hs, hh, hpa⟩, -⟩ := step_child hw hstep hne
    exact ⟨s, hh ▸ read_of_mem hf hs, hpa⟩
  · have hm := run_hasMoved (step_holds hw hstep) ((step_child hw hstep hne).2 task _ rfl) hl
    rw [hp] at hm
    exact hm

end Steps

/-- Two pushes onto a branch without a head, one of a revision with a wrong number, the other
merged onto it. -/
def twoPushes : List (Action Bool Bool) :=
  [.upload ⟨0, 0, 1, true⟩, .upload ⟨0, 0, 7, false⟩] ++
    [.readHead true, .readIncoming, .prepare, .verify, .renumber].flatMap
      (fun action => [.act true action, .act false action]) ++
    [.act false .swap, .act false .answer] ++
    [.swap, .merge, .swapMerged, .answer].map (.act true)

def smallEnv : PushEnv Bool where
  hash s := BitVec.ofNat 256 (s.revisionNumber.toNat + if s.content then 100 else 200)
  emptyContent := false
  save := id
  mergeContent _ _ _ _ := some true

def smallRequests : Bool → PushRequest
  | true => ⟨101, true⟩
  | false => ⟨207, false⟩

theorem pushes_lose_no_revision_merged :
    ∃ w, run (step smallEnv smallRequests) ⟨0, [], fun _ => .loading none none⟩ twoPushes = some w ∧
      ∃ revision, PushedAs smallEnv w.store 207 revision ∧
        Reachable smallEnv w.store w.head revision := by
  obtain ⟨w, hrun, ⟨update, hph, hsu⟩, hf⟩ :
      ∃ w, run (step smallEnv smallRequests) ⟨0, [], fun _ => .loading none none⟩ twoPushes =
        some w ∧ (∃ update, w.phase false = .answered (.ok update) ∧ update.success = true) ∧
        CollisionFree smallEnv w.store := by
    refine ⟨_, rfl, ⟨_, rfl, rfl⟩, ?_⟩
    unfold CollisionFree
    decide
  obtain ⟨revision, hp, hr⟩ :=
    (pushes_lose_no_revision smallEnv smallRequests (fun _ => rfl) hrun).1 false update hph hsu
  exact ⟨w, hrun, revision, hp, hr [] w rfl hf⟩

end Lore.Push
