import Lore.State.SaveKeeps

/-!
# SaveQuiet — what a save writes with no edit beside it

With no edit beside it a save writes every block as it is: its list holds all the blocks that
are dirty, their images are what they hold, and the others are stored as they are already.
The results about saves are drawn together here.
-/

namespace Lore.State

open Lore.Lib Function Option

variable {τ ε : Type}

/-- The steps of a save that comes to its end. -/
def Action.ofSave : Action τ ε → Bool
  | .write .. | .allocate _ | .claim (some _) | .push (some _) | .mark (some _) | .fail
  | .straggle _ | .abort _ => false
  | _ => true

theorem failStep_of_ofSave (w : World τ ε) {action} (h : action.ofSave = true) :
    w.failStep action = none := by
  cases action with
  | fail | straggle | abort => cases h
  | _ => rfl

/-- What a save with no edit beside it has come to. -/
def World.Covering (w : World τ ε) : Prop :=
  match w.save with
  | .idle | .releasing _ | .filtering _ _ | .settling _ => ∀ id, w.Holds w.signature id
  | .begun => ∀ id, (w.blocks id).dirty = true → id ∈ w.blockDirty
  | .listed list => ∀ id, (w.blocks id).dirty = true → id ∈ list
  | .threading list blockCount =>
      blockCount = w.tree.blockCount ∧ ∀ id, (w.blocks id).dirty = true → id ∈ list
  | .linking list blockCount head =>
      head < blockCount ∧
        ∀ id, (w.blocks id).dirty = true → id ∈ list ∨ id = ⟨.node, head⟩
  | .imaging list nodesWritten images =>
      (∀ id, (w.blocks id).dirty = true → id ∈ list) ∧
      (∀ id image, images id = some image → image = (w.blocks id).records) ∧
      (nodesWritten = true → ∀ id ∈ list, id.kind = .node → w.Holds w.tree id)
  | .blocksWritten _ => ∀ id, w.Holds w.tree id
  | .treeWritten _ => ∀ id, w.Holds w.hashTree id
  | .cleared _ buffer => ∀ id, w.Holds buffer id

/-- No writer but the save has anything to do. -/
def World.Unedited (w : World τ ε) : Prop := ∀ writer, w.writers (some writer) = .done

/-- A save runs, or has run, with no edit beside it. -/
structure Quiet (w : World τ ε) : Prop where
  inv : Inv w
  covering : w.Covering
  unedited : w.Unedited

section

variable {w w' : World τ ε}

/-- With no save running, a dirty block is registered, or a writer is about to register it. -/
theorem Inv.registered_of_dirty (h : Inv w) (hi : w.save = .idle) {id}
    (hd : (w.blocks id).dirty = true) :
    (w.blocks id).registered = true ∧ id ∈ w.blockDirty ∧ w.stateDirty = true ∨
      ∃ writer, (w.writers (some writer)).block? = some id := by
  have hown := h.own_done hi nofun
  have hreg : w.registrations = w.blockDirty := by simp [World.registrations, hi]
  have hre : ∀ {writer r}, w.writers writer = r → r.block? = some id →
      ∃ writer, (w.writers (some writer)).block? = some id := by
    intro writer r hw hr
    cases writer with
    | none =>
      rw [hown] at hw
      exact absurd hr (by simp [← hw, Registration.block?])
    | some writer => exact ⟨writer, hw ▸ hr⟩
  rcases h.registered.dirty id hd with hh | ⟨writer, hw⟩
  · rcases (h.registered.registered id).mp hh with hmem | ⟨writer, hw⟩
    · rcases h.registered.state id hmem with hs | hs | ⟨writer, hw⟩
      · exact .inl ⟨hh, hreg ▸ hmem, hs⟩
      · simp [World.armed, hi] at hs
      · exact .inr (hre hw rfl)
    · exact .inr (hre hw rfl)
  · exact .inr (hre hw rfl)

/-- Once nothing is to be registered, the dirty blocks are all on the list, and the State is
dirty where there are any. -/
theorem Inv.listed_of_dirty (h : Inv w) (hi : w.save = .idle) (hwr : w.Unedited) {id}
    (hd : (w.blocks id).dirty = true) : id ∈ w.blockDirty ∧ w.stateDirty = true := by
  rcases h.registered_of_dirty hi hd with hl | ⟨writer, hw⟩
  · exact hl.2
  · rw [hwr writer] at hw
    cases hw

/-- A save begins with every dirty block registered; a State that is not dirty is stored as
it is. -/
theorem Inv.covering_begin (h : Inv w) (hw : w.Unedited) (hi : w.save = .idle) :
    World.Covering { w with save := if w.stateDirty then .begun else .idle } := by
  cases hd : w.stateDirty with
  | true => exact fun id hid => (h.listed_of_dirty hi hw hid).1
  | false =>
    intro id
    refine (h.saved.clean id ?_).2.1
    cases hb : (w.blocks id).dirty with
    | false => rfl
    | true =>
      rw [(h.listed_of_dirty hi hw hb).2] at hd
      cases hd

variable [DecidableEq τ]

omit [DecidableEq τ] in
/-- The save as a writer registers a block and changes nothing a block holds. -/
theorem Inv.covering_own (hinv : Inv w) (h : w.Covering) {r} (hw : w.writers none = r)
    (hr : r ≠ .done) (hsa : w'.save = w.save)
    (hd : ∀ id, (w'.blocks id).dirty = (w.blocks id).dirty) : w'.Covering := by
  -- The save is linking, and its list, its head and what is dirty stay as they are.
  rcases hinv.own with hdo | ⟨list, blockCount, head, hp⟩
  · exact absurd (hw.symm.trans hdo) hr
  · unfold World.Covering at h ⊢
    rw [hsa, hp]
    rw [hp] at h
    exact ⟨h.1, fun id hid => h.2 id (hd id ▸ hid)⟩

omit [DecidableEq τ] in
theorem covering_image {id list nodesWritten} {images : BlockId → Option (List ε)}
    (hmem : id ∈ list) (h : World.Covering { w with save := .imaging list nodesWritten images }) :
    World.Covering { w.setBlock id ((w.blocks id).image id.kind) with
      save := .imaging list nodesWritten
        (update images id (some (w.blocks id).records)) } := by
  obtain ⟨hl, him, hn⟩ := h
  have hr : ∀ other, (update w.blocks id
      ((w.blocks id).image id.kind) other).records = (w.blocks other).records := by
    intro other
    by_cases hid : other = id
    · subst hid
      rw [update_self, Block.image_records]
    · rw [update_of_ne hid]
  refine ⟨fun other ho => ?_, fun other image hi => ?_, fun hw other ho hk => ?_⟩
  · by_cases hid : other = id
    · exact hid ▸ hmem
    · simp only [World.setBlock, update_of_ne hid] at ho
      exact hl other ho
  · refine Eq.trans ?_ (hr other).symm
    by_cases hid : other = id
    · subst hid
      rw [update_self] at hi
      exact (some.inj hi).symm
    · rw [update_of_ne hid] at hi
      exact him other image hi
  · exact (hn hw other ho hk).trans (hr other).symm

omit [DecidableEq τ] in
theorem Inv.covering_writeFileMetadata (hinv : Inv w) {list} {images : BlockId → Option (List ε)}
    (him : World.Imaged .fileMetadata list images)
    (h : World.Covering { w with save := .imaging list true images }) :
    World.Covering { w.writeAddresses .fileMetadata list images with
      save := .blocksWritten list } := by
  obtain ⟨hl, hima, hn⟩ := h
  intro id
  show (w.writeAddresses .fileMetadata list images).tree.read id = _
  rw [Saved.read_writeAddresses]
  by_cases hid : id ∈ list
  · cases hk : id.kind with
    | node =>
      exact hn rfl id hid hk
    | fileMetadata =>
      obtain ⟨image, hi⟩ := isSome_iff_exists.mp (him id hid hk)
      rw [if_pos ⟨rfl, hid⟩, hi]
      exact hima id image hi
  · -- Not on the list it is clean, and the tree stores it already.
    rw [if_neg fun hmem => hid hmem.2]
    refine (hinv.saved.clean id ?_).1
    cases hd : (w.blocks id).dirty with
    | false => rfl
    | true => exact absurd (hl id hd) hid

omit [DecidableEq τ] in
theorem covering_setBlock {id block} (hb : block.records = (w.blocks id).records) {tree}
    (h : ∀ other, w.Holds tree other) (other : BlockId) :
    (w.setBlock id block).Holds tree other := by
  refine (h other).trans ?_
  by_cases hid : other = id
  · subst hid
    simp [World.setBlock, hb]
  · simp only [World.setBlock, update_of_ne hid]

theorem Inv.covering_step (hinv : Inv w) (h : w.Covering) (hwr : w.Unedited) {action}
    (hsa : action.ofSave = true) (hst : w.step action = some w') : w'.Covering := by
  -- a writer that registers a block is the save
  have hn : ∀ {writer r}, w.writers writer = r → r ≠ .done → w.writers none = r := by
    intro writer r hw hr
    cases writer with
    | none => exact hw
    | some writer => exact absurd (hw.symm.trans (hwr writer)) hr
  have hc := h
  unfold World.Covering at hc
  cases World.step_moves hst with
  | write | allocate => cases hsa
  | claimHeld hw _ => exact hinv.covering_own h (hn hw (by rintro ⟨⟩)) (by rintro ⟨⟩) rfl fun _ => rfl
  | claimNew hw _ =>
    refine hinv.covering_own h (hn hw (by rintro ⟨⟩)) (by rintro ⟨⟩) rfl fun other => ?_
    simp only [World.setBlock, World.setWriter]
    rw [apply_update (fun _ block => Block.dirty block), update_eq_self]
  | push hw _ | mark hw =>
    exact hinv.covering_own h (hn hw (by rintro ⟨⟩)) (by rintro ⟨⟩) rfl fun _ => rfl
  | begin hidl _ => exact hinv.covering_begin hwr hidl
  | list hp =>
    rw [hp] at hc
    exact hc
  | count hp =>
    rw [hp] at hc
    exact ⟨rfl, hc⟩
  | @thread id _ _ _ hp hg =>
    rw [hp] at hc
    unfold World.Covering
    simp only [World.setBlock, hp]
    refine ⟨hc.1, fun other ho => ?_⟩
    by_cases hid : other = id
    · exact hid ▸ hg.1
    · rw [update_of_ne hid] at ho
      exact hc.2 other ho
  | @link head _ _ _ hp hin =>
    rw [hp] at hc
    refine ⟨hc.1 ▸ hin, fun other ho => ?_⟩
    by_cases hid : other = ⟨.node, head⟩
    · exact .inr hid
    · simp only [World.edit, World.setBlock, World.setWriter, update_of_ne hid] at ho
      exact .inl (hc.2 other ho)
  | @adopt list _ head hp _ =>
    rw [hp] at hc
    refine ⟨fun id hid => ?_, by rintro _ _ ⟨⟩, by rintro ⟨⟩⟩
    by_cases hmem : (⟨.node, head⟩ : BlockId) ∈ list
    · rw [if_neg (by simp [hmem])]
      exact (hc.2 id hid).elim (fun hid => hid) fun hid => hid ▸ hmem
    · rw [if_pos ⟨hc.1, hmem⟩]
      exact (hc.2 id hid).elim (List.mem_append_left _) fun hid => by simp [hid]
  | threaded hp =>
    rw [hp] at hc
    exact ⟨hc.2, by rintro _ _ ⟨⟩, by rintro ⟨⟩⟩
  | image hp hg =>
    rw [hp] at hc
    exact covering_image hg.1 hc
  | @writeNodes list images hp hi =>
    rw [hp] at hc
    refine ⟨hc.1, hc.2.1, fun _ id hid hk => ?_⟩
    obtain ⟨image, him⟩ := isSome_iff_exists.mp (hi id hid hk)
    show (w.writeAddresses .node list images).tree.read id = _
    rw [Saved.read_writeAddresses, if_pos ⟨hk, hid⟩, him]
    exact hc.2.1 id image him
  | writeFileMetadata hp hi =>
    rw [hp] at hc
    exact hinv.covering_writeFileMetadata hi hc
  | writeTree hp =>
    rw [hp] at hc
    intro id
    refine Eq.trans ?_ (hc id)
    cases hd : w.treeDirty with
    | true => simp
    | false => simp [TreeRecord.read, hinv.saved.hash hd]
  | release hp =>
    rw [hp] at hc
    exact covering_setBlock (Block.releaseSaved_keeps _ _).1 hc
  | drop hp _ =>
    rw [hp] at hc
    refine covering_setBlock ?_ hc
    rfl
  | clear hp | writeState hp | releaseEnd hp | keep hp _ | filterEnd hp
  | settle hp =>
    rw [hp] at hc
    exact hc
  | ends he => cases (failStep_of_ofSave w hsa).symm.trans he

theorem World.Unedited.step (h : w.Unedited) {action} (hsa : action.ofSave = true)
    (hst : w.step action = some w') : w'.Unedited := by
  have hown : ∀ {writer r}, w.writers writer ≠ .done ∨ writer = none → ∀ other,
      update w.writers writer r (some other) = .done := by
    intro writer r hw other
    cases writer with
    | none => rw [update_of_ne (some_ne_none other), h other]
    | some writer => exact absurd (h writer) (hw.resolve_right nofun)
  cases World.step_moves hst with
  | write | allocate => cases hsa
  | claimHeld hw _ | claimNew hw _ | push hw _ | mark hw =>
    exact hown (.inl (by rw [hw]; nofun))
  | link =>
    intro other
    simp only [World.edit, World.setWriter]
    exact hown (.inr rfl) other
  | ends he => cases (failStep_of_ofSave w hsa).symm.trans he
  | _ => exact h

theorem Quiet.step (h : Quiet w) {action} (hsa : action.ofSave = true)
    (hst : w.step action = some w') : Quiet w' :=
  ⟨h.inv.step hst, h.inv.covering_step h.covering h.unedited hsa hst, h.unedited.step hsa hst⟩

end

/-! ## Runs -/

theorem Inv.deserialized (tree : TreeRecord ε) : Inv (.deserialized tree : World τ ε) where
  registered :=
    { nodup := List.nodup_nil
      registered := fun id => by
        simp [World.deserialized, Block.loaded, World.registrations]
      pushing := fun _ _ hw => nomatch hw
      dirty := fun _ hd => nomatch hd
      state := fun _ hid => nomatch hid
      bounded := fun id hid => by
        simp [World.deserialized, Block.loaded] at hid }
  saved :=
    { sequence := fun _ => Nat.le_refl _
      clean := fun _ _ => ⟨rfl, rfl, fun _ ht => nomatch ht⟩
      hash := fun _ => rfl
      nodup := List.nodup_nil
      written := fun _ ht => nomatch ht
      images := fun _ _ _ hsa => nomatch hsa }
  own := .inl rfl
  list _ hid := nomatch hid
  head _ _ _ hsa := nomatch hsa
  stragglers _ hid := nomatch hid

/-- With no save running, a block that is not stored as it is is dirty, and registered, or a
writer is about to register it. -/
theorem Inv.stored_or_registered {w : World τ ε} (h : Inv w) (hi : w.save = .idle) (id : BlockId) :
    w.Holds w.signature id ∨
      (w.blocks id).dirty = true ∧
        ((w.blocks id).registered = true ∧ id ∈ w.blockDirty ∧ w.stateDirty = true ∨
          ∃ writer, (w.writers (some writer)).block? = some id) := by
  cases hd : (w.blocks id).dirty with
  | false => exact .inl (h.saved.clean id hd).2.1
  | true => exact .inr ⟨rfl, h.registered_of_dirty hi hd⟩

variable [DecidableEq τ]

theorem Inv.run {w w' : World τ ε} (h : Inv w) {actions : List (Action τ ε)}
    (hrun : Lib.run World.step w actions = some w') : Inv w' :=
  run_invariant World.step (fun _ _ _ hinv hst => hinv.step hst) h hrun

/-- A save with no edit beside it, once it has ended, has stored every block as it is. -/
theorem Inv.quiet_save {w w' : World τ ε} (h : Inv w) (hw : w.Unedited)
    {saving : List (Action τ ε)} (hsa : ∀ action ∈ saving, action.ofSave = true)
    (hrun : Lib.run World.step w (.begin :: saving) = some w') (hi : w'.save = .idle)
    (id : BlockId) : w'.Holds w'.signature id := by
  obtain ⟨v, hb, hr⟩ := run_cons_eq_some World.step hrun
  have hv : v.Covering := by
    cases World.step_moves hb with
    | begin hbe _ => exact h.covering_begin hw hbe
    | ends he => cases he
  have hend : Quiet w' :=
    run_invariant_of_stepsMeet World.step (fun _ _ _ hq hsav hst => hq.step hsav hst)
      ⟨h.step hb, hv, hw.step rfl hb⟩
      (stepsMeet_of_forall World.step (fun a ha _ => hsa a ha) v) hr
  have hc := hend.covering
  unfold World.Covering at hc
  rw [hi] at hc
  exact hc id

/-- A save never loses an edit. Whatever the writers and the save do from a State just
deserialized, the save failing or being dropped anywhere: no block is registered twice; with
no save running, a block is stored with all its edits, or it is dirty, registered and the
State dirty (or the writer that made it dirty is still registering it); and what a save with
no edit beside it returns deserializes to the blocks as they are. -/
theorem save_keeps_edits (tree : TreeRecord ε) (actions : List (Action τ ε)) {w : World τ ε}
    (hrun : run World.step (.deserialized tree) actions = some w) :
    (w.runtimeFree = true → w.blockDirty.Nodup) ∧
    (w.save = .idle → ∀ id, w.signature.read id = (w.blocks id).records ∨
        (w.blocks id).dirty = true ∧
          ((w.blocks id).registered = true ∧ id ∈ w.blockDirty ∧ w.stateDirty = true ∨
            ∃ writer, (w.writers (some writer)).block? = some id)) ∧
    ((∀ writer, w.writers (some writer) = .done) → ∀ saving w',
      (∀ action ∈ saving, action.ofSave = true) →
      run World.step w (.begin :: saving) = some w' → w'.save = .idle →
      ∀ id, ((World.deserialized w'.signature : World τ ε).blocks id).records =
        (w'.blocks id).records) := by
  have hinv : Inv w := (Inv.deserialized tree).run hrun
  refine ⟨fun hf => ?_, hinv.stored_or_registered, ?_⟩
  · have hn := hinv.registered.nodup
    unfold World.registrations at hn
    unfold World.runtimeFree at hf
    split at hn
    next hsave => simp [hsave] at hf
    next => exact hn
  · intro hw saving w' hsa hsav hi id
    exact hinv.quiet_save hw hsa hsav hi id

/-- A block is edited, saved, and edited again before the save released it. -/
def editedBeside : List (Action Unit Nat) :=
  [.write () ⟨.node, 0⟩ 7 false, .claim (some ()), .push (some ()), .mark (some ()), .begin,
    .list, .count, .threaded, .image ⟨.node, 0⟩, .writeNodes, .writeFileMetadata, .writeTree,
    .clear, .write () ⟨.node, 0⟩ 8 false, .writeState, .release, .releaseEnd, .filter,
    .filterEnd, .settle]

/-- A State with one block, of nothing. -/
def oneBlock : TreeRecord Nat where
  address _ := none
  blockCount := 1

/-- The save after it, with no edit beside it. -/
def savedAlone : List (Action Unit Nat) :=
  [.list, .count, .threaded, .image ⟨.node, 0⟩, .writeNodes, .writeFileMetadata, .writeTree,
    .clear, .writeState, .release, .releaseEnd, .filter, .filterEnd, .settle]

theorem save_keeps_edits_beside :
    ∃ w w' : World Unit Nat,
      run World.step (.deserialized oneBlock) editedBeside = some w ∧
      w.signature.read ⟨.node, 0⟩ = [7] ∧ (w.blocks ⟨.node, 0⟩).dirty = true ∧
      w.stateDirty = true ∧
      run World.step w (.begin :: savedAlone) = some w' ∧
      ((World.deserialized w'.signature : World Unit Nat).blocks ⟨.node, 0⟩).records = [7, 8] := by
  refine ⟨_, _, rfl, rfl, rfl, rfl, rfl, ?_⟩
  refine ((save_keeps_edits oneBlock editedBeside rfl).2.2 (fun _ => rfl) savedAlone _
    (by decide) rfl rfl ⟨.node, 0⟩).trans rfl

end Lore.State
