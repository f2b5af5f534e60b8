import Lore.State.SaveImages
import Lore.State.SaveRegistered

/-!
# SaveKeeps — a save loses no edit

Every step of the writers and of the save keeps both halves: what is dirty is registered
(`Registered`), and what is clean is stored as it is (`Saved`). Once a save has ended, and
the writers of a block have registered it, no edit of the block is lost, however the save
ended.
-/

namespace Lore.State

open Lore.Lib List Function Option

variable {τ ε : Type}

/-- A block a save may mark dirty: it is dirty, or registered. -/
def Block.Tracked (block : Block ε) : Prop := block.dirty = true ∨ block.registered = true

theorem Block.Tracked.image {block : Block ε} (h : block.Tracked) (kind : BlockKind) :
    (block.image kind).Tracked := by
  cases kind with
  | node => exact .inl rfl
  | fileMetadata => exact h

theorem tracked_update {blocks : BlockId → Block ε} {id block} (h : block.Tracked) :
    ∀ other, (blocks other).Tracked → (update blocks id block other).Tracked :=
  update_related (fun a b : Block ε => a.Tracked → b.Tracked) (fun _ ht => ht) fun _ => h

theorem registered_update {blocks : BlockId → Block ε} {id block}
    (h : block.registered = (blocks id).registered) :
    ∀ other, (update blocks id block other).registered = (blocks other).registered :=
  update_related (fun a b : Block ε => b.registered = a.registered) (fun _ => rfl) h

theorem dirty_update {blocks : BlockId → Block ε} {id block}
    (h : block.dirty = true → (blocks id).Tracked) :
    ∀ other, (update blocks id block other).dirty = true → (blocks other).Tracked :=
  update_related (fun a b : Block ε => b.dirty = true → a.Tracked) (fun _ => .inl) h

structure Inv (w : World τ ε) : Prop where
  registered : Registered w
  saved : Saved w
  /-- The save registers a block only between the link of the head and its adoption. -/
  own : w.writers none = .done ∨ ∃ list blockCount head, w.save = .linking list blockCount head
  list : ∀ id ∈ w.save.list, (w.blocks id).Tracked
  head : ∀ list blockCount head, w.save = .linking list blockCount head →
    (w.blocks ⟨.node, head⟩).Tracked
  stragglers : ∀ id ∈ w.stragglers, (w.blocks id).Tracked ∧ w.save = .idle

namespace Inv

variable {w w' : World τ ε}

section

variable (h : Inv w) {save} (hsave : w.save = save)
include h hsave

theorem own_done (hli : ∀ list blockCount head, save ≠ .linking list blockCount head) :
    w.writers none = .done := by
  rcases h.own with hd | ⟨list, blockCount, head, hl⟩
  · exact hd
  · exact absurd (hsave.symm.trans hl) (hli list blockCount head)

theorem no_stragglers (hrun : save ≠ .idle) : w.stragglers = [] := by
  cases hl : w.stragglers with
  | nil => rfl
  | cons id rest =>
    have hi := (h.stragglers id (by rw [hl]; exact mem_cons_self)).2
    exact absurd (hsave.symm.trans hi) hrun

theorem alone (hrun : save ≠ .idle)
    (hl : ∀ list blockCount head, save ≠ .linking list blockCount head) :
    w.writers none = .done ∧ w.stragglers = [] := ⟨h.own_done hsave hl, h.no_stragglers hsave hrun⟩

theorem listed : (∀ id ∈ save.list, (w.blocks id).Tracked) ∧ save.list.Nodup :=
  hsave ▸ ⟨h.list, h.saved.nodup⟩

end

theorem of_writer (h : Inv w) (hr : Registered w') (hsa : Saved w')
    (hsave : w'.save = w.save) (hst : w'.stragglers = w.stragglers)
    (hown : w'.writers none = .done ∨ ∃ list blockCount head, w.save = .linking list blockCount head)
    (ht : ∀ id, (w.blocks id).Tracked → (w'.blocks id).Tracked) : Inv w' where
  registered := hr
  saved := hsa
  own := hsave ▸ hown
  list id hid := ht id (h.list id (hsave ▸ hid))
  head list blockCount head hl := ht _ (h.head list blockCount head (hsave ▸ hl))
  stragglers id hid := by
    obtain ⟨hwas, hi⟩ := h.stragglers id (hst ▸ hid)
    exact ⟨ht id hwas, hsave.trans hi⟩

theorem of_save (ha : w'.writers none = .done ∧ w'.stragglers = []) (hr : Registered w')
    (hsa : Saved w') (hl : ∀ list blockCount head, w'.save ≠ .linking list blockCount head)
    (hli : ∀ id ∈ w'.save.list, (w'.blocks id).Tracked) : Inv w' where
  registered := hr
  saved := hsa
  own := .inl ha.1
  list := hli
  head list blockCount head heq := absurd heq (hl list blockCount head)
  stragglers id hid := by
    rw [ha.2] at hid
    cases hid

theorem moveSave (h : Inv w) (ha : w.writers none = .done ∧ w.stragglers = []) (next : Save ε)
    (stateDirty : Bool) (blockDirty : List BlockId)
    (hr : ({ w with save := next, blockDirty } : World τ ε).registrations = w.registrations)
    (hst : ∀ id ∈ w.registrations, w.stateDirty = true ∨ w.armed = true →
      stateDirty = true ∨ ({ w with save := next } : World τ ε).armed = true)
    (hw : ({ w with save := next } : World τ ε).written = [])
    (hl : (∀ id ∈ next.list, (w.blocks id).Tracked) ∧ next.list.Nodup)
    (hh : ∀ list blockCount head, next ≠ .linking list blockCount head)
    (hi : ∀ list nodesWritten images, next = .imaging list nodesWritten images →
      nodesWritten = false ∧ images = fun _ => none) :
    Inv { w with save := next, stateDirty, blockDirty } :=
  of_save ha (h.registered.frame rfl (fun _ => rfl) (fun _ => .inl) hr hst
    (Nat.le_refl _)) (h.saved.pass next stateDirty blockDirty _ hl.2 hw hi) hh
    hl.1

theorem thread (h : Inv w) (id : BlockId) (link : Option ε) (ht : (w.blocks id).Tracked) :
    Inv (w.setBlock id (link.elim { w.blocks id with firstUnusedNode := false }
      ({ w.blocks id with firstUnusedNode := false }.write · false))) := by
  have hset : ∀ block : Block ε, block.registered = (w.blocks id).registered →
      (w.blocks id).After block → block.Tracked → Inv (w.setBlock id block) :=
    fun block hb ha hbt =>
    h.of_writer (h.registered.frame rfl (registered_update hb) (dirty_update fun _ => ht) rfl
      (fun _ _ hs => hs) (Nat.le_refl _)) (h.saved.frame (update_related _ .refl ha) rfl
      (fun hd => hd) rfl rfl rfl) rfl rfl h.own (tracked_update hbt)
  cases link with
  | none => exact hset _ rfl (.refl _) ht
  | some e => exact hset _ rfl (.inr ⟨rfl, Nat.lt_succ_of_le (h.saved.sequence id)⟩) (.inl rfl)

theorem image_registered (h : Inv w) {id} (ht : (w.blocks id).Tracked) (next : Save ε)
    (stragglers : List BlockId)
    (hr : ({ w with save := next } : World τ ε).registrations = w.registrations)
    (ha : ({ w with save := next } : World τ ε).armed = w.armed) :
    Registered { w.setBlock id ((w.blocks id).image id.kind) with save := next, stragglers } ∧
      ∀ other, (w.blocks other).Tracked →
        (update w.blocks id ((w.blocks id).image id.kind) other).Tracked :=
  ⟨h.registered.frame rfl (registered_update (Block.image_registered _ _))
    (dirty_update fun _ => ht) hr (fun _ _ hs => ha ▸ hs) (Nat.le_refl _),
    tracked_update (ht.image _)⟩

/-- A clean block loses its registration: no writer is about to push it, as it is listed. -/
theorem drop [DecidableEq τ] (h : Inv w) {kept rest id} (hf : w.save = .filtering kept (id :: rest))
    (hcl : ¬(w.blocks id).dirty = true) :
    Inv { w.setBlock id { w.blocks id with registered := false } with
      save := .filtering kept rest } := by
  have hr : w.registrations = kept ++ id :: rest := by
    simp [World.registrations, hf]
  have hn := h.registered.nodup
  rw [hr] at hn
  have hn' := nodup_cons.mp (nodup_middle.mp hn)
  have hu : ∀ writer, w.writers writer ≠ .push id := fun writer hw =>
    (h.registered.pushing writer id hw).1 (by simp [hr])
  obtain ⟨hdo, hno⟩ := h.alone hf nofun nofun
  have hwr : w.writers = update w.writers none .done := by rw [← hdo, update_eq_self]
  refine of_save ⟨hdo, hno⟩ (h.registered.of_move hdo hwr rfl rfl (fun _ hne => update_of_ne hne ..) (fun other hne => ?_) (fun _ => .inr rfl)
      (Nat.le_refl _) ?_ hn'.2 ?_ (fun pusher hp => absurd hp (hu pusher)) ?_
      fun _ => .inr (.inl rfl))
    (h.saved.move (update_related _ .refl (.refl _)) (fun _ => rfl) h.saved.hash
      (fun id hid => (h.saved.clean id hid).2.1) .nil nofun nofun nofun) nofun nofun
  · rw [hr]
    simp [World.registrations, hne]
  · rintro (hh | hc)
    · simp [World.setBlock] at hh
    · exact h.registered.bounded id (.inr hc)
  · simp only [World.setBlock, update_self, Bool.false_eq_true, false_iff]
    rintro (hmem | ⟨pusher, hp⟩)
    · exact hn'.1 hmem
    · exact hu pusher hp
  · intro hd
    exact absurd (by simpa [World.setBlock] using hd) hcl

/-! ## The writers -/

section

variable [DecidableEq τ]

theorem edit (h : Inv w) {writer} (hw : w.writers writer = .done) (id : BlockId)
    (hi : id.index < w.tree.blockCount) (e : ε) (frees : Bool) :
    Registered (w.edit writer id e frees) ∧ Saved (w.edit writer id e frees) ∧
      ∀ other, (w.blocks other).Tracked → ((w.edit writer id e frees).blocks other).Tracked := by
  exact ⟨h.registered.touch hw id ((w.blocks id).write e frees) rfl rfl rfl rfl rfl rfl
      (Nat.le_refl _) hi,
    h.saved.frame (update_related _ .refl (.inr ⟨rfl, Nat.lt_succ_of_le (h.saved.sequence id)⟩))
      rfl (fun hd => hd) rfl rfl rfl, tracked_update (.inl rfl)⟩

theorem move (h : Inv w) {writer r r'} (hwr : w.writers writer = r) (hr : r ≠ .done)
    {blocks stateDirty blockDirty}
    (hre : Registered { w.setWriter writer r' with blocks, stateDirty, blockDirty })
    (hb : ∀ id, (w.blocks id).Same (blocks id))
    (hk : ∀ id, (w.blocks id).registered = true → (blocks id).registered = true) :
    Inv { w.setWriter writer r' with blocks, stateDirty, blockDirty } := by
  refine h.of_writer hre (h.saved.frame (fun id => .inl (hb id)) rfl (fun hd => hd) rfl rfl rfl)
    rfl rfl (h.own.imp_left fun hdo => ?_) fun id => Or.imp (fun hd => (hb id).2.1.trans hd) (hk id)
  have hne : none ≠ writer := by
    rintro rfl
    exact hr (hwr.symm.trans hdo)
  simp only [World.setWriter, update_of_ne hne, hdo]

theorem allocate (h : Inv w) {writer : τ} (hw : w.writers (some writer) = .done) :
    Inv (({ w with
      tree := { w.tree with blockCount := w.tree.blockCount + 1 }
      treeDirty := true }.setBlock ⟨.node, w.tree.blockCount⟩
        (Block.loaded []).markDirty).setWriter (some writer)
          (.claim ⟨.node, w.tree.blockCount⟩)) := by
  obtain ⟨hc, hf⟩ := h.registered.fresh ⟨.node, w.tree.blockCount⟩ (Nat.lt_irrefl _)
  refine h.of_writer (h.registered.touch hw ⟨.node, w.tree.blockCount⟩ (Block.loaded []).markDirty
      hf.symm rfl ?_ rfl rfl rfl (Nat.le_succ _) (Nat.lt_succ_self _))
    (h.saved.frame (update_related _ .refl (.inr ⟨rfl, Nat.zero_lt_one⟩)) rfl (fun _ => rfl) rfl
      rfl rfl) rfl rfl h.own (tracked_update (.inl rfl))
  rw [hc]
  rfl

theorem claim_new (h : Inv w) {writer id} (hw : w.writers writer = .claim id)
    (hf : ¬(w.blocks id).registered = true) :
    Inv ((w.setBlock id { w.blocks id with registered := true }).setWriter writer (.push id)) := by
  exact h.move hw nofun (h.registered.claim_new hw (by simpa using hf))
    (update_related _ .refl (Block.Same.refl _))
    (update_related (fun a b : Block ε => a.registered = true → b.registered = true) (fun _ hh => hh)
      fun _ => rfl)

/-! ## The save up to its images -/

theorem link (h : Inv w) {list blockCount head} (ht : w.save = .threading list blockCount)
    (hi : head < w.tree.blockCount) (e : ε) :
    Inv { w.edit none ⟨.node, head⟩ e false with save := .linking list blockCount head } := by
  obtain ⟨hown, hno⟩ := h.alone ht nofun nofun
  obtain ⟨hl, hn⟩ := h.listed ht
  obtain ⟨hr, hsa, htr⟩ := h.edit hown ⟨.node, head⟩ hi e false
  refine ⟨?_, hsa.pass _ _ _ _ hn rfl nofun, .inr ⟨list, blockCount, head, rfl⟩,
    fun id hid => htr id (hl id hid), ?_, ?_⟩
  · refine hr.frame rfl (fun _ => rfl) (fun _ => .inl) ?_ ?_ (Nat.le_refl _)
    · simp [World.registrations, World.edit, World.setBlock, World.setWriter, ht]
    · simp [World.armed, World.edit, World.setBlock, World.setWriter, ht]
  · rintro _ _ _ heq
    cases heq
    exact .inl (by simp [World.edit, World.setBlock, World.setWriter, Block.write, Block.markDirty])
  · intro id hid
    have hid : id ∈ w.stragglers := hid
    rw [hno] at hid
    cases hid

end

section

variable (h : Inv w)
include h

theorem adopt {list blockCount head} (hl : w.save = .linking list blockCount head)
    (hd : w.writers none = .done) :
    Inv { w with
      save := .imaging (if head < blockCount ∧ ⟨.node, head⟩ ∉ list then list ++ [⟨.node, head⟩]
        else list) false fun _ => none } := by
  obtain ⟨hli, hn⟩ := h.listed hl
  refine h.moveSave ⟨hd, h.no_stragglers hl nofun⟩ _ _ _ (by simp [World.registrations, hl])
    (by simp [World.armed, hl]) rfl ?_ nofun ?_
  · split
    · rename_i hnew
      refine ⟨fun id hid => ?_, hn.append (nodup_singleton _) (disjoint_singleton.mpr hnew.2)⟩
      rcases mem_append.mp hid with hid | hid
      · exact hli id hid
      · rw [mem_singleton.mp hid]
        exact h.head list blockCount head hl
    · exact ⟨hli, hn⟩
  · intro _ _ _ heq
    cases heq
    exact ⟨rfl, rfl⟩

/-! ## The save once it writes -/

theorem image {id list nodesWritten} {images : BlockId → Option (List ε)}
    (hi : w.save = .imaging list nodesWritten images)
    (hg : id ∈ list ∧ images id = none ∧ (id.kind = .node ↔ nodesWritten = false)) :
    Inv { w.setBlock id ((w.blocks id).image id.kind) with
      save := .imaging list nodesWritten
        (update images id (some (w.blocks id).records)) } := by
  obtain ⟨hl, _⟩ := h.listed hi
  obtain ⟨hr, ht⟩ := h.image_registered (hl id hg.1)
    (.imaging list nodesWritten (update images id (some (w.blocks id).records)))
    w.stragglers (by simp [World.registrations, hi]) (by simp [World.armed, hi])
  refine of_save (h.alone hi nofun nofun) hr ?_ nofun fun other ho => ht other (hl other ho)
  refine h.saved.image rfl (by rw [hi]; rfl) ?_
  intro _ _ _ heq
  cases heq
  refine ⟨images, hi, fun hw hk => ?_, rfl⟩
  rw [hg.2.2.mp hk] at hw
  cases hw

theorem writeAddresses {kind list nodesWritten} {images : BlockId → Option (List ε)}
    (hi : w.save = .imaging list nodesWritten images) (next : Save ε) (hl : next.list = list)
    (hp : (∃ images, next = .imaging list true images) ∨ next = .blocksWritten list)
    (hsa : Saved { w.writeAddresses kind list images with save := next }) :
    Inv { w.writeAddresses kind list images with save := next } := by
  refine of_save (h.alone hi nofun nofun) (h.registered.frame rfl (fun _ => rfl)
    (fun _ => .inl) ?_ ?_ (Nat.le_refl _)) hsa ?_ (hl ▸ (h.listed hi).1)
  all_goals rcases hp with ⟨_, rfl⟩ | rfl
  all_goals simp [World.registrations, World.armed, World.writeAddresses, hi]

theorem writeNodes {list} {images : BlockId → Option (List ε)}
    (hi : w.save = .imaging list false images) (him : World.Imaged .node list images) :
    Inv { w.writeAddresses .node list images with save := .imaging list true images } := by
  obtain ⟨hsa, hst⟩ := h.saved.writeAddresses hi him
  refine h.writeAddresses hi _ rfl (.inl ⟨images, rfl⟩) ?_
  refine hsa.move (fun _ => .refl _) (fun _ => rfl) hsa.hash
    (fun id hid => (hsa.clean id hid).2.1) (h.listed hi).2 nofun nofun ?_
  intro _ _ _ heq
  cases heq
  exact ⟨(h.saved.images list false images hi).1, fun _ => hst⟩

theorem writeFileMetadata {list} {images : BlockId → Option (List ε)}
    (hi : w.save = .imaging list true images) (him : World.Imaged .fileMetadata list images) :
    Inv { w.writeAddresses .fileMetadata list images with save := .blocksWritten list } := by
  obtain ⟨hsa, hst⟩ := h.saved.writeAddresses hi him
  have hn := (hsa.images list true images hi).2 rfl
  refine h.writeAddresses hi _ rfl (.inr rfl) ?_
  refine hsa.move (fun _ => .refl _) (fun _ => rfl) hsa.hash
    (fun id hid => (hsa.clean id hid).2.1) (h.listed hi).2 ?_ ?_ nofun
  · intro tree hmem id hid
    rw [mem_singleton.mp hmem]
    exact (hsa.clean id hid).1
  · intro tree hmem id hid hsi
    rw [mem_singleton.mp hmem]
    cases hk : id.kind with
    | node => exact hn id hid hk hsi
    | fileMetadata => exact hst id hid hk hsi

theorem writeTree {list} (hw : w.save = .blocksWritten list) :
    Inv { w with
      hashTree := if w.treeDirty then w.tree else w.hashTree
      stateDirty := w.stateDirty || w.treeDirty
      save := .treeWritten list } := by
  have hwr := h.saved.written
  rw [hw] at hwr
  have hmem : w.tree ∈ w.written := by simp [World.written, hw]
  -- A tree that is not dirty is stored as it is.
  have hr : ∀ id, (if w.treeDirty then w.tree else w.hashTree).read id = w.tree.read id := by
    intro id
    cases hd : w.treeDirty with
    | true => rfl
    | false => simp [TreeRecord.read, h.saved.hash hd]
  refine of_save (h.alone hw (by rintro ⟨⟩) (by rintro _ _ _ ⟨⟩)) (h.registered.frame rfl (fun _ => rfl)
    (fun _ => .inl) (by simp [World.registrations, hw]) ?_ (Nat.le_refl _)) ?_ (by rintro _ _ _ ⟨⟩)
    (h.listed hw).1
  · intro _ _ hs
    exact .inl (by simp_all [World.armed])
  · refine h.saved.move (fun _ => .refl _) (fun _ => rfl) (fun hc => ?_)
      (fun id hid => (h.saved.clean id hid).2.1) (h.listed hw).2 ?_ ?_ (by rintro _ _ _ ⟨⟩)
    · have hc : w.treeDirty = false := hc
      simp [hc, h.saved.hash hc]
    · intro tree ht id hid
      rcases mem_cons.mp ht with rfl | ht
      · exact (h.saved.clean id hid).1
      · rw [mem_singleton.mp ht]
        exact (hr id).trans (h.saved.clean id hid).1
    · intro tree ht id hid hsi
      rcases mem_cons.mp ht with rfl | ht
      · exact hwr _ hmem id hid hsi
      · rw [mem_singleton.mp ht]
        exact (hr id).trans (hwr _ hmem id hid hsi)

/-- The State's flag is cleared, or the State is written: the trees written stay written. -/
theorem carry {before} (hsave : w.save = before) (hrun : before ≠ .idle)
    (hli : ∀ list blockCount head, before ≠ .linking list blockCount head) (next : Save ε)
    (stateDirty : Bool) (signature : TreeRecord ε) (hl : next.list = before.list)
    (hr : ({ w with save := next } : World τ ε).registrations = w.registrations)
    (harmed : ({ w with save := next } : World τ ε).armed = true)
    (hw : ({ w with save := next, signature } : World τ ε).written = w.written)
    (hsi : signature = w.signature ∨ signature ∈ w.written)
    (hp : (∃ list buffer, next = .cleared list buffer) ∨ ∃ list, next = .releasing list) :
    Inv { w with save := next, stateDirty, signature } := by
  refine of_save (h.alone hsave hrun hli) (h.registered.frame rfl (fun _ => rfl) (fun _ => .inl)
    hr (fun _ _ _ => .inr harmed) (Nat.le_refl _)) ?_
    (by rcases hp with ⟨_, _, rfl⟩ | ⟨_, rfl⟩ <;> nofun)
    (hl.symm ▸ (h.listed hsave).1 : ∀ id ∈ next.list, (w.blocks id).Tracked)
  refine h.saved.move (fun _ => .refl _) (fun _ => rfl) h.saved.hash (fun id hid => ?_)
    (hl.symm ▸ (h.listed hsave).2 : next.list.Nodup)
    (fun tree ht id hid => (h.saved.clean id hid).2.2 tree (hw ▸ ht))
    (fun tree ht id hid => h.saved.written tree (hw ▸ ht) id ?_)
    (by rcases hp with ⟨_, _, rfl⟩ | ⟨_, rfl⟩ <;> nofun)
  · rcases hsi with rfl | hmem
    · exact (h.saved.clean id hid).2.1
    · exact (h.saved.clean id hid).2.2 signature hmem
  · rw [hsave, ← hl]
    exact hid

/-! ## The release -/

theorem release {id rest} (hr : w.save = .releasing (id :: rest)) :
    Inv { w.setBlock id ((w.blocks id).releaseSaved id.kind) with save := .releasing rest } := by
  obtain ⟨hl, hn⟩ := h.listed hr
  refine of_save (h.alone hr nofun nofun) (h.registered.frame rfl
    (registered_update (Block.releaseSaved_keeps _ _).2.1)
    (dirty_update fun hd => .inl ((Block.releaseSaved_dirty _ _).1 hd))
    (by simp [World.registrations, World.setBlock, hr]) (fun _ _ _ => .inr rfl)
    (Nat.le_refl _)) (h.saved.release hr) nofun ?_
  intro other ho
  have hid : other ≠ id := fun heq => (nodup_cons.mp hn).1 (heq ▸ ho)
  simp only [World.setBlock, update_of_ne hid]
  exact hl other (mem_cons_of_mem _ ho)

theorem filterEnd {kept} (hf : w.save = .filtering kept []) :
    Inv { w with blockDirty := kept, save := .settling (!kept.isEmpty) } := by
  have hr : w.registrations = kept := by simp [World.registrations, hf]
  refine h.moveSave (h.alone hf nofun nofun) _ _ kept (by rw [hr]; rfl) ?_ rfl
    ⟨nofun, .nil⟩ nofun nofun
  intro id hid _
  rw [hr] at hid
  refine .inr ?_
  cases kept with
  | nil => cases hid
  | cons _ _ => rfl

/-! ## A save that ends early -/

theorem failStep {action} (hste : w.failStep action = some w') : Inv w' := by
  cases action with
  | fail =>
    -- Only the images of a save leave tasks behind, of blocks that are tracked.
    have hend : ∀ (stateDirty : Bool) (stragglers : List BlockId),
        w.writers none = .done → w.registrations = w.blockDirty →
        (w.stateDirty = true ∨ w.armed = true → stateDirty = true) →
        (∀ id ∈ stragglers, (w.blocks id).Tracked) →
        Inv { w with stateDirty, save := .idle, stragglers } := by
      intro stateDirty stragglers hown hr hst ht
      exact ⟨h.registered.frame rfl (fun _ => rfl) (fun _ => .inl) (by rw [hr]; rfl)
        (fun _ _ hs => .inl (hst hs)) (Nat.le_refl _),
        h.saved.pass _ _ _ stragglers .nil rfl nofun, .inl hown, nofun, nofun,
        fun id hid => ⟨ht id hid, rfl⟩⟩
    simp only [World.failStep] at hste
    split at hste
    case h_8 => cases hste
    case h_6 list _ images hi =>
      cases hste
      exact hend _ _ (h.own_done hi nofun) (by simp [World.registrations, hi])
        (by simp [World.armed, hi])
        fun id hid => (h.listed hi).1 id (mem_filter.mp hid).1
    case h_7 hc =>
      cases hste
      obtain ⟨hown, hn⟩ := h.alone hc nofun nofun
      exact hend _ _ hown (by simp [World.registrations, hc]) (fun _ => rfl) (by rw [hn]; nofun)
    all_goals
      rename_i hsave
      cases hste
      obtain ⟨hown, hn⟩ := h.alone hsave nofun nofun
      exact hend _ _ hown (by simp [World.registrations, hsave]) (by simp [World.armed, hsave])
        (by rw [hn]; nofun)
  | straggle id =>
    simp only [World.failStep, ite_none_right_eq_some, some.injEq] at hste
    obtain ⟨hmem, rfl⟩ := hste
    obtain ⟨hwas, hidl⟩ := h.stragglers id hmem
    obtain ⟨hre, ht⟩ := h.image_registered hwas w.save (w.stragglers.erase id) rfl rfl
    refine ⟨hre, h.saved.image ?_ rfl ?_, h.own, ?_, ?_, ?_⟩
    · simp only [World.setBlock, World.written, hidl]
    · intro _ _ _ heq
      cases hidl.symm.trans heq
    · intro other ho
      exact ht other (h.list other ho)
    · intro list blockCount head hl
      cases hidl.symm.trans hl
    · intro other ho
      exact ⟨ht other (h.stragglers other (mem_of_mem_erase ho)).1, hidl⟩
  | abort id =>
    simp only [World.failStep, ite_none_right_eq_some, some.injEq] at hste
    obtain ⟨hmem, rfl⟩ := hste
    refine ⟨h.registered.frame rfl (fun _ => rfl) (fun _ => .inl) rfl (fun _ _ hs => hs)
      (Nat.le_refl _), h.saved.frame (fun _ => .refl _) rfl (fun hd => hd) rfl rfl rfl, h.own,
      h.list, h.head, fun other ho => h.stragglers other (mem_of_mem_erase ho)⟩
  | _ => cases hste

theorem step [DecidableEq τ] {action} (hste : w.step action = some w') : Inv w' := by
  -- a list the save has read stays the list
  have hfr : ∀ {list : List BlockId} list' nodesWritten images,
      Save.imaging list false (fun _ => none : BlockId → Option (List ε))
        = .imaging list' nodesWritten images → nodesWritten = false ∧ images = fun _ => none := by
    intro _ _ _ _ heq
    cases heq
    exact ⟨rfl, rfl⟩
  cases World.step_moves hste with
  | write hg =>
    obtain ⟨hreg, hsa, htr⟩ := h.edit hg.1 _ hg.2 _ _
    exact h.of_writer hreg hsa rfl rfl h.own htr
  | allocate hg => exact h.allocate hg.1
  | claimHeld hw hh =>
    exact h.move hw nofun (h.registered.claim_held hw hh) (fun _ => .refl _) fun _ hh => hh
  | claimNew hw hfre => exact h.claim_new hw hfre
  | push hw hfre =>
    exact h.move hw nofun (h.registered.push hw hfre) (fun _ => .refl _) fun _ hh => hh
  | mark hw =>
    exact h.move hw nofun (h.registered.mark hw) (fun _ => .refl _) fun _ hh => hh
  | begin hidl hn =>
    have ha := And.intro (h.own_done hidl nofun) hn
    have harmed : w.armed = false := by simp [World.armed, hidl]
    have hr : w.registrations = w.blockDirty := by simp [World.registrations, hidl]
    have hst : ∀ id ∈ w.registrations, w.stateDirty = true ∨ w.armed = true →
        w.stateDirty = true ∨ false = true := fun _ _ => Or.imp_right (harmed ▸ ·)
    split
    · exact h.moveSave ha .begun _ _ hr.symm hst rfl ⟨nofun, .nil⟩ nofun nofun
    · exact h.moveSave ha .idle _ _ hr.symm hst rfl ⟨nofun, .nil⟩ nofun nofun
  | list hb =>
    have hr : w.registrations = w.blockDirty := by
      simp only [World.registrations, hb]
    refine h.moveSave (h.alone hb nofun nofun) (.listed w.blockDirty) _ _
      hr.symm (by simp [World.armed, hb]) rfl ⟨fun id hid => .inr ?_, ?_⟩ nofun nofun
    · exact (h.registered.registered id).mpr (.inl (hr ▸ hid))
    · exact hr ▸ h.registered.nodup
  | count hl =>
    exact h.moveSave (h.alone hl nofun nofun) _ _ _ (by simp [World.registrations, hl])
      (by simp [World.armed, hl]) rfl (h.listed hl :) nofun nofun
  | thread ht hg => exact h.thread _ _ ((h.listed ht).1 _ hg.1)
  | link ht hin => exact h.link ht hin _
  | adopt hli hd => exact h.adopt hli hd
  | threaded ht =>
    exact h.moveSave (h.alone ht nofun nofun) _ _ _
      (by simp [World.registrations, ht]) (by simp [World.armed, ht]) rfl
      (h.listed ht :) nofun hfr
  | image hi hg => exact h.image hi hg
  | writeNodes hi him => exact h.writeNodes hi him
  | writeFileMetadata hi him => exact h.writeFileMetadata hi him
  | writeTree hwr => exact h.writeTree hwr
  | clear hwr =>
    exact h.carry hwr nofun nofun _ false _ rfl (by simp [World.registrations, hwr]) rfl
      (by simp [World.written, hwr]) (.inl rfl) (.inl ⟨_, _, rfl⟩)
  | writeState hc =>
    exact h.carry hc nofun nofun _ _ _ rfl (by simp [World.registrations, hc]) rfl
      (by simp [World.written, hc]) (.inr (by simp [World.written, hc]))
      (.inr ⟨_, rfl⟩)
  | release hre => exact h.release hre
  | releaseEnd hre =>
    exact h.moveSave (h.alone hre nofun nofun) _ _ _
      (by simp [World.registrations, hre]) (fun _ _ _ => .inr rfl) rfl ⟨nofun, .nil⟩ nofun
      nofun
  | keep hf _ =>
    exact h.moveSave (h.alone hf nofun nofun) _ _ _
      (by simp [World.registrations, hf]) (fun _ _ _ => .inr rfl) rfl ⟨nofun, .nil⟩ nofun
      nofun
  | drop hf hcl => exact h.drop hf hcl
  | filterEnd hf => exact h.filterEnd hf
  | settle hse =>
    refine h.moveSave (h.alone hse nofun nofun) _ _ _
      (by simp [World.registrations, hse]) (fun _ _ hs => .inl ?_) rfl ⟨nofun, .nil⟩ nofun
      nofun
    simpa [World.armed, hse] using hs
  | ends he => exact h.failStep he

end

end Inv

end Lore.State
