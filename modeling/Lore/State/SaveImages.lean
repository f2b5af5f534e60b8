import Lore.State.Save

/-!
# SaveImages — a clean block is stored as it is

A block whose edit sequence is the one its image recorded holds what the image holds, so a
block the save releases is stored as it is, and so is every other clean block: in the tree
the State holds, in the State last written, and in what a save under way has written so far.
-/

namespace Lore.State

open Lore.Lib List Function

variable {τ ε : Type}

/-- The blocks a save writes and has not released yet. -/
def Save.list : Save ε → List BlockId
  | .listed list => list
  | .threading list _ => list
  | .linking list _ _ => list
  | .imaging list _ _ => list
  | .blocksWritten list => list
  | .treeWritten list => list
  | .cleared list _ => list
  | .releasing rest => rest
  | _ => []

/-- The trees a save has put the addresses of all its images in. -/
def World.written (w : World τ ε) : List (TreeRecord ε) :=
  match w.save with
  | .blocksWritten _ => [w.tree]
  | .treeWritten _ => [w.tree, w.hashTree]
  | .cleared _ buffer => [w.tree, buffer]
  | .releasing _ => [w.tree, w.signature]
  | _ => []

/-- The tree stores the block as it is. -/
def World.Holds (w : World τ ε) (tree : TreeRecord ε) (id : BlockId) : Prop :=
  tree.read id = (w.blocks id).records

/-- No edit marked the block since its image. -/
def Block.Unedited (block : Block ε) : Prop := block.dirty = false ∨ block.edits = block.savedEdits

/-- The blocks hold the same, and are edited and imaged alike. -/
def Block.Same (block other : Block ε) : Prop :=
  other.records = block.records ∧ other.dirty = block.dirty ∧ other.edits = block.edits ∧
    other.savedEdits = block.savedEdits

theorem Block.Same.refl (block : Block ε) : block.Same block := ⟨rfl, rfl, rfl, rfl⟩

/-- The block is the same, or was written since any image. -/
def Block.After (block other : Block ε) : Prop :=
  block.Same other ∨ other.dirty = true ∧ other.savedEdits < other.edits

theorem Block.After.refl (block : Block ε) : block.After block := .inl (.refl block)

structure Saved (w : World τ ε) : Prop where
  sequence : ∀ id, (w.blocks id).savedEdits ≤ (w.blocks id).edits
  /-- A clean block is stored as it is. -/
  clean : ∀ id, (w.blocks id).dirty = false →
    w.Holds w.tree id ∧ w.Holds w.signature id ∧ ∀ tree ∈ w.written, w.Holds tree id
  hash : w.treeDirty = false → w.hashTree.address = w.tree.address
  nodup : w.save.list.Nodup
  /-- So is a block of the save that no edit marked since its image. -/
  written : ∀ tree ∈ w.written, ∀ id ∈ w.save.list, (w.blocks id).Unedited → w.Holds tree id
  images : ∀ list nodesWritten images, w.save = .imaging list nodesWritten images →
    (∀ id image, images id = some image → (w.blocks id).Unedited → image = (w.blocks id).records) ∧
    (nodesWritten = true → ∀ id ∈ list, id.kind = .node → (w.blocks id).Unedited →
      w.Holds w.tree id)

namespace Saved

variable {w w' : World τ ε}

section

variable (h : Saved w) (hblocks : ∀ id, (w.blocks id).After (w'.blocks id))
include h hblocks

/-- A step that writes blocks or leaves them alone, leaves what the tree stores alone, and moves
the save on, or ends it. -/
theorem move (hread : ∀ id, w'.tree.read id = w.tree.read id)
    (hha : w'.treeDirty = false → w'.hashTree.address = w'.tree.address)
    (hsig : ∀ id, (w.blocks id).dirty = false → w.Holds w'.signature id) (hno : w'.save.list.Nodup)
    (hc : ∀ tree ∈ w'.written, ∀ id, (w.blocks id).dirty = false → w.Holds tree id)
    (hw : ∀ tree ∈ w'.written, ∀ id ∈ w'.save.list, (w.blocks id).Unedited → w.Holds tree id)
    (him : ∀ list nodesWritten images, w'.save = .imaging list nodesWritten images →
      (∀ id image, images id = some image → (w.blocks id).Unedited →
        image = (w.blocks id).records) ∧
      (nodesWritten = true → ∀ id ∈ list, id.kind = .node → (w.blocks id).Unedited →
        w.Holds w.tree id)) : Saved w' := by
  -- A block that is unedited now was not written by the step.
  have hu : ∀ {id}, (w'.blocks id).Unedited → (w.blocks id).Same (w'.blocks id) ∧
      (w.blocks id).Unedited := by
    intro id hsi
    rcases hblocks id with hs | ⟨hd, he⟩
    · exact ⟨hs, by rwa [Block.Unedited, ← hs.2.1, ← hs.2.2.1, ← hs.2.2.2]⟩
    · rw [Block.Unedited, hd] at hsi
      exact absurd (hsi.resolve_left (nomatch ·)) (Nat.ne_of_gt he)
  refine ⟨?_, ?_, hha, hno, ?_, ?_⟩
  · intro id
    rcases hblocks id with hs | ⟨_, he⟩
    · rw [hs.2.2.1, hs.2.2.2]
      exact h.sequence id
    · exact Nat.le_of_lt he
  · intro id hid
    obtain ⟨hs, _⟩ := hu (.inl hid)
    rw [hs.2.1] at hid
    unfold World.Holds
    rw [hs.1, hread]
    exact ⟨(h.clean id hid).1, hsig id hid, fun tree hmem => hc tree hmem id hid⟩
  · intro tree hmem id hid hsi
    obtain ⟨hs, hwas⟩ := hu hsi
    exact (hw tree hmem id hid hwas).trans hs.1.symm
  · intro list nodesWritten images hi
    obtain ⟨hall, hn⟩ := him list nodesWritten images hi
    refine ⟨fun id image hima hsi => ?_, fun hwr id hid hk hsi => ?_⟩ <;>
      obtain ⟨hs, hwas⟩ := hu hsi
    · exact (hall id image hima hwas).trans hs.1.symm
    · exact (hread id).trans ((hn hwr id hid hk hwas).trans hs.1.symm)

theorem frame (ha : w'.tree.address = w.tree.address)
    (htD : w.treeDirty = true → w'.treeDirty = true) (hh : w'.hashTree = w.hashTree)
    (hsi : w'.signature = w.signature) (hsa : w'.save = w.save) : Saved w' := by
  have hre : ∀ id, w'.tree.read id = w.tree.read id := by
    intro id
    rw [TreeRecord.read, ha, TreeRecord.read]
  -- The written trees are those of before, but that the tree may have grown.
  have hw : ∀ tree ∈ w'.written, ∃ before ∈ w.written, ∀ id, tree.read id = before.read id := by
    unfold World.written
    rw [hsa, hh, hsi]
    intro tree htree
    cases hp : w.save <;> simp only [hp] at htree ⊢ <;>
      simp only [not_mem_nil, mem_cons, or_false] at htree
    · exact ⟨_, mem_cons_self, fun id => htree ▸ hre id⟩
    all_goals
      rcases htree with rfl | rfl
      · exact ⟨_, mem_cons_self, hre⟩
      · exact ⟨_, mem_cons_of_mem _ mem_cons_self, fun _ => rfl⟩
  apply h.move hblocks hre
  · intro hc
    rw [hh, ha]
    refine h.hash ?_
    cases hwas : w.treeDirty with
    | false => rfl
    | true => rw [htD hwas] at hc; cases hc
  · rw [hsi]
    exact fun id hid => (h.clean id hid).2.1
  · rw [hsa]
    exact h.nodup
  · intro tree hmem id hid
    obtain ⟨before, hb, hr⟩ := hw tree hmem
    exact (hr id).trans ((h.clean id hid).2.2 before hb)
  · rw [hsa]
    intro tree hmem id hid hsi
    obtain ⟨before, hb, hr⟩ := hw tree hmem
    exact (hr id).trans (h.written before hb id hid hsi)
  · rw [hsa]
    exact h.images

end

/-- The save goes on to a phase in which it has written no tree, nor taken an image. -/
theorem pass (h : Saved w) (next : Save ε) (stateDirty : Bool) (blockDirty stragglers : List BlockId)
    (hn : next.list.Nodup)
    (hw : ({ w with save := next } : World τ ε).written = [])
    (him : ∀ list nodesWritten images, next = .imaging list nodesWritten images →
      nodesWritten = false ∧ images = fun _ => none) :
    Saved { w with save := next, stateDirty, blockDirty, stragglers } := by
  have hw : ({ w with save := next, stateDirty, blockDirty, stragglers } :
      World τ ε).written = [] := hw
  refine h.move (fun _ => .refl _) (fun _ => rfl) h.hash (fun id hid => (h.clean id hid).2.1)
    hn (by rw [hw]; nofun) (by rw [hw]; nofun) ?_
  intro list nodesWritten images hi
  obtain ⟨rfl, rfl⟩ := him list nodesWritten images hi
  exact ⟨nofun, nofun⟩

end Saved

namespace Block

variable (block : Block ε) (kind : BlockKind)

theorem image_records : (block.image kind).records = block.records := by
  cases kind <;> rfl

theorem image_registered : (block.image kind).registered = block.registered := by
  cases kind <;> rfl

theorem image_edits : (block.image kind).edits = (block.image kind).savedEdits := by
  cases kind <;> rfl

theorem image_dirty (h : (block.image kind).dirty = false) : block.dirty = false := by
  cases kind
  · cases h
  · exact h

theorem releaseSaved_keeps :
    (block.releaseSaved kind).records = block.records ∧
      (block.releaseSaved kind).registered = block.registered ∧
      (block.releaseSaved kind).edits = block.edits ∧
      (block.releaseSaved kind).savedEdits = block.savedEdits := by
  cases kind <;> simp only [releaseSaved] <;> split <;> exact ⟨rfl, rfl, rfl, rfl⟩

theorem releaseSaved_dirty :
    ((block.releaseSaved kind).dirty = true → block.dirty = true) ∧
      ((block.releaseSaved kind).dirty = false → block.Unedited) := by
  cases kind <;> simp only [releaseSaved] <;> split
  · rename_i hsa
    exact ⟨fun hd => (nomatch hd), fun _ => .inr hsa.1⟩
  · exact ⟨id, .inl⟩
  · rename_i hsa
    exact ⟨fun hd => (nomatch hd), fun _ => .inr hsa⟩
  · exact ⟨id, .inl⟩

end Block

namespace Saved

variable {w w' : World τ ε}

theorem image (h : Saved w) {id} {next : Save ε} {stragglers : List BlockId}
    (hw : ({ w with save := next } : World τ ε).written = []) (hl : next.list = w.save.list)
    (hima : ∀ list nodesWritten images, next = .imaging list nodesWritten images →
      ∃ before, w.save = .imaging list nodesWritten before ∧
        (nodesWritten = true → id.kind ≠ .node) ∧
        images = update before id (some (w.blocks id).records)) :
    Saved { w with
      blocks := update w.blocks id ((w.blocks id).image id.kind)
      save := next
      stragglers } := by
  have hb : ∀ {other}, other ≠ id →
      update w.blocks id ((w.blocks id).image id.kind) other = w.blocks other :=
    fun hne => update_of_ne hne _ _
  have hr := update_related (fun a b : Block ε => b.records = a.records) (fun _ => rfl)
    ((w.blocks id).image_records id.kind)
  have hc := update_related (fun a b : Block ε => b.dirty = false → a.dirty = false)
    (fun _ hc => hc) ((w.blocks id).image_dirty id.kind)
  have hno : ∀ tree, tree ∉ ({ w with save := next } : World τ ε).written := by
    rw [hw]
    nofun
  refine ⟨?_, ?_, h.hash, hl ▸ h.nodup, fun tree hmem => absurd hmem (hno tree), ?_⟩
  · exact (forall_update_iff w.blocks fun _ block => block.savedEdits ≤ block.edits).mpr
      ⟨Nat.le_of_eq (Block.image_edits _ _).symm, fun other _ => h.sequence other⟩
  · intro other ho
    obtain ⟨hhe, hsign, _⟩ := h.clean other (hc other ho)
    exact ⟨hhe.trans (hr other).symm, hsign.trans (hr other).symm,
      fun tree hmem => absurd hmem (hno tree)⟩
  · intro list nodesWritten images him
    obtain ⟨before, hbe, hk, rfl⟩ := hima list nodesWritten images him
    obtain ⟨hall, hn⟩ := h.images list nodesWritten before hbe
    refine ⟨fun other image hi hsi => Eq.trans ?_ (hr other).symm, fun hwr other ho ho' hsi => ?_⟩
    · rcases update_eq_some hi with ⟨rfl, rfl⟩ | ⟨hid, hi⟩
      · rfl
      · simp only [hb hid] at hsi
        exact hall other image hi hsi
    · have hid : other ≠ id := fun heq => hk hwr (heq ▸ ho')
      simp only [hb hid] at hsi
      exact (hn hwr other ho ho' hsi).trans (hr other).symm

/-- The release of a block: where no edit marked it since its image, every written tree
stores it as it is. -/
theorem release (h : Saved w) {id rest} (hsa : w.save = .releasing (id :: rest)) :
    Saved { w with
      blocks := update w.blocks id ((w.blocks id).releaseSaved id.kind)
      save := .releasing rest } := by
  have hl : w.save.list = id :: rest := by rw [hsa]; rfl
  obtain ⟨hn, hre⟩ := nodup_cons.mp (hl ▸ h.nodup)
  have hw : w.written = [w.tree, w.signature] := by
    unfold World.written
    rw [hsa]
  have hb : ∀ {other}, other ≠ id →
      update w.blocks id ((w.blocks id).releaseSaved id.kind) other = w.blocks other :=
    fun hne => update_of_ne hne _ _
  obtain ⟨hrecords, -, hedits, hsaved⟩ := (w.blocks id).releaseSaved_keeps id.kind
  have hr := update_related (fun a b : Block ε => b.records = a.records) (fun _ => rfl) hrecords
  have hc : ∀ other,
      (update w.blocks id ((w.blocks id).releaseSaved id.kind) other).dirty = false →
      ∀ tree ∈ w.written, tree.read other =
        (update w.blocks id ((w.blocks id).releaseSaved id.kind) other).records := by
    intro other ho tree hmem
    refine Eq.trans ?_ (hr other).symm
    by_cases hid : other = id
    · subst hid
      rw [update_self] at ho
      exact h.written tree hmem other (by simp [hl]) ((Block.releaseSaved_dirty _ _).2 ho)
    · rw [hb hid] at ho
      exact (h.clean other ho).2.2 tree hmem
  rw [hw] at hc
  refine ⟨?_, fun other ho => ⟨hc other ho _ (by simp), hc other ho _ (by simp), hc other ho⟩,
    h.hash, hre, ?_, nofun⟩
  · refine (forall_update_iff w.blocks fun _ block => block.savedEdits ≤ block.edits).mpr
      ⟨?_, fun other _ => h.sequence other⟩
    rw [hedits, hsaved]
    exact h.sequence id
  · intro tree htree other ho hsi
    have hne : other ≠ id := fun heq => hn (heq ▸ ho)
    simp only [hb hne] at hsi
    have ho : other ∈ w.save.list := by rw [hl]; exact mem_cons_of_mem _ ho
    exact (h.written tree (hw ▸ htree) other ho hsi).trans (hr other).symm

theorem read_writeAddresses (kind : BlockKind) (list : List BlockId)
    (images : BlockId → Option (List ε)) (id : BlockId) :
    (w.writeAddresses kind list images).tree.read id =
      if id.kind = kind ∧ id ∈ list then (images id).getD [] else w.tree.read id := by
  simp only [World.writeAddresses, TreeRecord.read]
  split <;> rfl

theorem writeAddresses (h : Saved w) {kind list nodesWritten} {images : BlockId → Option (List ε)}
    (hsa : w.save = .imaging list nodesWritten images) (hima : World.Imaged kind list images) :
    Saved (w.writeAddresses kind list images) ∧
      ∀ id ∈ list, id.kind = kind → (w.blocks id).Unedited →
        (w.writeAddresses kind list images).tree.read id = (w.blocks id).records := by
  obtain ⟨hall, hn⟩ := h.images list nodesWritten images hsa
  have hst : ∀ id ∈ list, id.kind = kind → (w.blocks id).Unedited →
      (w.writeAddresses kind list images).tree.read id = (w.blocks id).records := by
    intro id hid hk hsi
    rw [read_writeAddresses, if_pos ⟨hk, hid⟩]
    obtain ⟨image, hi⟩ := Option.isSome_iff_exists.mp (hima id hid hk)
    rw [hi]
    exact hall id image hi hsi
  have hw : (w.writeAddresses kind list images).written = [] := by
    unfold World.written
    rw [show (w.writeAddresses kind list images).save = w.save from rfl, hsa]
  refine ⟨⟨h.sequence, ?_, ?_, h.nodup, ?_, ?_⟩, hst⟩
  · intro id hid
    have hid' : (w.blocks id).dirty = false := hid
    obtain ⟨htree, hsig, _⟩ := h.clean id hid'
    refine ⟨?_, hsig, fun tree hmem => by rw [hw] at hmem; cases hmem⟩
    by_cases hmem : id.kind = kind ∧ id ∈ list
    · exact hst id hmem.2 hmem.1 (.inl hid')
    · unfold World.Holds
      rw [read_writeAddresses, if_neg hmem]
      exact htree
  · intro hc
    simp only [World.writeAddresses, Bool.or_eq_false_iff, any_eq_false, decide_eq_true_eq] at hc ⊢
    rw [h.hash hc.1]
    funext id
    rw [if_neg]
    exact fun hmem => hc.2 id hmem.2 hmem.1
  · intro tree hmem
    rw [hw] at hmem
    cases hmem
  · intro others wrote before him
    have heq : w.save = .imaging others wrote before := him
    rw [hsa] at heq
    cases heq
    refine ⟨hall, fun hwr id hid hk hsi => ?_⟩
    by_cases hsam : id.kind = kind
    · exact hst id hid hsam hsi
    · unfold World.Holds
      rw [read_writeAddresses, if_neg fun hmem => hsam hmem.1]
      exact hn hwr id hid hk hsi

end Saved

end Lore.State
