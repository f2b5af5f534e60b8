import Mathlib.Logic.Function.Basic
import Lore.Lib.Machine

/-!
# Save — the edits of a State's blocks and the save that writes them

A State keeps its nodes in blocks, and the metadata of its files in blocks of their own. An
edit writes a block under its lock and marks it dirty; where the block turned dirty it then
registers it for the next save, and marks the State dirty, each under a lock of its own. A
save lists the registered blocks, threads the ones that freed a slot onto the chain of
unused blocks, takes an image of each, writes the lists of their addresses, the tree and the
State, and then releases the blocks no edit marked since their images.

Each of these is a step here, so that a run interleaves any number of edits with a save
that may fail, or be dropped, wherever it awaits. What a block holds is the list of the edits
made to it, its records and names being a function of those, and an address stands for the
content it names.
-/

namespace Lore.State

open Lore.Lib

inductive BlockKind where
  | node
  | fileMetadata
deriving DecidableEq, Repr

structure BlockId where
  kind : BlockKind
  index : Nat
deriving DecidableEq, Repr

/-! ## Blocks -/

/-- `NodeBlock` and `NodeFileMetadataBlock`, with what is under the block's lock and the
registered bit beside it. -/
structure Block (ε : Type) where
  /-- The edits made to the records and names. -/
  records : List ε
  dirty : Bool
  /-- The edit sequence, a `u64`: `edits_le_length` bounds it by the steps of a run. -/
  edits : Nat
  /-- The edit sequence the last image holds. -/
  savedEdits : Nat
  /-- A slot was freed while the block was full and off the chain of unused blocks. -/
  firstUnusedNode : Bool
  registered : Bool
deriving DecidableEq, Repr

namespace Block

variable {ε : Type}

/-- A block that holds `records` as they are stored. -/
def loaded (records : List ε) : Block ε := ⟨records, false, 0, 0, false, false⟩

/-- `mark_dirty`: whether the block turned dirty is `¬ block.dirty`. -/
def markDirty (block : Block ε) : Block ε := { block with dirty := true, edits := block.edits + 1 }

/-- An edit and its `mark_dirty`, under one hold of the block's lock. `frees` says whether the
edit frees a slot of a full block. -/
def write (block : Block ε) (edit : ε) (frees : Bool) : Block ε :=
  { block with
    records := block.records ++ [edit]
    firstUnusedNode := block.firstUnusedNode || frees }.markDirty

/-- `saving` and `image` of a node block, under one hold; `read_saving` of a file metadata
block. -/
def image (kind : BlockKind) (block : Block ε) : Block ε :=
  match kind with
  | .node => { block.markDirty with savedEdits := block.markDirty.edits }
  | .fileMetadata => { block with savedEdits := block.edits }

/-- `release_saved`. -/
def releaseSaved (kind : BlockKind) (block : Block ε) : Block ε :=
  match kind with
  | .node =>
      if block.edits = block.savedEdits ∧ block.firstUnusedNode = false then
        { block with dirty := false }
      else block
  | .fileMetadata =>
      if block.edits = block.savedEdits then { block with dirty := false } else block

end Block

/-! ## The State -/

/-- The tree record: the lists of block addresses it names, and how many blocks it has. An
address that is absent, or past the end of its list, is a block with nothing stored. -/
structure TreeRecord (ε : Type) where
  address : BlockId → Option (List ε)
  blockCount : Nat

/-- What a block is loaded as. -/
def TreeRecord.read {ε : Type} (tree : TreeRecord ε) (id : BlockId) : List ε :=
  (tree.address id).getD []

/-- What a writer has left to do once its block turned dirty: `block_modified`. -/
inductive Registration where
  | done
  | claim (id : BlockId)
  | push (id : BlockId)
  | mark (id : BlockId)
deriving DecidableEq, Repr

/-- The block a registration is of. -/
def Registration.block? : Registration → Option BlockId
  | .done => none
  | .claim id => some id
  | .push id => some id
  | .mark id => some id

/-- How far `serialize_keeping` has come. `list` are the blocks it writes. -/
inductive Save (ε : Type) where
  | idle
  /-- The State was found dirty. -/
  | begun
  | listed (list : List BlockId)
  /-- The blocks were counted; `thread_unused_blocks` runs. -/
  | threading (list : List BlockId) (blockCount : Nat)
  /-- The head of the chain was linked to the blocks threaded. -/
  | linking (list : List BlockId) (blockCount : Nat) (head : Nat)
  | imaging (list : List BlockId) (nodesWritten : Bool) (images : BlockId → Option (List ε))
  | blocksWritten (list : List BlockId)
  | treeWritten (list : List BlockId)
  /-- The State's flag was cleared, and is set again should the save not come to its end. -/
  | cleared (list : List BlockId) (buffer : TreeRecord ε)
  /-- `rest` are the blocks still to release. -/
  | releasing (rest : List BlockId)
  /-- The registrations are filtered under the runtime lock. -/
  | filtering (kept rest : List BlockId)
  /-- The runtime lock was dropped; `registered` says whether any block stayed registered. -/
  | settling (registered : Bool)

/-- A State with the writers of `τ` and the save. `none` is the save as a writer. -/
structure World (τ ε : Type) where
  blocks : BlockId → Block ε
  tree : TreeRecord ε
  /-- `TreeFlags::Dirty` -/
  treeDirty : Bool
  /-- The tree the State's data names, `hash_tree`. -/
  hashTree : TreeRecord ε
  /-- `StateFlags::Dirty` -/
  stateDirty : Bool
  /-- `block_dirty` and `block_file_metadata_dirty`. -/
  blockDirty : List BlockId
  /-- The tree of the State last written. -/
  signature : TreeRecord ε
  writers : Option τ → Registration
  save : Save ε
  /-- Blocks whose tasks outlived the save they belong to: dropped, it aborts them, and one
  that runs may still take its image. -/
  stragglers : List BlockId

inductive Action (τ ε : Type) where
  /-- An edit of a block, by a writer. -/
  | write (writer : τ) (id : BlockId) (edit : ε) (frees : Bool)
  /-- `allocate_fresh_block`, to its registration. -/
  | allocate (writer : τ)
  /-- The steps of `block_modified`. -/
  | claim (writer : Option τ)
  | push (writer : Option τ)
  | mark (writer : Option τ)
  /-- The steps of `serialize_keeping`. -/
  | begin
  | list
  | count
  | thread (id : BlockId) (link : Option ε)
  | link (head : Nat) (edit : ε)
  | adopt
  | threaded
  | image (id : BlockId)
  | writeNodes
  | writeFileMetadata
  | writeTree
  | clear
  | writeState
  | release
  | releaseEnd
  | filter
  | filterEnd
  | settle
  /-- A write or a load of the save fails, or the save is dropped. -/
  | fail
  | straggle (id : BlockId)
  | abort (id : BlockId)

namespace World

variable {τ ε : Type} [DecidableEq τ]

variable (w : World τ ε)

def setBlock (id : BlockId) (block : Block ε) : World τ ε :=
  { w with blocks := Function.update w.blocks id block }

def setWriter (writer : Option τ) (registration : Registration) : World τ ε :=
  { w with writers := Function.update w.writers writer registration }

/-- An edit by `writer`, who registers the block where it turned dirty. -/
def edit (w : World τ ε) (writer : Option τ) (id : BlockId) (edit : ε) (frees : Bool) : World τ ε :=
  let block := w.blocks id
  (w.setBlock id (block.write edit frees)).setWriter writer
    (if block.dirty then .done else .claim id)

/-- The addresses of the imaged blocks of `kind`, put into the tree's list. -/
def writeAddresses (kind : BlockKind) (list : List BlockId)
    (images : BlockId → Option (List ε)) : World τ ε :=
  { w with
    tree := { w.tree with
      address := fun id => if id.kind = kind ∧ id ∈ list then images id else w.tree.address id }
    treeDirty := w.treeDirty || list.any (·.kind = kind) }

/-- Every block of `kind` in the list has its image. -/
def Imaged (kind : BlockKind) (list : List BlockId) (images : BlockId → Option (List ε)) : Prop :=
  ∀ id ∈ list, id.kind = kind → (images id).isSome = true

instance (kind : BlockKind) (list : List BlockId) (images : BlockId → Option (List ε)) :
    Decidable (Imaged kind list images) :=
  inferInstanceAs (Decidable (∀ id ∈ list, id.kind = kind → (images id).isSome = true))

/-- The runtime lock is not held by the save. -/
def runtimeFree : Bool :=
  match w.save with
  | .filtering _ _ => false
  | _ => true

/-- The steps of the writers. -/
def writerStep : Action τ ε → Option (World τ ε)
  | .write writer id edit frees =>
      if w.writers (some writer) = .done ∧ id.index < w.tree.blockCount then
        some (w.edit (some writer) id edit frees)
      else none
  | .allocate writer =>
      if w.writers (some writer) = .done ∧ w.runtimeFree = true then
        let id : BlockId := ⟨.node, w.tree.blockCount⟩
        some (({ w with
          tree := { w.tree with blockCount := w.tree.blockCount + 1 }
          treeDirty := true }.setBlock id (Block.loaded []).markDirty).setWriter (some writer)
            (.claim id))
      else none
  | .claim writer =>
      match w.writers writer with
      | .claim id =>
          if (w.blocks id).registered then some (w.setWriter writer (.mark id))
          else
            some ((w.setBlock id { w.blocks id with registered := true }).setWriter writer
              (.push id))
      | _ => none
  | .push writer =>
      match w.writers writer with
      | .push id =>
          if w.runtimeFree then
            some ({ w with blockDirty := w.blockDirty ++ [id] }.setWriter writer (.mark id))
          else none
      | _ => none
  | .mark writer =>
      match w.writers writer with
      | .mark _ => some ({ w with stateDirty := true }.setWriter writer .done)
      | _ => none
  | _ => none

/-- The steps of a save, to the images of its blocks. -/
def listStep : Action τ ε → Option (World τ ε)
  | .begin =>
      match w.save, w.stragglers with
      | .idle, [] => some { w with save := if w.stateDirty then .begun else .idle }
      | _, _ => none
  | .list =>
      match w.save with
      | .begun => some { w with save := .listed w.blockDirty }
      | _ => none
  | .count =>
      match w.save with
      | .listed list => some { w with save := .threading list w.tree.blockCount }
      | _ => none
  | .thread id link =>
      match w.save with
      | .threading list _ =>
          if id ∈ list ∧ id.kind = .node ∧ (w.blocks id).firstUnusedNode = true then
            let block := { w.blocks id with firstUnusedNode := false }
            some (w.setBlock id (link.elim block (block.write · false)))
          else none
      | _ => none
  | .link head edit =>
      match w.save with
      | .threading list blockCount =>
          if head < w.tree.blockCount then
            some { w.edit none ⟨.node, head⟩ edit false with save := .linking list blockCount head }
          else none
      | _ => none
  | .adopt =>
      match w.save with
      | .linking list blockCount head =>
          if w.writers none = .done then
            let list := if head < blockCount ∧ ⟨.node, head⟩ ∉ list then list ++ [⟨.node, head⟩]
              else list
            some { w with save := .imaging list false fun _ => none }
          else none
      | _ => none
  | .threaded =>
      match w.save with
      | .threading list _ => some { w with save := .imaging list false fun _ => none }
      | _ => none
  | _ => none

/-- The steps of a save that write. -/
def saveStep : Action τ ε → Option (World τ ε)
  | .image id =>
      match w.save with
      | .imaging list nodesWritten images =>
          if id ∈ list ∧ images id = none ∧ (id.kind = .node ↔ nodesWritten = false) then
            some { w.setBlock id ((w.blocks id).image id.kind) with
              save := .imaging list nodesWritten
                (Function.update images id (some (w.blocks id).records)) }
          else none
      | _ => none
  | .writeNodes =>
      match w.save with
      | .imaging list false images =>
          if Imaged .node list images then
            some { w.writeAddresses .node list images with save := .imaging list true images }
          else none
      | _ => none
  | .writeFileMetadata =>
      match w.save with
      | .imaging list true images =>
          if Imaged .fileMetadata list images then
            some { w.writeAddresses .fileMetadata list images with save := .blocksWritten list }
          else none
      | _ => none
  | .writeTree =>
      match w.save with
      | .blocksWritten list =>
          some { w with
            hashTree := if w.treeDirty then w.tree else w.hashTree
            stateDirty := w.stateDirty || w.treeDirty
            save := .treeWritten list }
      | _ => none
  | .clear =>
      match w.save with
      | .treeWritten list =>
          some { w with stateDirty := false, save := .cleared list w.hashTree }
      | _ => none
  | .writeState =>
      match w.save with
      | .cleared list buffer => some { w with signature := buffer, save := .releasing list }
      | _ => none
  | _ => none

/-- The steps of a save once the State is written: `release_serialized_blocks`. -/
def releaseStep : Action τ ε → Option (World τ ε)
  | .release =>
      match w.save with
      | .releasing (id :: rest) =>
          some { w.setBlock id ((w.blocks id).releaseSaved id.kind) with save := .releasing rest }
      | _ => none
  | .releaseEnd =>
      match w.save with
      | .releasing [] => some { w with save := .filtering [] w.blockDirty }
      | _ => none
  | .filter =>
      match w.save with
      | .filtering kept (id :: rest) =>
          -- `keep_registration`, under the block's read lock
          if (w.blocks id).dirty then some { w with save := .filtering (kept ++ [id]) rest }
          else
            some { w.setBlock id { w.blocks id with registered := false } with
              save := .filtering kept rest }
      | _ => none
  | .filterEnd =>
      match w.save with
      | .filtering kept [] =>
          some { w with blockDirty := kept, save := .settling (!kept.isEmpty) }
      | _ => none
  | .settle =>
      match w.save with
      | .settling registered =>
          some { w with stateDirty := w.stateDirty || registered, save := .idle }
      | _ => none
  | _ => none

/-- The ends of a save that fails or is dropped, which an await comes before: none follows
the write of the State, and none stands between the link of the head and its adoption. -/
def failStep : Action τ ε → Option (World τ ε)
  | .fail =>
      match w.save with
      | .begun | .listed _ | .threading _ _ | .blocksWritten _ | .treeWritten _ =>
          some { w with save := .idle }
      | .imaging list _ images =>
          some { w with save := .idle, stragglers := list.filter (images · = none) }
      | .cleared _ _ => some { w with stateDirty := true, save := .idle }
      | _ => none
  | .straggle id =>
      if id ∈ w.stragglers then
        some { w.setBlock id ((w.blocks id).image id.kind) with
          stragglers := w.stragglers.erase id }
      else none
  | .abort id =>
      if id ∈ w.stragglers then some { w with stragglers := w.stragglers.erase id } else none
  | _ => none

/-- One step of the State. -/
def step (action : Action τ ε) : Option (World τ ε) :=
  match action with
  | .write .. | .allocate _ | .claim _ | .push _ | .mark _ => w.writerStep action
  | .begin | .list | .count | .thread .. | .link .. | .adopt | .threaded => w.listStep action
  | .image _ | .writeNodes | .writeFileMetadata | .writeTree | .clear | .writeState =>
      w.saveStep action
  | .release | .releaseEnd | .filter | .filterEnd | .settle => w.releaseStep action
  | .fail | .straggle _ | .abort _ => w.failStep action

/-- What a step that can happen finds, and does. -/
inductive Moves (w : World τ ε) : Action τ ε → World τ ε → Prop
  | write {writer id e frees}
      (hguard : w.writers (some writer) = .done ∧ id.index < w.tree.blockCount) :
      Moves w (.write writer id e frees) (w.edit (some writer) id e frees)
  | allocate {writer} (hguard : w.writers (some writer) = .done ∧ w.runtimeFree = true) :
      Moves w (.allocate writer)
        (({ w with
          tree := { w.tree with blockCount := w.tree.blockCount + 1 }
          treeDirty := true }.setBlock ⟨.node, w.tree.blockCount⟩
            (Block.loaded []).markDirty).setWriter (some writer) (.claim ⟨.node, w.tree.blockCount⟩))
  | claimHeld {writer id} (hwriter : w.writers writer = .claim id)
      (hheld : (w.blocks id).registered = true) :
      Moves w (.claim writer) (w.setWriter writer (.mark id))
  | claimNew {writer id} (hwriter : w.writers writer = .claim id)
      (hfree : ¬(w.blocks id).registered = true) :
      Moves w (.claim writer)
        ((w.setBlock id { w.blocks id with registered := true }).setWriter writer (.push id))
  | push {writer id} (hwriter : w.writers writer = .push id) (hfree : w.runtimeFree = true) :
      Moves w (.push writer)
        ({ w with blockDirty := w.blockDirty ++ [id] }.setWriter writer (.mark id))
  | mark {writer id} (hwriter : w.writers writer = .mark id) :
      Moves w (.mark writer) ({ w with stateDirty := true }.setWriter writer .done)
  | begin (hsave : w.save = .idle) (hnone : w.stragglers = []) :
      Moves w .begin { w with save := if w.stateDirty then .begun else .idle }
  | list (hsave : w.save = .begun) : Moves w .list { w with save := .listed w.blockDirty }
  | count {list} (hsave : w.save = .listed list) :
      Moves w .count { w with save := .threading list w.tree.blockCount }
  | thread {id link list blockCount} (hsave : w.save = .threading list blockCount)
      (hguard : id ∈ list ∧ id.kind = .node ∧ (w.blocks id).firstUnusedNode = true) :
      Moves w (.thread id link) (w.setBlock id
        (link.elim { w.blocks id with firstUnusedNode := false }
          ({ w.blocks id with firstUnusedNode := false }.write · false)))
  | link {head e list blockCount} (hsave : w.save = .threading list blockCount)
      (hindex : head < w.tree.blockCount) :
      Moves w (.link head e)
        { w.edit none ⟨.node, head⟩ e false with save := .linking list blockCount head }
  | adopt {list blockCount head} (hsave : w.save = .linking list blockCount head)
      (hdone : w.writers none = .done) :
      Moves w .adopt { w with
        save := .imaging (if head < blockCount ∧ ⟨.node, head⟩ ∉ list then list ++ [⟨.node, head⟩]
          else list) false fun _ => none }
  | threaded {list blockCount} (hsave : w.save = .threading list blockCount) :
      Moves w .threaded { w with save := .imaging list false fun _ => none }
  | image {id list nodesWritten images} (hsave : w.save = .imaging list nodesWritten images)
      (hguard : id ∈ list ∧ images id = none ∧ (id.kind = .node ↔ nodesWritten = false)) :
      Moves w (.image id) { w.setBlock id ((w.blocks id).image id.kind) with
        save := .imaging list nodesWritten
          (Function.update images id (some (w.blocks id).records)) }
  | writeNodes {list images} (hsave : w.save = .imaging list false images)
      (himaged : Imaged .node list images) :
      Moves w .writeNodes
        { w.writeAddresses .node list images with save := .imaging list true images }
  | writeFileMetadata {list images} (hsave : w.save = .imaging list true images)
      (himaged : Imaged .fileMetadata list images) :
      Moves w .writeFileMetadata
        { w.writeAddresses .fileMetadata list images with save := .blocksWritten list }
  | writeTree {list} (hsave : w.save = .blocksWritten list) :
      Moves w .writeTree { w with
        hashTree := if w.treeDirty then w.tree else w.hashTree
        stateDirty := w.stateDirty || w.treeDirty
        save := .treeWritten list }
  | clear {list} (hsave : w.save = .treeWritten list) :
      Moves w .clear { w with stateDirty := false, save := .cleared list w.hashTree }
  | writeState {list buffer} (hsave : w.save = .cleared list buffer) :
      Moves w .writeState { w with signature := buffer, save := .releasing list }
  | release {id rest} (hsave : w.save = .releasing (id :: rest)) :
      Moves w .release
        { w.setBlock id ((w.blocks id).releaseSaved id.kind) with save := .releasing rest }
  | releaseEnd (hsave : w.save = .releasing []) :
      Moves w .releaseEnd { w with save := .filtering [] w.blockDirty }
  | keep {kept id rest} (hsave : w.save = .filtering kept (id :: rest))
      (hdirty : (w.blocks id).dirty = true) :
      Moves w .filter { w with save := .filtering (kept ++ [id]) rest }
  | drop {kept id rest} (hsave : w.save = .filtering kept (id :: rest))
      (hclean : ¬(w.blocks id).dirty = true) :
      Moves w .filter { w.setBlock id { w.blocks id with registered := false } with
        save := .filtering kept rest }
  | filterEnd {kept} (hsave : w.save = .filtering kept []) :
      Moves w .filterEnd { w with blockDirty := kept, save := .settling (!kept.isEmpty) }
  | settle {registered} (hsave : w.save = .settling registered) :
      Moves w .settle { w with stateDirty := w.stateDirty || registered, save := .idle }
  /-- The save ends early. -/
  | ends {action w'} (hends : w.failStep action = some w') : Moves w action w'

theorem step_moves {w w' : World τ ε} {action : Action τ ε} (h : w.step action = some w') :
    w.Moves action w' := by
  cases action with
  | fail | straggle | abort => exact .ends h
  | begin | writeTree =>
    simp only [step, listStep, saveStep] at h
    split at h <;> cases h
    constructor <;> assumption
  | adopt =>
    simp only [step, listStep] at h
    split at h
    · split at h <;> cases h
      exact .adopt ‹_› ‹_›
    · cases h
  | _ =>
    simp only [step, writerStep, listStep, saveStep, releaseStep] at h
    (repeat' split at h) <;> cases h
    all_goals constructor <;> assumption

/-- A State as `deserialize` makes it from the State stored with `tree`. -/
def deserialized (tree : TreeRecord ε) : World τ ε where
  blocks id := .loaded (tree.read id)
  tree := tree
  treeDirty := false
  hashTree := tree
  stateDirty := false
  blockDirty := []
  signature := tree
  writers _ := .done
  save := .idle
  stragglers := []

theorem Moves.edits_le {w w' : World τ ε} {action : Action τ ε} (h : w.Moves action w')
    (id : BlockId) : (w'.blocks id).edits ≤ (w.blocks id).edits + 1 := by
  have hset : ∀ {other block}, block.edits ≤ (w.blocks other).edits + 1 →
      ((w.setBlock other block).blocks id).edits ≤ (w.blocks id).edits + 1 := by
    intro other block hle
    exact update_related (fun before after : Block ε => after.edits ≤ before.edits + 1)
      (fun _ => Nat.le_succ _) hle id
  have himage : ∀ kind (block : Block ε), (block.image kind).edits ≤ block.edits + 1 := by
    intro kind block
    cases kind <;> simp [Block.image, Block.markDirty]
  cases h with
  | write | link => exact hset (Nat.le_refl _)
  | allocate => exact hset (Nat.le_add_left 1 _)
  | claimNew | drop => exact hset (Nat.le_succ _)
  | @thread other link =>
    apply hset
    cases link <;> simp [Block.write, Block.markDirty]
  | @image other => exact hset (himage other.kind _)
  | @release other =>
    apply hset
    unfold Block.releaseSaved
    split <;> split <;> exact Nat.le_succ _
  | ends hends =>
    unfold failStep at hends
    split at hends
    case h_1 => split at hends <;> cases hends <;> exact Nat.le_succ _
    case h_2 other =>
      obtain ⟨-, rfl⟩ := guarded hends
      exact hset (himage other.kind _)
    case h_3 =>
      obtain ⟨-, rfl⟩ := guarded hends
      exact Nat.le_succ _
    case h_4 => cases hends
  | _ => exact Nat.le_succ _

/-- No run of fewer than `2 ^ 64` steps wraps an edit sequence, nor the one saved of it. -/
theorem edits_le_length {tree : TreeRecord ε} {actions : List (Action τ ε)} {w : World τ ε}
    (hrun : run step (deserialized tree) actions = some w) (id : BlockId) :
    (w.blocks id).edits ≤ actions.length := by
  have h := run_le_length step (fun _ _ _ hstep => (step_moves hstep).edits_le id) hrun
  rwa [show ((deserialized tree : World τ ε).blocks id).edits = 0 from rfl, Nat.zero_add] at h

end World

end Lore.State
