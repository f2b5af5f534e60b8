import Lore.Storage.PackStore

/-!
# PackChanges — what a step of a packstore is made of

The operations of a packstore are made of a few changes: a packfile opened, discarded or
emptied, one synced, an id put on a list or taken off it. `Change` lists them, each with what
is known where it is made, and every step is a chain of them. An invariant is shown for each
change, and holds after every step.
-/

namespace Lore.Storage

open Lore.Lib List Option

namespace PackStore

variable {s t : PackStore} {id other : Nat} {file : PackFile}

/-! ## The packfiles by id -/

theorem file?_eq_some : s.file? id = some file ↔ 0 < id ∧ s.packfile[id - 1]? = some file := by
  unfold file?
  by_cases hid : id = 0
  · simp
  · rw [if_neg hid]
    exact ⟨fun h => ⟨Nat.pos_of_ne_zero hid, h⟩, fun h => h.2⟩

theorem le_length_of_file? (h : s.file? id = some file) : 0 < id ∧ id ≤ s.packfile.length := by
  obtain ⟨hpos, hget⟩ := file?_eq_some.mp h
  have := (List.getElem?_eq_some_iff.mp hget).1
  omega

theorem file?_modifyFile (s : PackStore) (id other : Nat) (f : PackFile → PackFile) :
    (s.modifyFile other f).file? id = if id = other then (s.file? id).map f else s.file? id := by
  unfold modifyFile file?
  by_cases hid : id = 0
  · by_cases ho : other = 0 <;> simp [hid]
  · by_cases ho : other = 0
    · simp [ho, hid]
    · simp only [if_neg hid, if_neg ho]
      by_cases heq : id = other
      · simp [heq]
      · have hi : ¬ other - 1 = id - 1 := by omega
        simp [heq, hi]

theorem file?_modifyFile_of_ne (s : PackStore) (hne : id ≠ other) (f : PackFile → PackFile) :
    (s.modifyFile other f).file? id = s.file? id := by
  rw [file?_modifyFile, if_neg hne]

theorem file?_openNext (s : PackStore) (id : Nat) :
    s.openNext.file? id = if id = s.packfile.length + 1 then
        some (.new (if s.onDisk then s.disk.length (s.packfile.length + 1) else 0))
      else s.file? id := by
  unfold openNext file?
  by_cases hid : id = 0
  · simp [hid]
  · by_cases heq : id = s.packfile.length + 1
    · simp [heq]
    · rw [if_neg heq]
      by_cases hlt : id - 1 < s.packfile.length
      · rw [getElem?_append_left hlt]
      · rw [getElem?_eq_none (by simp; omega), getElem?_eq_none (by omega)]

theorem file?_openNext_of_file? {file} (hf : s.file? id = some file) :
    s.openNext.file? id = some file := by
  have := (le_length_of_file? hf).2
  rw [file?_openNext, if_neg (by omega), hf]

theorem mem_writeable_openNext : id ∈ s.openNext.writeable ↔ id ∈ s.writeable
    ∨ id = s.packfile.length + 1
      ∧ (if s.onDisk then s.disk.length (s.packfile.length + 1) else 0) < packstoreSizeLimit := by
  by_cases hl : (if s.onDisk then s.disk.length (s.packfile.length + 1) else 0)
      < packstoreSizeLimit
  · have heq : s.openNext.writeable = s.writeable ++ [s.packfile.length + 1] := if_pos hl
    rw [heq, mem_append, mem_singleton]
    exact or_congr_right ⟨fun hid => ⟨hid, hl⟩, And.left⟩
  · have heq : s.openNext.writeable = s.writeable := if_neg hl
    rw [heq]
    exact ⟨.inl, fun hid => hid.resolve_right fun hnew => hl hnew.2⟩

theorem file?_discardLast (s : PackStore) (removes : Nat → Bool) (id : Nat) :
    (s.discardLast removes).file? id = if id = s.packfile.length then none else s.file? id := by
  unfold discardLast file?
  by_cases hid : id = 0
  · simp [hid]
  · simp only [if_neg hid, getElem?_dropLast]
    split
    case isTrue hlt => rw [if_neg (by omega)]
    case isFalse hge =>
      split
      · rfl
      · rw [getElem?_eq_none (by omega)]

theorem file?_load (s : PackStore) (id : Nat) :
    s.load.file? id = if 0 < id ∧ id ≤ s.disk.highest then
        some (if s.released.any (·.id = id) then
          { PackFile.new (s.disk.length id) with dirty := true, settled := false }
        else .new (s.disk.length id))
      else none := by
  unfold load file?
  by_cases hid : id = 0
  · simp [hid]
  · simp only [if_neg hid, getElem?_map]
    split
    case isTrue h =>
      rw [getElem?_range (by omega)]
      simp [Nat.sub_add_cancel h.1]
    case isFalse h =>
      rw [getElem?_eq_none (by simp; omega)]
      rfl

section

variable (s id) (f : PackFile → PackFile)

@[simp] theorem modifyFile_onDisk : (s.modifyFile id f).onDisk = s.onDisk := by
  unfold modifyFile
  split <;> rfl

@[simp] theorem modifyFile_disk : (s.modifyFile id f).disk = s.disk := by
  unfold modifyFile
  split <;> rfl

@[simp] theorem modifyFile_ranges : (s.modifyFile id f).ranges = s.ranges := by
  unfold modifyFile
  split <;> rfl

@[simp] theorem modifyFile_writeable : (s.modifyFile id f).writeable = s.writeable := by
  unfold modifyFile
  split <;> rfl

@[simp] theorem modifyFile_owed : (s.modifyFile id f).owed = s.owed := by
  unfold modifyFile
  split <;> rfl

@[simp] theorem modifyFile_length : (s.modifyFile id f).packfile.length = s.packfile.length := by
  unfold modifyFile
  split
  · rfl
  · exact length_modify _ _ _

end

/-- A sync finds no packfile, or leaves it synced, with its ranges covered where it was dirty
and nothing failed. -/
theorem syncFile_rule {P : PackStore → Prop} (id : Nat) (reports : Bool) (hnone : P s)
    (hsynced : P (s.modifyFile id fun file => (file.sync s.onDisk reports).1))
    (hcovered : P { s.modifyFile id fun file => (file.sync s.onDisk reports).1 with
      ranges := s.cover id, disk := if s.onDisk then s.disk.sync id else s.disk }) :
    P (s.syncFile id reports).1 := by
  unfold syncFile
  cases s.file? id with
  | none => exact hnone
  | some file =>
    dsimp only
    split
    · exact hcovered
    · exact hsynced

theorem settle_rule {P : PackStore → Prop} {id : Nat} {reports : Bool}
    (hsync : P (s.syncFile id reports).1)
    (hsettled : P ((s.syncFile id reports).1.modifyFile id
      fun file => { file with settled := true })) : P (s.settle id reports) := by
  unfold settle
  dsimp only
  split
  · exact hsettled
  · exact hsync

theorem syncFile_writeable (s : PackStore) (id : Nat) (reports : Bool) :
    (s.syncFile id reports).1.writeable = s.writeable :=
  syncFile_rule (P := (·.writeable = s.writeable)) id reports rfl (modifyFile_writeable s id _)
    (modifyFile_writeable s id _)

theorem syncFile_owed (s : PackStore) (id : Nat) (reports : Bool) :
    (s.syncFile id reports).1.owed = s.owed :=
  syncFile_rule (P := (·.owed = s.owed)) id reports rfl (modifyFile_owed s id _)
    (modifyFile_owed s id _)

@[simp] theorem packfile_insertWriteable (s : PackStore) (id : Nat) :
    (s.insertWriteable id).packfile = s.packfile := by
  unfold insertWriteable
  split <;> rfl

@[simp] theorem ranges_insertWriteable (s : PackStore) (id : Nat) :
    (s.insertWriteable id).ranges = s.ranges := by
  unfold insertWriteable
  split <;> rfl

theorem file?_discardEmptyTail (s : PackStore) (removes : Nat → Bool) (fuel : Nat) :
    (discardEmptyTail removes fuel s).packfile.length ≤ s.packfile.length
    ∧ ∀ id ≤ (discardEmptyTail removes fuel s).packfile.length,
      (discardEmptyTail removes fuel s).file? id = s.file? id := by
  induction fuel generalizing s with
  | zero => exact ⟨Nat.le_refl _, fun _ _ => rfl⟩
  | succ fuel ih =>
    rw [discardEmptyTail]
    split
    case isTrue he =>
      obtain ⟨hle, hk⟩ := ih (s.discardLast removes)
      have hl : (s.discardLast removes).packfile.length = s.packfile.length - 1 := length_dropLast
      refine ⟨by omega, fun id hid => ?_⟩
      rw [hk id hid, file?_discardLast, if_neg (by omega)]
    case isFalse => exact ⟨Nat.le_refl _, fun _ _ => rfl⟩

end PackStore

/-! ## The changes -/

/-- The step opens packfiles whether or not those there are loaded. -/
def PackAction.fills : PackAction → Bool
  | .refill _ | .markFull _ _ => true
  | _ => false

namespace PackStore

/-- No packfile is opened beside closed ones, but by a step that began with them closed and
fills the list all the same. -/
def OpensBeside (start : PackStore) (action : PackAction) (s : PackStore) : Prop :=
  s.packfile ≠ [] ∨ s.onDisk = false ∨ s.released = []
    ∨ action.fills = true ∧ start.packfile = [] ∧ start.onDisk = true

/-- A change that a step makes which began in `start`. -/
inductive Change (start : PackStore) : PackAction → PackStore → PackStore → Prop
  | opens {action s} (hbeside : OpensBeside start action s) : Change start action s s.openNext
  | discards {action s} (removes : Nat → Bool)
      (hempty : s.packfile.getLast?.map (·.size) = some 0) :
      Change start action s (s.discardLast removes)
  | loads {action s} (hclosed : s.packfile = []) (hdisk : s.onDisk = true)
      (hidle : s.idle = true) : Change start action s s.load
  | lists {action s} {owed : List Nat} (settling : List Nat) (howed : ∀ id ∈ s.owed, id ∈ owed) :
      Change start action s { s with owed := owed, settling := settling }
  | unlists {action s} {writeable : List Nat} (hidle : s.idle = true)
      (hsub : writeable.Sublist s.writeable) : Change start action s { s with writeable := writeable }
  | takesOff {id opens : Nat} (hidle : start.idle = true) :
      Change start (.markFull id opens) start
        { start with owed := start.owed.erase id, writeable := start.writeable.erase id }
  | dropsMark {id : Nat} :
      Change start (.dropMarkFull id) start { start with owed := start.owed.erase id }
  | syncs {action s} (id : Nat) (reports : Bool) :
      Change start action s (s.syncFile id reports).1
  | settles {id : Nat} {reports : Bool} : Change start (.settle id reports) start
      ({ start with settling := start.settling.erase id }.settle id reports)
  | zeroes {id offset size written : Nat} {reports : Bool} :
      Change start (.obliterate id offset size written reports) start
        { start with disk := start.disk.write id offset (List.replicate (min written size) 0) }
  | dirties {action s} (id : Nat) :
      Change start action s (s.modifyFile id fun file => { file with dirty := true })
  | reserves {id : Nat} {payload : Bytes} {file : PackFile} (hfile : start.file? id = some file)
      (hpayload : payload ≠ []) (hmem : id ∈ start.writeable)
      (hlimit : file.size < packstoreSizeLimit) :
      Change start (.reserve id payload) start (start.reserve id payload file)
  | lands {index : Nat} {r : PackRange} {awaited : Bool} (hr : start.ranges[index]? = some r)
      (hstatus : r.status = .writing awaited) :
      Change start (.land index) start (start.land index r awaited)
  | fails {index : Nat} {r : PackRange} {awaited : Bool} (written : Nat)
      (hr : start.ranges[index]? = some r) (hstatus : r.status = .writing awaited) :
      Change start (.fail index written) start (start.fail index r awaited written)
  | drops {index : Nat} {r : PackRange} (hr : start.ranges[index]? = some r)
      (hwriting : r.isReturned = false) : Change start (.drop index) start
      { start with
        ranges := start.ranges.modify index fun r => { r with status := .writing false } }
  | restarts {restarted : List Nat} {removes : Nat → Bool} {opens : Nat} {s} {id : Nat}
      {file : PackFile} (hid : id ∈ restarted) (hstart : start.file? id = some file)
      (hfile : s.file? id = some file)
      (htakes : ¬ (packstoreSizeLimit ≤ file.size ∨ file.syncFailed = true)) :
      Change start (.restartWrites restarted removes opens) s (s.insertWriteable id)
  | empties {id : Nat} {outcome : TruncateOutcome} {removes : Nat → Bool} {opens : Nat}
      {file : PackFile} (synced : Bool) (hdone : outcome ≠ .failed) (hidle : start.idle = true)
      (hfile : start.file? id = some file) :
      Change start (.truncate id outcome removes opens) start (start.emptyPackfile id synced)
  | putsBack {id : Nat} {outcome : TruncateOutcome} {removes : Nat → Bool} {opens : Nat} {s}
      {file : PackFile} (hdone : outcome ≠ .failed) (hfile : s.file? id = some file)
      (hsettled : file.settled = false) :
      Change start (.truncate id outcome removes opens) s (s.insertWriteable id)
  | closes (hdisk : start.onDisk = true) (hidle : start.idle = true) (hlist : start.packfile ≠ []) :
      Change start .releaseFiles start (start.close (start.released ++ start.unsynced))
  | forgets (hidle : start.idle = true) : Change start .forget start start.forget

/-- One change after the other. -/
def Changes (start : PackStore) (action : PackAction) : PackStore → PackStore → Prop :=
  Relation.ReflTransGen (Change start action)

variable {start s t : PackStore} {action : PackAction}

theorem opensBeside_start (hf : action.fills = true) : OpensBeside s action s := by
  by_cases hl : s.packfile = []
  · cases hd : s.onDisk with
    | false => exact .inr (.inl hd)
    | true => exact .inr (.inr (.inr ⟨hf, hl, hd⟩))
  · exact .inl hl

theorem fillWriteable_changes (hb : 0 < s.minCount → OpensBeside start action s)
    (opens : Nat) : Changes start action s (s.fillWriteable opens) := by
  induction opens generalizing s with
  | zero => exact .refl
  | succ opens ih =>
    rw [fillWriteable]
    split
    case isFalse => exact .refl
    case isTrue hlt =>
      refine .head (.opens (hb (by omega))) (ih fun _ => .inl ?_)
      exact append_ne_nil_of_right_ne_nil _ (cons_ne_nil _ _)

/-- Packfiles are left where a list has to hold some, so that none is opened beside closed
ones after. -/
theorem discardEmptyTail_changes (removes : Nat → Bool) (fuel : Nat)
    (hl : 0 < s.minCount → s.packfile ≠ []) :
    Changes start action s (discardEmptyTail removes fuel s)
    ∧ (0 < (discardEmptyTail removes fuel s).minCount →
      (discardEmptyTail removes fuel s).packfile ≠ []) := by
  induction fuel generalizing s with
  | zero => exact ⟨.refl, hl⟩
  | succ fuel ih =>
    rw [discardEmptyTail]
    split
    case isFalse => exact ⟨.refl, hl⟩
    case isTrue he =>
      have hr := @ih (s.discardLast removes) fun hpos => by
        rw [discardLast, ← length_pos_iff, length_dropLast]
        have : 0 < s.minCount := hpos
        omega
      exact ⟨.head (.discards removes he.2) hr.1, hr.2⟩

theorem syncFiles_changes (reports : Nat → Bool) (ids : List Nat) :
    Changes start action s (syncFiles reports ids s).1 := by
  induction ids generalizing s with
  | nil => exact .refl
  | cons id ids ih => exact .head (.syncs id (reports id)) ih

theorem sync_changes (id : Nat) (reports : Bool) :
    Changes start action s (if (s.syncFile id reports).2 then (s.syncFile id reports).1
      else { (s.syncFile id reports).1 with owed := id :: (s.syncFile id reports).1.owed }) := by
  split
  · exact .single (.syncs id reports)
  · exact .head (.syncs id reports) (.single (.lists _ fun _ hmem => mem_cons_of_mem _ hmem))

theorem restartFiles_changes {restarted ids : List Nat} {removes : Nat → Bool} {opens : Nat}
    (hids : ∀ id ∈ ids, id ∈ restarted) (hs : s.packfile = start.packfile) :
    Changes start (.restartWrites restarted removes opens) s (ids.foldl restartFile s)
    ∧ (ids.foldl restartFile s).packfile = start.packfile := by
  induction ids generalizing s with
  | nil => exact ⟨.refl, hs⟩
  | cons id ids ih =>
    have hr : ∀ other ∈ ids, other ∈ restarted := fun other ho => hids other (mem_cons_of_mem _ ho)
    rw [foldl_cons, restartFile]
    cases hf : s.file? id with
    | none => exact ih hr hs
    | some file =>
      dsimp only
      split
      case isTrue => exact ih hr hs
      case isFalse ht =>
        have hn := @ih (s.insertWriteable id) hr (by rw [packfile_insertWriteable, hs])
        refine ⟨.head (.restarts (hids id mem_cons_self) ?_ hf ht) hn.1, hn.2⟩
        rw [← hf, file?, file?, hs]

theorem truncate_changes {id} (hi : s.idle = true) (outcome : TruncateOutcome)
    (removes : Nat → Bool) (opens : Nat) :
    Changes s (.truncate id outcome removes opens) s (s.truncate id outcome removes opens) := by
  unfold truncate
  split
  case isTrue => exact .refl
  case isFalse hv =>
    simp only [not_or] at hv
    obtain ⟨file, hf⟩ := ne_none_iff_exists'.mp hv.2.2
    have he := fun synced hdo => @Change.empties s id outcome removes opens file synced hdo hi hf
    cases outcome with
    | failed => exact .refl
    | unsynced => exact .single (he false (by decide))
    | synced =>
      obtain ⟨hd, hli⟩ := @discardEmptyTail_changes s (s.emptyPackfile id true)
        (.truncate id .synced removes opens) removes (s.emptyPackfile id true).packfile.length
        fun _ hnil => by
          have hl := (modifyFile_length s id _).symm.trans (congrArg length hnil)
          have := (le_length_of_file? hf).2
          have := (le_length_of_file? hf).1
          simp only [length_nil] at hl
          omega
      refine .trans (.head (he true (by decide)) hd) ?_
      dsimp only
      split
      case isFalse => exact fillWriteable_changes (fun hpos => .inl (hli hpos)) opens
      case isTrue hid =>
        -- the packfile takes writes again, and was marked not settled
        have hget := (file?_discardEmptyTail _ removes _).2 _ hid
        rw [show (s.emptyPackfile id true).file? id = _ from
          (file?_modifyFile s id id _).trans (if_pos rfl), hf] at hget
        refine .head (.putsBack (by decide) hget rfl) (fillWriteable_changes (fun hpos => ?_) opens)
        refine .inl ?_
        rw [packfile_insertWriteable]
        apply hli
        unfold insertWriteable at hpos
        split at hpos <;> exact hpos

theorem packStep_changes (hste : packStep s action = some t) : Changes s action s t := by
  cases action with
  | resume loads opens =>
    obtain ⟨hi, rfl⟩ := guarded hste
    unfold resume
    split
    case isTrue hcl =>
      split
      · exact .head (.loads hcl.1 hcl.2 hi)
          (fillWriteable_changes (fun _ => .inr (.inr (.inl rfl))) opens)
      · exact .refl
    case isFalse ho =>
      refine fillWriteable_changes (fun _ => ?_) opens
      rw [not_and_or, Bool.not_eq_true] at ho
      exact ho.imp_right .inl
  | refill opens =>
    obtain ⟨-, rfl⟩ := guarded hste
    refine fillWriteable_changes (fun _ => ?_) opens
    exact opensBeside_start rfl
  | reserve id payload =>
    simp only [packStep] at hste
    split at hste
    case h_1 => cases hste
    case h_2 file hfi =>
      obtain ⟨hg, rfl⟩ := guarded hste
      exact .single (.reserves hfi hg.1 hg.2.1 hg.2.2)
  | foundFull id =>
    simp only [packStep] at hste
    split at hste
    case h_1 => cases hste
    case h_2 file hfi =>
      obtain ⟨-, rfl⟩ := guarded hste
      exact .single (.lists _ fun _ hmem => mem_cons_of_mem _ hmem)
  | land index =>
    simp only [packStep] at hste
    split at hste
    case h_2 => cases hste
    case h_1 r hr =>
      split at hste
      case h_1 awaited hst => exact some.inj hste ▸ .single (.lands hr hst)
      case h_2 => cases hste
  | fail index written =>
    simp only [packStep] at hste
    split at hste
    case h_2 => cases hste
    case h_1 r hr =>
      split at hste
      case h_1 awaited hst => exact some.inj hste ▸ .single (.fails written hr hst)
      case h_2 => cases hste
  | drop index =>
    simp only [packStep] at hste
    split at hste
    case h_2 => cases hste
    case h_1 r hr =>
      split at hste
      case h_1 awaited hst =>
        exact some.inj hste ▸ .single (.drops hr (by rw [PackRange.isReturned, hst]))
      case h_2 => cases hste
  | markFull id opens =>
    obtain ⟨hg, hste⟩ := ite_none_right_eq_some.mp hste
    have hb : OpensBeside s (.markFull id opens) s := opensBeside_start rfl
    have hf := Relation.ReflTransGen.head (@Change.takesOff s id opens hg.1)
      (@fillWriteable_changes s { s with
        owed := s.owed.erase id, writeable := s.writeable.erase id } _ (fun _ => hb) opens)
    refine some.inj hste ▸ ?_
    unfold markFull
    dsimp only
    split
    · exact hf.tail (.lists _ fun _ hmem => hmem)
    · exact hf
  | dropMarkFull id =>
    obtain ⟨-, rfl⟩ := guarded hste
    exact .single .dropsMark
  | settle id reports =>
    obtain ⟨-, rfl⟩ := guarded hste
    exact .single .settles
  | flush id reports =>
    refine some.inj hste ▸ ?_
    unfold flush
    cases s.file? id with
    | none => exact .refl
    | some file => exact sync_changes id reports
  | flushAll reports =>
    obtain ⟨-, rfl⟩ := guarded hste
    exact (syncFiles_changes reports s.ids).tail (.lists _ fun _ hmem => mem_append_right _ hmem)
  | obliterate id offset size written reports =>
    obtain ⟨_, hste⟩ := ite_none_left_eq_some.mp hste
    refine some.inj hste ▸ ?_
    unfold obliterate
    split
    · exact .refl
    · split
      · exact .single .zeroes
      · exact .head .zeroes (.head (.dirties id) (sync_changes id reports))
  | stopWrites stopped opens =>
    obtain ⟨hg, rfl⟩ := guarded hste
    unfold stopWrites
    split
    case isTrue => exact .refl
    case isFalse hsto =>
      rw [not_or, Bool.not_eq_true, Bool.not_eq_false'] at hsto
      refine .head (.unlists hg.1 filter_sublist) (fillWriteable_changes ?_ opens)
      exact fun _ => .inl (hg.2 hsto.1)
  | restartWrites restarted removes opens =>
    obtain ⟨-, rfl⟩ := guarded hste
    unfold restartWrites
    split
    case isTrue => exact .refl
    case isFalse hli =>
      obtain ⟨hre, hsa⟩ := @restartFiles_changes s s _ _ removes opens (fun _ hid => hid) rfl
      obtain ⟨hd, hl⟩ := discardEmptyTail_changes removes
        (restarted.foldl restartFile s).packfile.length fun _ => hsa ▸ hli
      exact (hre.trans hd).trans (fillWriteable_changes (fun hpos => .inl (hl hpos)) opens)
  | truncate id outcome removes opens =>
    obtain ⟨hi, rfl⟩ := guarded hste
    exact truncate_changes hi outcome removes opens
  | releaseFiles =>
    refine some.inj hste ▸ ?_
    unfold releaseFiles
    split
    case isTrue hc => exact .single (.closes hc.1 hc.2.1 hc.2.2)
    case isFalse => exact .refl
  | forget =>
    obtain ⟨hi, rfl⟩ := guarded hste
    exact .single (.forgets hi)

theorem packStep_keeps {P : PackStore → Prop} (hch : ∀ u v, P u → Change s action u v → P v)
    (h : P s) (hst : packStep s action = some t) : P t := by
  have hc := packStep_changes hst
  clear hst
  induction hc with
  | refl => exact h
  | tail _ hl ih => exact hch _ _ ih hl

end PackStore

end Lore.Storage
