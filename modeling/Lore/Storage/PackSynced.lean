import Lore.Storage.PackRanges

/-!
# PackSynced — a failed sync is not forgotten while the packfiles stay open

A failed sync marks its packfile, every later sync of it fails, and the caller takes it off
the writeable list. The mark is kept with the open packfile only: a packfile closed and
opened again takes writes, and a sync of it answers `Ok`. `KeepsFailure` is the condition
on the steps after the failure under which it is remembered until a truncate empties the
packfile.
-/

namespace Lore.Storage

open Lore.Lib List PackStore Option

/-! ## The writeable list -/

/-- The ids on the writeable list are of packfiles, each once. -/
structure Listed (s : PackStore) : Prop where
  nodup : s.writeable.Nodup
  le : ∀ id ∈ s.writeable, id ≤ s.packfile.length

namespace Listed

open PackStore

variable {s t : PackStore} {id : Nat}

section

variable (h : Listed s)
include h

theorem sublist {writeable} (hsub : writeable.Sublist s.writeable) :
    Listed { s with writeable := writeable } :=
  ⟨h.nodup.sublist hsub, fun id hid => h.le id (hsub.subset hid)⟩

theorem of_eq (hw : t.writeable = s.writeable)
    (hl : t.packfile.length = s.packfile.length) : Listed t := by
  refine ⟨hw ▸ h.nodup, fun id hid => ?_⟩
  rw [hl]
  exact h.le id (hw ▸ hid)

theorem openNext : Listed s.openNext := by
  have hle : s.openNext.packfile.length = s.packfile.length + 1 := length_append
  constructor
  · by_cases hl : (if s.onDisk then s.disk.length (s.packfile.length + 1) else 0)
        < packstoreSizeLimit
    · rw [show s.openNext.writeable = s.writeable ++ [s.packfile.length + 1] from if_pos hl]
      refine nodup_append.mpr ⟨h.nodup, nodup_singleton _, ?_⟩
      intro a ha b hb
      rw [mem_singleton.mp hb]
      have := h.le a ha
      omega
    · rw [show s.openNext.writeable = s.writeable from if_neg hl]
      exact h.nodup
  · intro id hid
    rw [hle]
    rcases mem_writeable_openNext.mp hid with hid | ⟨rfl, _⟩
    · exact Nat.le_succ_of_le (h.le id hid)
    · exact Nat.le_refl _

theorem discardLast (removes : Nat → Bool) : Listed (s.discardLast removes) := by
  refine ⟨h.nodup.sublist filter_sublist, fun id hid => ?_⟩
  obtain ⟨hmem, hne⟩ := mem_filter.mp hid
  have hle := h.le id hmem
  have hne := of_decide_eq_true hne
  rw [PackStore.discardLast, length_dropLast]
  omega

theorem insertWriteable (hle : id ≤ s.packfile.length) : Listed (s.insertWriteable id) := by
  unfold PackStore.insertWriteable
  split
  case isTrue => exact h
  case isFalse hnot =>
    have hp := perm_orderedInsert (· ≤ ·) id s.writeable
    refine ⟨hp.nodup_iff.mpr (nodup_cons.mpr ⟨hnot, h.nodup⟩), fun other ho => ?_⟩
    rcases mem_cons.mp (hp.mem_iff.mp ho) with rfl | ho
    · exact hle
    · exact h.le other ho

omit h in
theorem load (s : PackStore) : Listed s.load := by
  constructor
  · refine List.Nodup.sublist filter_sublist (List.Nodup.map ?_ nodup_range)
    exact fun a b heq => Nat.succ.inj heq
  · intro id hid
    obtain ⟨index, hi, rfl⟩ := mem_map.mp (mem_of_mem_filter hid)
    have := mem_range.mp hi
    simp only [PackStore.load, length_map, length_range]
    omega

theorem modifyFile (id : Nat) (f : PackFile → PackFile) : Listed (s.modifyFile id f) :=
  h.of_eq (modifyFile_writeable s id f) (modifyFile_length s id f)

theorem syncFile (id : Nat) (reports : Bool) : Listed (s.syncFile id reports).1 := by
  have hm := h.modifyFile id fun file => (file.sync s.onDisk reports).1
  exact syncFile_rule (P := Listed) id reports h hm ⟨hm.nodup, hm.le⟩

theorem change {start action} (hc : Change start action s t) : Listed t := by
  cases hc with
  | opens => exact h.openNext
  | discards removes => exact h.discardLast removes
  | loads => exact load s
  | lists | dropsMark | zeroes | drops => exact h.of_eq rfl rfl
  | unlists _ hsub => exact h.sublist hsub
  | takesOff => exact (h.sublist erase_sublist).of_eq rfl rfl
  | syncs id reports => exact h.syncFile id reports
  | @settles id reports =>
    have hsy := @syncFile { s with settling := s.settling.erase id } ⟨h.nodup, h.le⟩ id reports
    exact settle_rule (P := Listed) hsy (hsy.modifyFile id _)
  | dirties id => exact h.modifyFile id _
  | @reserves id => exact (h.modifyFile id _).of_eq rfl rfl
  | @lands index r awaited =>
    cases awaited with
    | true => exact (h.modifyFile r.id _).of_eq rfl rfl
    | false => exact h.of_eq rfl rfl
  | @fails index r awaited =>
    cases awaited with
    | true => exact (h.modifyFile r.id _).of_eq rfl rfl
    | false => exact h.of_eq rfl rfl
  | restarts _ _ hf | putsBack _ hf =>
    exact h.insertWriteable (le_length_of_file? hf).2
  | @empties id => exact (h.modifyFile id _).of_eq rfl rfl
  | closes | forgets => exact ⟨nodup_nil, fun _ hid => (nomatch hid)⟩

theorem step {action} (hst : packStep s action = some t) : Listed t :=
  packStep_keeps (fun _ _ h hc => h.change hc) h hst

end

end Listed

/-! ## A failed sync -/

/-- The packfile is marked: a sync of it failed. -/
def Marked (id : Nat) (s : PackStore) : Prop :=
  ∃ file, s.file? id = some file ∧ file.syncFailed = true

/-- A sync of the packfile failed: it is marked, and off the writeable list unless the
`mark_full` that takes it off is still owed. -/
structure SyncFailed (id : Nat) (s : PackStore) : Prop where
  marked : Marked id s
  off : id ∈ s.writeable → id ∈ s.owed

/-- The step runs a sync of the packfile, which holds writes no sync covered, and the sync
reports a failure. -/
def FailsSync (s : PackStore) (id : Nat) (action : PackAction) : Prop :=
  s.onDisk = true
  ∧ (∃ file, s.file? id = some file ∧ file.dirty = true ∧ file.syncFailed = false)
  ∧ match action with
    | .flush other reports => other = id ∧ reports = false
    | .flushAll reports => reports id = false
    | .obliterate other _ size written reports => other = id ∧ size ≤ written ∧ reports = false
    | .settle other reports => other = id ∧ reports = false ∧ id ∉ s.writeable
    | _ => False

/-- The condition on a step after the failure. The packfiles are not closed; the `mark_full`
owed is not dropped with its caller, and no store picks the packfile before it; and no
truncate empties the packfile. -/
def KeepsFailure (id : Nat) (s : PackStore) : PackAction → Prop
  | .releaseFiles => s.idle = false
  | .forget => False
  | .dropMarkFull other => other ≠ id
  | .reserve other _ => other = id → id ∉ s.owed
  | .truncate other outcome _ _ => other = id → outcome = .failed
  | _ => True

/-! ## Bytes held -/

/-- The packfile holds the byte, and no write in flight has it yet to write. -/
structure Held (id byte : Nat) (s : PackStore) : Prop where
  inside : ∃ file, s.file? id = some file ∧ byte < file.size
  landed : ∀ r ∈ s.ranges, r.id = id → r.isReturned = false → byte < r.offset ∨ r.stop ≤ byte

namespace Held

open PackStore

variable {s t : PackStore} {id byte : Nat}

section

variable (h : Held id byte s)
include h

/-- The packfile is no shorter, and what is in flight was in flight before. -/
theorem of_le (hf : ∀ file, s.file? id = some file →
      ∃ longer, t.file? id = some longer ∧ file.size ≤ longer.size)
    (hr : ∀ r ∈ t.ranges, r.isReturned = false →
      ∃ q ∈ s.ranges, q.isReturned = false ∧ r = { q with status := r.status }) :
    Held id byte t := by
  constructor
  · obtain ⟨file, hget, hlt⟩ := h.inside
    obtain ⟨longer, hl, hle⟩ := hf file hget
    exact ⟨longer, hl, Nat.lt_of_lt_of_le hlt hle⟩
  · intro r hmem hid hre
    obtain ⟨q, hq, hqr, heq⟩ := hr r hmem hre
    rw [heq] at hid ⊢
    exact h.landed q hq hid hqr

theorem of_eq (hf : t.file? id = s.file? id)
    (hr : ∀ r ∈ t.ranges, r.isReturned = false → r ∈ s.ranges) : Held id byte t :=
  h.of_le (fun file hget => ⟨file, hf.trans hget, Nat.le_refl _⟩)
    fun r hmem hre => ⟨r, hr r hmem hre, hre, rfl⟩

theorem modifyFile (other : Nat) {f : PackFile → PackFile}
    (hf : ∀ file, file.size ≤ (f file).size) : Held id byte (s.modifyFile other f) := by
  refine h.of_le (fun file hget => ?_) fun r hmem hre => ⟨r, ?_, hre, rfl⟩
  · rw [file?_modifyFile]
    split
    · exact ⟨f file, by rw [hget, map_some], hf file⟩
    · exact ⟨file, hget, Nat.le_refl _⟩
  · rwa [modifyFile_ranges] at hmem

theorem ne_last (he : s.packfile.getLast?.map (·.size) = some 0) : id ≠ s.packfile.length := by
  obtain ⟨file, hget, hlt⟩ := h.inside
  obtain ⟨last, hl, hsi⟩ := map_eq_some_iff.mp he
  intro heq
  rw [getLast?_eq_getElem?, ← heq, (file?_eq_some.mp hget).2] at hl
  cases hl
  omega

theorem syncFile (other : Nat) (reports : Bool) : Held id byte (s.syncFile other reports).1 := by
  have hm := h.modifyFile other (f := fun file => (file.sync s.onDisk reports).1)
    fun file => Nat.le_of_eq (Laid.sync_size s.onDisk reports file).symm
  refine syncFile_rule (P := Held id byte) other reports h hm ?_
  -- only ranges that were handed out are covered
  refine hm.of_eq rfl fun r hmem hre => ?_
  obtain ⟨q, hq, rfl⟩ := mem_map.mp hmem
  rw [modifyFile_ranges]
  split at hre
  case isTrue => cases hre
  case isFalse hn => rwa [if_neg hn]

theorem fail {index r} (hr : s.ranges[index]? = some r) (hw : r.isReturned = false)
    (awaited : Bool) (written : Nat) : Held id byte (s.fail index r awaited written) := by
  have he : ∀ q ∈ s.ranges.eraseIdx index, q.isReturned = false → q ∈ s.ranges :=
    fun q hq _ => mem_of_mem_eraseIdx hq
  cases awaited with
  | false => exact h.of_eq rfl he
  | true =>
    refine ⟨?_, fun q hq => h.landed q (mem_of_mem_eraseIdx hq)⟩
    obtain ⟨file, hget, hlt⟩ := h.inside
    rw [show (s.fail index r true written).file? id = _ from file?_modifyFile s id r.id _]
    split
    case isFalse => exact ⟨file, hget, hlt⟩
    case isTrue hid =>
      rw [hget, map_some]
      refine ⟨_, rfl, ?_⟩
      have hbyte := h.landed r (mem_of_getElem? hr) hid.symm hw
      split
      case isTrue hst =>
        show byte < r.offset
        omega
      case isFalse => exact hlt

end

theorem change {start action} (h : Held id byte s) (hk : KeepsFailure id start action)
    (hc : Change start action s t) : Held id byte t := by
  obtain ⟨file, hget, hlt⟩ := h.inside
  cases hc with
  | opens =>
    exact h.of_eq ((file?_openNext_of_file? hget).trans hget.symm) fun _ hmem _ => hmem
  | discards removes he =>
    refine h.of_eq ?_ fun _ hmem _ => hmem
    rw [file?_discardLast, if_neg (h.ne_last he)]
  | loads hcl =>
    rw [file?_eq_some, hcl] at hget
    exact nomatch hget.2
  | lists | unlists | takesOff | dropsMark | zeroes => exact ⟨h.inside, h.landed⟩
  | syncs other reports => exact h.syncFile other reports
  | @settles other reports =>
    have hsy := @syncFile { s with settling := s.settling.erase other } id byte
      ⟨h.inside, h.landed⟩ other reports
    exact settle_rule (P := Held id byte) hsy (hsy.modifyFile other fun _ => Nat.le_refl _)
  | dirties other => exact h.modifyFile other fun _ => Nat.le_refl _
  | @reserves other payload old hf =>
    have hm := h.modifyFile other (f := fun file =>
      { file with
        size := file.size + payload.length
        dirty := file.dirty || !s.onDisk
        buffer := if s.onDisk then file.buffer else file.buffer ++ payload })
      fun _ => Nat.le_add_right _ _
    refine ⟨hm.inside, fun r hmem hid hre => ?_⟩
    rcases mem_append.mp hmem with hmem | hmem
    · exact h.landed r hmem hid hre
    · -- the range reserved starts behind every byte there is
      rw [mem_singleton] at hmem
      subst hmem
      rw [show other = id from hid, hget] at hf
      cases hf
      exact .inl hlt
  | @lands index r awaited hr hst =>
    cases awaited with
    | false => exact h.of_eq rfl fun q hq _ => mem_of_mem_eraseIdx hq
    | true =>
      have hm := h.modifyFile r.id (f := fun file => { file with dirty := true })
        fun _ => Nat.le_refl _
      refine ⟨hm.inside, fun q hq hid hre => ?_⟩
      rcases mem_modify_cases hr hq with hq | rfl
      · exact h.landed q hq hid hre
      · cases hre
  | @fails index r awaited written hr hst =>
    exact h.fail hr (by rw [PackRange.isReturned, hst]) awaited written
  | @drops index r hr hw =>
    refine ⟨h.inside, fun q hq hid hre => ?_⟩
    rcases mem_modify_cases hr hq with hq | rfl
    · exact h.landed q hq hid hre
    · exact h.landed r (mem_of_getElem? hr) hid hw
  | restarts | putsBack =>
    unfold PackStore.insertWriteable
    split <;> exact ⟨h.inside, h.landed⟩
  | @empties other _ _ _ _ synced hd =>
    have hne : id ≠ other := fun heq => hd (hk heq.symm)
    exact h.of_eq (file?_modifyFile_of_ne s hne _) fun r hmem _ => mem_of_mem_filter hmem
  | closes _ hi => exact absurd (hi.symm.trans hk) (by decide)
  | forgets => exact hk.elim

theorem step (h : Held id byte s) {action} (hk : KeepsFailure id s action)
    (hst : packStep s action = some t) : Held id byte t :=
  @packStep_keeps s t action (Held id byte) (fun _ _ h hc => h.change hk hc) h hst

end Held

namespace Marked

open PackStore

variable {s t : PackStore} {id : Nat}

theorem modifyFile (h : Marked id s) (other : Nat) {f : PackFile → PackFile}
    (hf : ∀ file, file.syncFailed = true → (f file).syncFailed = true) :
    Marked id (s.modifyFile other f) := by
  obtain ⟨file, hget, hfa⟩ := h
  by_cases heq : id = other
  · exact ⟨f file, by rw [file?_modifyFile, if_pos heq, hget, map_some], hf file hfa⟩
  · exact ⟨file, by rw [file?_modifyFile, if_neg heq, hget], hfa⟩

theorem sync_failed {file : PackFile} (h : file.syncFailed = true) (onDisk reports : Bool) :
    file.sync onDisk reports = (file, false, false) := by
  unfold PackFile.sync
  rw [if_pos h]

theorem syncFile (h : Marked id s) (other : Nat) (reports : Bool) :
    Marked id (s.syncFile other reports).1
    ∧ (other = id → (s.syncFile other reports).2 = false) := by
  unfold PackStore.syncFile
  cases hfi : s.file? other with
  | none => exact ⟨h, fun _ => rfl⟩
  | some file =>
    refine ⟨?_, ?_⟩
    · have hm := h.modifyFile other (f := fun file => (file.sync s.onDisk reports).1)
        fun file hf => by rw [sync_failed hf]; exact hf
      dsimp only
      split <;> exact hm
    · rintro rfl
      obtain ⟨file', hget, hf⟩ := h
      rw [hfi] at hget
      cases hget
      simp only [sync_failed hf]
      rfl

theorem syncFiles (h : Marked id s) (reports : Nat → Bool) (ids : List Nat) :
    Marked id (PackStore.syncFiles reports ids s).1
    ∧ (id ∈ ids → id ∈ (PackStore.syncFiles reports ids s).2) := by
  induction ids generalizing s with
  | nil => exact ⟨h, fun hmem => nomatch hmem⟩
  | cons other ids ih =>
    obtain ⟨hsy, hf⟩ := h.syncFile other (reports other)
    obtain ⟨hr, hrF⟩ := ih hsy
    refine ⟨hr, fun hmem => ?_⟩
    rw [PackStore.syncFiles]
    dsimp only
    rcases mem_cons.mp hmem with rfl | hmem
    · rw [hf rfl]
      exact mem_cons_self
    · split
      · exact hrF hmem
      · exact mem_cons_of_mem _ (hrF hmem)

theorem of_fails {file} (hdi : s.onDisk = true) (hfi : s.file? id = some file)
    (hd : file.dirty = true) (hf : file.syncFailed = false) :
    Marked id (s.syncFile id false).1 ∧ (s.syncFile id false).2 = false := by
  have hsy : file.sync s.onDisk false
      = ({ file with dirty := true, syncFailed := true }, false, false) := by
    simp [PackFile.sync, hdi, hd, hf]
  unfold PackStore.syncFile
  simp only [hfi, hsy]
  refine ⟨⟨{ file with dirty := true, syncFailed := true }, ?_, rfl⟩, rfl⟩
  show (s.modifyFile id _).file? id = _
  rw [file?_modifyFile, if_pos rfl, hfi, map_some, hsy]

theorem file?_syncFile_of_ne (s : PackStore) {other} (hne : id ≠ other) (reports : Bool) :
    (s.syncFile other reports).1.file? id = s.file? id :=
  syncFile_rule (P := (·.file? id = s.file? id)) other reports rfl
    (file?_modifyFile_of_ne s hne _) (file?_modifyFile_of_ne s hne _)

theorem syncFile_onDisk (s : PackStore) (other : Nat) (reports : Bool) :
    (s.syncFile other reports).1.onDisk = s.onDisk :=
  syncFile_rule (P := (·.onDisk = s.onDisk)) other reports rfl (modifyFile_onDisk s other _)
    (modifyFile_onDisk s other _)

theorem of_syncFiles {file} (hdi : s.onDisk = true) (hfi : s.file? id = some file)
    (hd : file.dirty = true) (hf : file.syncFailed = false) {reports : Nat → Bool}
    (hr : reports id = false) {ids} (hmem : id ∈ ids) :
    Marked id (PackStore.syncFiles reports ids s).1
    ∧ id ∈ (PackStore.syncFiles reports ids s).2 := by
  induction ids generalizing s with
  | nil => cases hmem
  | cons other ids ih =>
    rw [PackStore.syncFiles]
    dsimp only
    by_cases heq : other = id
    · subst heq
      rw [hr]
      obtain ⟨hm, hfa⟩ := of_fails hdi hfi hd hf
      refine ⟨(hm.syncFiles reports ids).1, ?_⟩
      rw [hfa]
      exact mem_cons_self
    · have hre := ih ((syncFile_onDisk s other _).trans hdi)
        ((file?_syncFile_of_ne s (Ne.symm heq) (reports other)).trans hfi)
        ((mem_cons.mp hmem).resolve_left (Ne.symm heq))
      refine ⟨hre.1, ?_⟩
      split
      · exact hre.2
      · exact mem_cons_of_mem _ hre.2

end Marked

namespace SyncFailed

open PackStore

variable {s t : PackStore} {id : Nat}

section

variable (h : SyncFailed id s)
include h

theorem of_eq (hfi : t.file? id = s.file? id) (hw : id ∈ t.writeable → id ∈ s.writeable)
    (ho : id ∈ s.owed → id ∈ t.owed) : SyncFailed id t := by
  obtain ⟨file, hget, hf⟩ := h.marked
  exact ⟨⟨file, hfi.trans hget, hf⟩, fun hmem => ho (h.off (hw hmem))⟩

theorem modifyFile (other : Nat) {f : PackFile → PackFile}
    (hf : ∀ file, file.syncFailed = true → (f file).syncFailed = true) :
    SyncFailed id (s.modifyFile other f) := by
  refine ⟨h.marked.modifyFile other hf, ?_⟩
  rw [modifyFile_writeable, modifyFile_owed]
  exact h.off

theorem openNext : SyncFailed id s.openNext := by
  obtain ⟨file, hget, hf⟩ := h.marked
  refine h.of_eq ((file?_openNext_of_file? hget).trans hget.symm) ?_ fun ho => ho
  intro hmem
  refine (mem_writeable_openNext.mp hmem).resolve_right fun hnew => ?_
  have := (le_length_of_file? hget).2
  omega

theorem insertWriteable {other} (hne : other ≠ id) : SyncFailed id (s.insertWriteable other) := by
  unfold PackStore.insertWriteable
  split
  case isTrue => exact h
  case isFalse =>
    refine h.of_eq rfl (fun hmem => ?_) fun ho => ho
    rw [mem_orderedInsert] at hmem
    exact hmem.resolve_left (Ne.symm hne)

theorem syncFile (other : Nat) (reports : Bool) : SyncFailed id (s.syncFile other reports).1 := by
  refine ⟨(h.marked.syncFile other reports).1, ?_⟩
  rw [syncFile_writeable, syncFile_owed]
  exact h.off

theorem refuses :
    (∀ reports, (s.flush id reports).2 = false) ∧ (∀ reports, (s.flushAll reports).2 = false)
    ∧ (id ∉ s.owed → ∀ payload, packStep s (.reserve id payload) = none) := by
  obtain ⟨file, hget, hfa⟩ := h.marked
  refine ⟨fun reports => ?_, fun reports => ?_, fun ho payload => ?_⟩
  · rw [flush, hget]
    exact (h.marked.syncFile id reports).2 rfl
  · have hmem : id ∈ s.ids := by
      obtain ⟨hpos, hle⟩ := le_length_of_file? hget
      refine mem_map.mpr ⟨id - 1, mem_range.mpr ?_, ?_⟩ <;> omega
    have hf := (h.marked.syncFiles reports s.ids).2 hmem
    rw [flushAll]
    simpa using ne_nil_of_mem hf
  · simp only [packStep, hget]
    rw [if_neg]
    exact fun hg => ho (h.off hg.2.1)

end

theorem change {start action byte} (h : SyncFailed id s) (hl : Listed s) (hh : Held id byte s)
    (hk : KeepsFailure id start action) (hc : Change start action s t) : SyncFailed id t := by
  obtain ⟨file, hget, hfa⟩ := h.marked
  have hg : ∀ (full : Prop) [Decidable full] (other : Nat), id ∈ s.owed →
      id ∈ (if full then other :: s.owed else s.owed) := by
    intro full _ other ho
    split
    · exact mem_cons_of_mem _ ho
    · exact ho
  cases hc with
  | opens => exact h.openNext
  | discards removes he =>
    refine h.of_eq ?_ mem_of_mem_filter fun ho => ho
    rw [file?_discardLast, if_neg (hh.ne_last he)]
  | loads hcl =>
    rw [file?_eq_some, hcl] at hget
    exact nomatch hget.2
  | lists _ ho => exact h.of_eq rfl (fun hmem => hmem) (ho id)
  | unlists _ hsub => exact h.of_eq rfl (fun hmem => hsub.subset hmem) fun ho => ho
  | takesOff =>
    refine ⟨h.marked, fun hmem => ?_⟩
    obtain ⟨hne, hmem⟩ := (hl.nodup.mem_erase_iff).mp hmem
    exact (mem_erase_of_ne hne).mpr (h.off hmem)
  | dropsMark =>
    exact h.of_eq rfl (fun hmem => hmem) fun ho =>
      (mem_erase_of_ne (Ne.symm hk)).mpr ho
  | syncs other reports => exact h.syncFile other reports
  | @settles other reports =>
    have hsy := @syncFile { s with settling := s.settling.erase other } id
      ⟨h.marked, h.off⟩ other reports
    exact settle_rule (P := SyncFailed id) hsy (hsy.modifyFile other fun _ hf => hf)
  | zeroes | drops => exact h.of_eq rfl (fun hmem => hmem) fun ho => ho
  | dirties other => exact h.modifyFile other fun _ hf => hf
  | @reserves other payload =>
    have hm := h.modifyFile other (f := fun file =>
      { file with
        size := file.size + payload.length
        dirty := file.dirty || !s.onDisk
        buffer := if s.onDisk then file.buffer else file.buffer ++ payload })
      fun _ hf => hf
    exact ⟨hm.marked, fun hmem => hg _ _ (modifyFile_owed s other _ ▸ hm.off hmem)⟩
  | @lands index r awaited =>
    cases awaited with
    | false => exact h.of_eq rfl (fun hmem => hmem) fun ho => ho
    | true =>
      have hm := h.modifyFile r.id (f := fun file => { file with dirty := true }) fun _ hf => hf
      exact ⟨hm.marked, fun hmem => hg _ _ (modifyFile_owed s r.id _ ▸ hm.off hmem)⟩
  | @fails index r awaited =>
    cases awaited with
    | false => exact h.of_eq rfl (fun hmem => hmem) fun ho => ho
    | true =>
      have hm := h.modifyFile r.id (f := fun file =>
        if file.size = r.stop then { file with size := r.offset } else file)
        fun _ hf => by split <;> exact hf
      exact ⟨hm.marked, hm.off⟩
  | restarts _ _ hfi ht =>
    apply h.insertWriteable
    rintro rfl
    rw [hfi] at hget
    cases hget
    exact ht (Or.inr hfa)
  | @empties other _ _ _ _ synced hd =>
    have hne : id ≠ other := fun heq => hd (hk heq.symm)
    refine h.of_eq (file?_modifyFile_of_ne s hne _) (fun hmem => ?_) fun ho => ?_
    · rwa [show (s.emptyPackfile other synced).writeable = s.writeable from
        modifyFile_writeable s other _] at hmem
    · rwa [show (s.emptyPackfile other synced).owed = s.owed from modifyFile_owed s other _]
  | putsBack hd => exact h.insertWriteable fun heq => hd (hk heq)
  | closes _ hi => exact absurd (hi.symm.trans hk) (by decide)
  | forgets => exact hk.elim

/-- A sync that fails leaves its packfile marked, with its `mark_full` owed where it is on
the writeable list. -/
theorem of_fails {action} (hfai : FailsSync s id action) (hst : packStep s action = some t) :
    SyncFailed id t := by
  obtain ⟨hdi, ⟨file, hfi, hd, hfa⟩, ha⟩ := hfai
  cases action with
  | flush other reports =>
    obtain ⟨rfl, rfl⟩ := ha
    obtain ⟨hm, hf⟩ := Marked.of_fails hdi hfi hd hfa
    refine some.inj hst ▸ ?_
    simp only [flush, hfi, hf]
    exact ⟨hm, fun _ => mem_cons_self⟩
  | flushAll reports =>
    obtain ⟨-, rfl⟩ := guarded hst
    have hmem : id ∈ s.ids := by
      obtain ⟨hpos, hle⟩ := le_length_of_file? hfi
      refine mem_map.mpr ⟨id - 1, mem_range.mpr ?_, ?_⟩ <;> omega
    obtain ⟨hm, hf⟩ := Marked.of_syncFiles hdi hfi hd hfa ha hmem
    exact ⟨hm, fun _ => mem_append_left _ hf⟩
  | settle other reports =>
    obtain ⟨rfl, rfl, hoff⟩ := ha
    obtain ⟨_, hst⟩ := ite_none_right_eq_some.mp hst
    obtain ⟨hm, hf⟩ := Marked.of_fails
      (s := { s with settling := s.settling.erase other }) hdi hfi hd hfa
    refine some.inj hst ▸ ?_
    rw [settle]
    dsimp only
    rw [hf]
    refine ⟨hm, fun hmem => absurd ?_ hoff⟩
    rw [if_neg Bool.false_ne_true, syncFile_writeable] at hmem
    exact hmem
  | obliterate other offset size written reports =>
    obtain ⟨rfl, hw, rfl⟩ := ha
    obtain ⟨_, hst⟩ := ite_none_left_eq_some.mp hst
    refine some.inj hst ▸ ?_
    have hmD : ((PackStore.modifyFile { s with
        disk := s.disk.write other offset (replicate (min written size) 0) } other
        fun file => { file with dirty := true }).file? other)
        = some { file with dirty := true } := by
      rw [file?_modifyFile, if_pos rfl]
      exact congrArg (Option.map fun file : PackFile => { file with dirty := true }) hfi
    obtain ⟨hm, hf⟩ := Marked.of_fails (by rw [modifyFile_onDisk]; exact hdi) hmD rfl hfa
    rw [obliterate, if_neg (by simp [hfi, hdi])]
    dsimp only
    rw [if_neg (Nat.not_lt.mpr hw), hf]
    exact ⟨hm, fun _ => mem_cons_self⟩
  | _ => exact ha.elim

end SyncFailed

/-- Once a sync of a packfile that holds writes failed, in every state that steps under the
condition reach from there: no flush of it and no flush of all answers `Ok`, and no store
reserves a range in it once the `mark_full` owed was run. -/
theorem failed_sync_is_remembered {onDisk : Bool} {minCount : Nat} {disk : Disk}
    {actions later : List PackAction} {action : PackAction} {s t u : PackStore} {id : Nat}
    (hrun : run packStep (.new onDisk minCount disk) actions = some s)
    (hheld : ∃ byte, Held id byte s) (hfails : FailsSync s id action)
    (hstep : packStep s action = some t) (hlater : run packStep t later = some u)
    (hkeeps : StepsMeet packStep (KeepsFailure id) t later) :
    (∀ reports, (u.flush id reports).2 = false) ∧ (∀ reports, (u.flushAll reports).2 = false)
    ∧ (id ∉ u.owed → ∀ payload, packStep u (.reserve id payload) = none) := by
  have hl : Listed s := run_invariant packStep (fun _ _ _ h hstep => h.step hstep)
    ⟨nodup_nil, fun _ hid => absurd hid not_mem_nil⟩ hrun
  obtain ⟨byte, hheld⟩ := hheld
  have hk : KeepsFailure id s action := by
    obtain ⟨_, _, ha⟩ := hfails
    cases action <;> first | exact ha.elim | exact trivial
  have hst : Listed t ∧ Held id byte t ∧ SyncFailed id t :=
    ⟨hl.step hstep, hheld.step hk hstep, .of_fails hfails hstep⟩
  obtain ⟨_, _, h⟩ : Listed u ∧ Held id byte u ∧ SyncFailed id u := by
    refine @run_invariant_of_stepsMeet _ _ packStep
      (fun s => Listed s ∧ Held id byte s ∧ SyncFailed id s) _ ?_ _ _ _ hst hkeeps hlater
    intro s action t hs hg hstep
    refine @packStep_keeps s t action (fun s => Listed s ∧ Held id byte s ∧ SyncFailed id s)
      ?_ hs hstep
    intro u v ⟨hl, hheld, h⟩ hc
    exact ⟨hl.change hc, hheld.change hg hc, h.change hl hheld hg hc⟩
  exact h.refuses

/-- A payload stored. -/
def storedOnce : List PackAction := [.resume true 1, .reserve 1 [7], .land 0]

theorem failed_sync_is_remembered_marked :
    ∃ s t u, run packStep (.new true 1 ⟨[]⟩) storedOnce = some s
      ∧ packStep s (.flush 1 false) = some t ∧ run packStep t [.markFull 1 1] = some u
      ∧ (∀ reports, (u.flush 1 reports).2 = false)
      ∧ ∀ payload, packStep u (.reserve 1 payload) = none := by
  have hk : ∀ t, StepsMeet packStep (KeepsFailure 1) t [.markFull 1 1] :=
    fun _ => ⟨trivial, fun _ _ => trivial⟩
  have hh : ∃ byte, Held 1 byte ⟨true, 1, [⟨0, true, false, false, 1, []⟩], [1], [],
      ((Disk.create ⟨[]⟩ 1).write 1 0 [7]), [⟨1, 0, [7], .returned false⟩], [], []⟩ :=
    ⟨0, ⟨_, rfl, by decide⟩, by decide⟩
  have h := @failed_sync_is_remembered true 1 ⟨[]⟩ storedOnce [.markFull 1 1] (.flush 1 false)
    _ _ _ 1 rfl hh ⟨rfl, ⟨_, rfl, rfl, rfl⟩, rfl, rfl⟩ rfl rfl (hk _)
  exact ⟨_, _, _, rfl, rfl, rfl, h.1, h.2.2 (by decide)⟩

/-- The sync of a stored payload fails, the packfile is taken off the list, and the
packfiles are closed and opened again. -/
def failedAndReopened : List PackAction :=
  storedOnce ++ [.flush 1 false, .markFull 1 1, .releaseFiles, .resume true 1]

/-- The packfile comes back without its mark: a sync of it may answer `Ok`, without the
writes the failed one dropped, and it takes writes. -/
theorem failed_sync_is_forgotten :
    ∃ s, run packStep (.new true 1 ⟨[]⟩) failedAndReopened = some s
      ∧ HandedOut s 1 0 [7] ∧ (s.flush 1 true).2 = true ∧ (s.flushAll fun _ => true).2 = true
      ∧ (packStep s (.reserve 1 [8])).isSome := by
  refine ⟨_, rfl, ⟨false, ?_⟩, rfl, rfl, rfl⟩
  exact mem_cons_self

end Lore.Storage
