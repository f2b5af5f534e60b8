import Lore.Storage.PackRanges

/-!
# PackSettled — a packfile is settled or takes writes, never both

A settled packfile is left out of the sizes a bucket file records, as no crash can leave it
shorter than an entry pointing into it. The task that settles a packfile runs some time
after the packfile stopped taking writes. Where the packfile was truncated and takes writes
again by then, the task settles it all the same, and what is written next is recorded
nowhere. `KeepsUnsettled` is the condition on a step that rules this out; under it the
sizes reported cover every range handed out whose write no sync covered.
-/

namespace Lore.Storage

open Lore.Lib List

/-- A sync of the packfile is still owed for what it holds. -/
def Owing (s : PackStore) (id : Nat) : Prop :=
  ∃ file, s.file? id = some file ∧ file.dirty = true ∧ file.settled = false

/-- The packfile was closed with a sync of it owed, and a size that covers its ranges. -/
def ClosedOwing (s : PackStore) (id : Nat) : Prop :=
  s.packfile = [] ∧ s.onDisk = true ∧ 0 < id
    ∧ ∃ c ∈ s.released, c.id = id ∧ ∀ r ∈ s.ranges, r.id = id → clampU32 r.stop ≤ c.size

/-- What takes writes is not settled, what is in flight is in what takes writes, and a sync
is owed wherever a range handed out is not covered by one. -/
structure Unsettled (s : PackStore) : Prop where
  writes : ∀ id ∈ s.writeable, ∃ file, s.file? id = some file ∧ file.settled = false
  flight : ∀ r ∈ s.ranges, r.isReturned = false → r.id ∈ s.writeable
  owing : ∀ r ∈ s.ranges, r.status = .returned false → Owing s r.id ∨ ClosedOwing s r.id

/-- The condition on a step. A task that settles a packfile finds it off the writeable list;
`restart_writes` is not given a settled packfile it would let take writes; packfiles are
opened next to those loaded; and the packfiles are not forgotten. -/
def KeepsUnsettled (s : PackStore) : PackAction → Prop
  | .settle id _ => id ∉ s.writeable
  | .restartWrites restarted _ _ => ∀ id ∈ restarted, ∀ file, s.file? id = some file →
      file.settled = true → packstoreSizeLimit ≤ file.size ∨ file.syncFailed = true
  | .markFull _ _ | .refill _ => s.packfile ≠ [] ∨ s.onDisk = false
  | .forget => False
  | _ => True

namespace Unsettled

open PackStore

variable {s t : PackStore} {id : Nat}

theorem new (onDisk : Bool) (minCount : Nat) (disk : Disk) :
    Unsettled (PackStore.new onDisk minCount disk) where
  writes _ hid := nomatch hid
  flight _ hr := nomatch hr
  owing _ hr := nomatch hr

variable {r : PackRange} {file : PackFile}

theorem opened (h : Unsettled s) (hl : s.packfile ≠ [] ∨ s.onDisk = false ∨ s.released = [])
    (hr : r ∈ s.ranges) (hst : r.status = .returned false) : Owing s r.id := by
  refine (h.owing r hr hst).resolve_right fun ⟨hcl, hd, _, c, hc, _⟩ => ?_
  rcases hl with hl | hm | hn
  · exact hl hcl
  · exact absurd (hm.symm.trans hd) Bool.false_ne_true
  · exact not_mem_nil (hn ▸ hc)

theorem clampU32_le_clampU32 {a b} (h : a ≤ b) : clampU32 a ≤ clampU32 b := by
  unfold clampU32
  omega

theorem isReturned_of_status {covered} (h : r.status = .returned covered) :
    r.isReturned = true := by
  rw [PackRange.isReturned, h]

theorem loaded_of_file? (hf : s.file? id = some file) : s.packfile ≠ [] := by
  intro hnil
  rw [file?_eq_some, hnil] at hf
  exact nomatch hf.2

theorem not_in_flight (hi : s.idle = true) (hr : r ∈ s.ranges) (hw : r.isReturned = false) :
    False := absurd (hw.symm.trans (Laid.isReturned_of_idle hi hr)) Bool.false_ne_true

theorem unlist (h : Unsettled s) (hi : s.idle = true) {writeable}
    (hsub : ∀ id ∈ writeable, id ∈ s.writeable) : Unsettled { s with writeable := writeable } where
  writes id hid := h.writes id (hsub id hid)
  flight _ hr hw := (not_in_flight hi hr hw).elim
  owing := h.owing

theorem relist (h : Unsettled s) (owed settling : List Nat) :
    Unsettled { s with owed := owed, settling := settling } := ⟨h.writes, h.flight, h.owing⟩

theorem insertWriteable (h : Unsettled s) (hf : s.file? id = some file)
    (hse : file.settled = false) : Unsettled (s.insertWriteable id) := by
  unfold PackStore.insertWriteable
  split
  case isTrue => exact h
  case isFalse =>
    have hmem : ∀ {other}, other ∈ s.writeable.orderedInsert (· ≤ ·) id ↔
        other = id ∨ other ∈ s.writeable := by
      intro other
      rw [mem_orderedInsert]
    refine ⟨?_, ?_, h.owing⟩
    · intro other ho
      rcases hmem.mp ho with rfl | ho
      · exact ⟨file, hf, hse⟩
      · exact h.writes other ho
    · intro r hr hw
      exact hmem.mpr (.inr (h.flight r hr hw))

/-! ## Opening and closing -/

theorem owing_openNext (h : Owing s id) : Owing s.openNext id := by
  obtain ⟨file, hf, hm⟩ := h
  exact ⟨file, file?_openNext_of_file? hf, hm⟩

theorem openNext (h : Unsettled s)
    (ho : ∀ r ∈ s.ranges, r.status = .returned false → Owing s r.id) : Unsettled s.openNext := by
  refine ⟨?_, ?_, fun r hr hst => .inl (owing_openNext (ho r hr hst))⟩
  · intro id hid
    rcases mem_writeable_openNext.mp hid with hid | ⟨rfl, hl⟩
    · obtain ⟨file, hf, hse⟩ := h.writes id hid
      exact ⟨file, file?_openNext_of_file? hf, hse⟩
    · refine ⟨_, by rw [file?_openNext, if_pos rfl], ?_⟩
      exact decide_eq_false (Nat.not_le.mpr hl)
  · intro r hr hw
    exact mem_writeable_openNext.mpr (.inl (h.flight r hr hw))

section

variable (h : Unsettled s) (hlaid : Laid s)
include h hlaid

theorem discardLast (he : s.packfile.getLast?.map (·.size) = some 0) (removes : Nat → Bool) :
    Unsettled (s.discardLast removes) := by
  refine ⟨?_, ?_, ?_⟩
  · intro id hid
    obtain ⟨hmem, hne⟩ := mem_filter.mp hid
    obtain ⟨file, hf, hse⟩ := h.writes id hmem
    exact ⟨file, by rw [file?_discardLast, if_neg (of_decide_eq_true hne), hf], hse⟩
  · intro r hr hw
    exact mem_filter.mpr ⟨h.flight r hr hw, decide_eq_true (hlaid.ne_last he hr)⟩
  · intro r hr hst
    rcases h.owing r hr hst with ⟨file, hf, hm⟩ | hc
    · left
      exact ⟨file, by rw [file?_discardLast, if_neg (hlaid.ne_last he hr), hf], hm⟩
    · rw [hc.1] at he
      cases he

theorem owing_load (hcl : s.packfile = []) (hd : s.onDisk = true) (hr : r ∈ s.ranges)
    (hst : r.status = .returned false) : Owing s.load r.id := by
  rcases h.owing r hr hst with ⟨file, hfi, _⟩ | ⟨_, _, hpos, c, hc, hid, _⟩
  · exact absurd hcl (loaded_of_file? hfi)
  · have hh : r.id ≤ s.disk.highest := by
      apply Disk.le_highest
      have hf := hlaid.filed hd r hr (isReturned_of_status hst)
      have := hlaid.offset_lt_stop hr
      omega
    refine ⟨_, by rw [file?_load, if_pos ⟨hpos, hh⟩], ?_⟩
    rw [if_pos (any_eq_true.mpr ⟨c, hc, decide_eq_true hid⟩)]
    exact ⟨rfl, rfl⟩

theorem load (hc : s.packfile = [])
    (hd : s.onDisk = true) (hidl : s.idle = true) : Unsettled s.load := by
  refine ⟨?_, ?_, fun r hr hst => .inl (h.owing_load hlaid hc hd hr hst)⟩
  · intro id hid
    obtain ⟨hmem, hl⟩ := mem_filter.mp hid
    obtain ⟨index, hi, rfl⟩ := mem_map.mp hmem
    have hlt := mem_range.mp hi
    refine ⟨_, by rw [file?_load, if_pos ⟨Nat.succ_pos index, hlt⟩], ?_⟩
    split
    · rfl
    · exact decide_eq_false (Nat.not_le.mpr (of_decide_eq_true hl))
  · intro r hr hw
    exact (not_in_flight hidl hr hw).elim

end

theorem mem_unsynced (hf : s.file? id = some file) (hd : file.dirty = true)
    (hse : file.settled = false) : ⟨id, clampU32 file.size⟩ ∈ s.unsynced := by
  obtain ⟨hpos, hget⟩ := file?_eq_some.mp hf
  refine mem_filterMap.mpr ⟨(file, id), ?_, by simp [hd, hse]⟩
  rw [mem_zipIdx_iff_le_and_getElem?_sub]
  exact ⟨hpos, hget⟩

theorem close (h : Unsettled s) (hlaid : Laid s) (hdi : s.onDisk = true) (hi : s.idle = true)
    (hl : s.packfile ≠ []) : Unsettled (s.close (s.released ++ s.unsynced)) := by
  refine ⟨fun _ hid => (nomatch hid), ?_, ?_⟩
  · intro r hr hw
    exact (not_in_flight hi hr hw).elim
  · intro r hr hst
    right
    obtain ⟨file, hf, hd, hse⟩ := h.opened (.inl hl) hr hst
    refine ⟨rfl, hdi, (le_length_of_file? hf).1, _,
      mem_append_right _ (mem_unsynced hf hd hse), rfl, ?_⟩
    intro q hq hid
    exact clampU32_le_clampU32 (hlaid.held q hq file (by rw [hid]; exact hf))

/-! ## Marks of one packfile -/

theorem modifyFile_of_nil {f} (h : s.packfile = []) : s.modifyFile id f = s := by
  cases s
  subst h
  unfold PackStore.modifyFile
  split <;> simp

/-- One packfile is changed, and the ranges with it: a range that was there owes its sync still,
and a new one is in what takes writes, or owes its sync. -/
theorem touch (h : Unsettled s) (hl : s.packfile ≠ []) (id : Nat) {f : PackFile → PackFile}
    {ranges : List PackRange} (disk : Disk) (owed : List Nat)
    (hwr : id ∈ s.writeable → ∀ file, file.settled = false → (f file).settled = false)
    (hra : ∀ r ∈ ranges,
      (r ∈ s.ranges ∧ (r.id = id → r.status = .returned false → ∀ file, s.file? id = some file →
        file.dirty = true → file.settled = false → (f file).dirty = true ∧ (f file).settled = false))
      ∨ ((r.isReturned = false → r.id ∈ s.writeable) ∧
        (r.status = .returned false → Owing (s.modifyFile id f) r.id))) :
    Unsettled { s.modifyFile id f with ranges := ranges, disk := disk, owed := owed } := by
  refine ⟨?_, ?_, ?_⟩
  · intro other ho
    rw [modifyFile_writeable] at ho
    obtain ⟨file, hfi, hse⟩ := h.writes other ho
    by_cases heq : other = id
    · refine ⟨f file, (file?_modifyFile ..).trans ?_, hwr (heq ▸ ho) file hse⟩
      rw [if_pos heq, hfi, Option.map_some]
    · exact ⟨file, (file?_modifyFile ..).trans (by rw [if_neg heq, hfi]), hse⟩
  · intro r hr hw
    show r.id ∈ (s.modifyFile id f).writeable
    rw [modifyFile_writeable]
    exact (hra r hr).elim (fun hold => h.flight r hold.1 hw) fun hnew => hnew.1 hw
  · intro r hr hst
    left
    rcases hra r hr with ⟨hold, hm⟩ | hnew
    · obtain ⟨file, hfi, hd, hse⟩ := h.opened (.inl hl) hold hst
      by_cases heq : r.id = id
      · refine ⟨f file, (file?_modifyFile ..).trans ?_, hm heq hst file (heq ▸ hfi) hd hse⟩
        rw [if_pos heq, hfi, Option.map_some]
      · exact ⟨file, (file?_modifyFile ..).trans (by rw [if_neg heq, hfi]), hd, hse⟩
    · exact hnew.2 hst

theorem modifyFile (h : Unsettled s) (hl : s.packfile ≠ []) (id : Nat) {f : PackFile → PackFile}
    (hwr : id ∈ s.writeable → ∀ file, file.settled = false → (f file).settled = false)
    (hra : ∀ r ∈ s.ranges, r.id = id → r.status = .returned false → ∀ file,
      s.file? id = some file → file.dirty = true → file.settled = false →
      (f file).dirty = true ∧ (f file).settled = false) : Unsettled (s.modifyFile id f) := by
  refine h.touch hl id _ _ hwr ?_
  show ∀ r ∈ (s.modifyFile id f).ranges, _
  rw [modifyFile_ranges]
  exact fun r hr => .inl ⟨hr, hra r hr⟩

/-! ## Syncing -/

theorem sync_settled (onDisk reports : Bool) (file : PackFile) :
    (file.sync onDisk reports).1.settled = file.settled := by
  unfold PackFile.sync
  split
  · rfl
  · split
    · rfl
    · split <;> rfl

/-- A sync that covered nothing leaves a packfile dirty, and answers `Ok` only of one that
is not. -/
theorem sync_uncovering {onDisk reports} (h : (file.sync onDisk reports).2.1 = false) :
    (file.dirty = true → (file.sync onDisk reports).1.dirty = true)
    ∧ ((file.sync onDisk reports).2.2 = true → file.dirty = false) := by
  unfold PackFile.sync at h ⊢
  split
  case isTrue => exact ⟨id, fun hok => nomatch hok⟩
  case isFalse hsy =>
    rw [if_neg hsy] at h
    split
    case isTrue hcl => exact ⟨id, fun _ => by simpa using hcl⟩
    case isFalse hd =>
      rw [if_neg hd] at h
      split
      case isTrue hc =>
        rw [if_pos hc] at h
        cases h
      case isFalse => exact ⟨fun _ => rfl, fun hok => nomatch hok⟩

theorem mem_cover (hr : r ∈ s.cover id) (hst : r.status = .returned false) :
    r ∈ s.ranges ∧ r.id ≠ id := by
  obtain ⟨q, hq, rfl⟩ := mem_map.mp hr
  split at hst
  case isTrue => cases hst
  case isFalse hnot =>
    rw [if_neg hnot]
    exact ⟨hq, fun heq => hnot ⟨heq, isReturned_of_status hst⟩⟩

/-- A sync keeps the marks right; one that answers `Ok` leaves no range of its packfile
uncovered. -/
theorem syncFile (h : Unsettled s) (id : Nat) (reports : Bool) :
    Unsettled (s.syncFile id reports).1
    ∧ ((s.syncFile id reports).2 = true →
      ∀ r ∈ (s.syncFile id reports).1.ranges, r.id = id → r.status ≠ .returned false) := by
  unfold PackStore.syncFile
  cases hf : s.file? id with
  | none => exact ⟨h, fun hok => nomatch hok⟩
  | some file =>
    dsimp only
    have hl := loaded_of_file? hf
    have hse : id ∈ s.writeable → ∀ file : PackFile, file.settled = false →
        (file.sync s.onDisk reports).1.settled = false :=
      fun _ file hs => (sync_settled _ _ file).trans hs
    split
    case isTrue hco =>
      refine ⟨h.touch hl id _ _ hse fun r hr => ?_, fun _ r hr hid hst => (mem_cover hr hst).2 hid⟩
      obtain ⟨q, hq, rfl⟩ := mem_map.mp hr
      split
      case isTrue => exact .inr ⟨nofun, nofun⟩
      case isFalse hnot =>
        exact .inl ⟨hq, fun heq hst => absurd ⟨heq, isReturned_of_status hst⟩ hnot⟩
    case isFalse hco =>
      rw [Bool.not_eq_true] at hco
      have hdi := sync_uncovering hco
      refine ⟨h.modifyFile hl id hse ?_, ?_⟩
      · intro r _ _ _ other hot hd hs
        rw [hf] at hot
        cases hot
        exact ⟨hdi.1 hd, (sync_settled _ _ file).trans hs⟩
      · -- clean before, so that no range of it is uncovered
        rw [modifyFile_ranges]
        intro hok r hr hid hst
        obtain ⟨other, hot, hd, _⟩ := h.opened (.inl hl) hr hst
        rw [hid, hf] at hot
        cases hot
        exact absurd (hd.symm.trans (hdi.2 hok)) (by decide)

theorem settle (h : Unsettled s) (hoff : id ∉ s.writeable) (reports : Bool) :
    Unsettled (s.settle id reports) := by
  obtain ⟨hsy, hc⟩ := h.syncFile id reports
  unfold PackStore.settle
  dsimp only
  split
  case isFalse => exact hsy
  case isTrue hok =>
    by_cases hl : (s.syncFile id reports).1.packfile = []
    · rwa [modifyFile_of_nil hl]
    · refine hsy.modifyFile hl id (fun hmem => absurd hmem ?_) fun r hr heq hst =>
        absurd hst (hc hok r hr heq)
      rw [syncFile_writeable]
      exact hoff

theorem redisk (h : Unsettled s) (disk : Disk) : Unsettled { s with disk := disk } :=
  ⟨h.writes, h.flight, h.owing⟩

/-! ## Stores -/

section

variable (h : Unsettled s)
include h

theorem list_of_flight (hmem : id ∈ s.writeable) : s.packfile ≠ [] := by
  obtain ⟨file, hf, _⟩ := h.writes id hmem
  exact loaded_of_file? hf

theorem reserve {payload file} (hmem : id ∈ s.writeable) :
    Unsettled (s.reserve id payload file) := by
  refine h.touch (h.list_of_flight hmem) id _ _ (fun _ _ hs => hs) fun r hr => ?_
  rcases mem_append.mp hr with hr | hr
  · exact .inl ⟨hr, fun _ _ file _ hd hs => ⟨by rw [hd, Bool.true_or], hs⟩⟩
  · -- a packstore in memory has stored it already, and marked its packfile dirty
    rw [mem_singleton] at hr
    subst hr
    refine .inr ⟨fun _ => hmem, fun hst => ?_⟩
    obtain ⟨old, hold, hse⟩ := h.writes id hmem
    have hm : s.onDisk = false := by
      cases hdi : s.onDisk with
      | false => rfl
      | true =>
        simp only [hdi] at hst
        cases hst
    have hget : (s.reserve id payload file).file? id = (s.file? id).map _ :=
      (file?_modifyFile s id id _).trans (if_pos rfl)
    rw [hold] at hget
    exact ⟨_, hget, by simp [hm], hse⟩

theorem erase (hmem : id ∈ s.writeable) (index : Nat) (disk : Disk) :
    Unsettled { s with disk := disk, ranges := s.ranges.eraseIdx index } := by
  refine ⟨h.writes, fun q hq => h.flight q (mem_of_mem_eraseIdx hq), fun q hq hst => .inl ?_⟩
  exact h.opened (.inl (h.list_of_flight hmem)) (mem_of_mem_eraseIdx hq) hst

theorem land {index r} (hr : s.ranges[index]? = some r) {awaited}
    (hst : r.status = .writing awaited) : Unsettled (s.land index r awaited) := by
  have hw : r.isReturned = false := by rw [PackRange.isReturned, hst]
  have hmem := h.flight r (mem_of_getElem? hr) hw
  cases awaited with
  | false => exact h.erase hmem index _
  | true =>
    refine h.touch (h.list_of_flight hmem) r.id _ _ (fun _ _ hs => hs) fun q hq => ?_
    rcases mem_modify_cases hr hq with hq | rfl
    · exact .inl ⟨hq, fun _ _ file _ _ hs => ⟨rfl, hs⟩⟩
    · obtain ⟨file, hf, hse⟩ := h.writes r.id hmem
      refine .inr ⟨by rintro ⟨⟩, fun _ => ⟨{ file with dirty := true }, ?_, rfl, hse⟩⟩
      rw [file?_modifyFile, if_pos rfl, hf, Option.map_some]

theorem fail {index r} (hr : s.ranges[index]? = some r) {awaited}
    (hst : r.status = .writing awaited) (written : Nat) :
    Unsettled (s.fail index r awaited written) := by
  have hw : r.isReturned = false := by rw [PackRange.isReturned, hst]
  have hmem := h.flight r (mem_of_getElem? hr) hw
  cases awaited with
  | false => exact h.erase hmem index _
  | true =>
    refine h.touch (h.list_of_flight hmem) r.id _ _ (fun _ file hs => ?_) fun q hq =>
      .inl ⟨mem_of_mem_eraseIdx hq, fun _ _ file _ hd hs => ?_⟩
    · split <;> exact hs
    · split <;> exact ⟨hd, hs⟩

theorem drop {index r} (hr : s.ranges[index]? = some r)
    (hw : r.isReturned = false) : Unsettled { s with
      ranges := s.ranges.modify index fun r => { r with status := .writing false } } := by
  have hmem := h.flight r (mem_of_getElem? hr) hw
  refine ⟨h.writes, ?_, ?_⟩
  · intro q hq hq'
    rcases mem_modify_cases hr hq with hq | rfl
    · exact h.flight q hq hq'
    · exact hmem
  · intro q hq hq'
    rcases mem_modify_cases hr hq with hq | rfl
    · exact .inl (h.opened (.inl (h.list_of_flight hmem)) hq hq')
    · cases hq'

end

/-! ## Packfiles taken out of writes and back -/

theorem emptyPackfile (h : Unsettled s) (hl : s.packfile ≠ []) (synced : Bool) :
    Unsettled (s.emptyPackfile id synced) := by
  refine h.touch hl id _ _ (fun _ _ _ => rfl) fun r hr => ?_
  obtain ⟨hmem, hne⟩ := mem_filter.mp hr
  exact .inl ⟨hmem, fun heq => absurd heq (of_decide_eq_true hne)⟩

theorem change {start action} (h : Unsettled s) (hlaid : Laid s)
    (hk : KeepsUnsettled start action) (hch : Change start action s t) : Unsettled t := by
  cases hch with
  | opens hb =>
    refine h.openNext fun r hr hst => h.opened ?_ hr hst
    rcases hb with hli | hm | hn | ⟨hf, hc, hd⟩
    · exact .inl hli
    · exact .inr (.inl hm)
    · exact .inr (.inr hn)
    · have hl : start.packfile ≠ [] ∨ start.onDisk = false := by
        cases action <;> first | exact hk | cases hf
      rcases hl with hli | hm
      · exact absurd hc hli
      · exact absurd (hm.symm.trans hd) Bool.false_ne_true
  | discards removes he => exact h.discardLast hlaid he removes
  | loads hc hd hi => exact h.load hlaid hc hd hi
  | lists | dropsMark => exact h.relist _ _
  | unlists hi hsub => exact h.unlist hi fun _ hid => hsub.subset hid
  | takesOff hi =>
    exact (h.unlist hi fun _ hid => mem_of_mem_erase hid).relist _ _
  | syncs id reports => exact (h.syncFile id reports).1
  | @settles id reports => exact (h.relist s.owed (s.settling.erase id)).settle hk reports
  | zeroes => exact h.redisk _
  | dirties id =>
    by_cases hl : s.packfile = []
    · rwa [modifyFile_of_nil hl]
    · exact h.modifyFile hl id (fun _ _ hs => hs) fun _ _ _ _ _ _ _ hs => ⟨rfl, hs⟩
  | reserves _ _ hmem => exact h.reserve hmem
  | lands hr hst => exact h.land hr hst
  | fails written hr hst => exact h.fail hr hst written
  | drops hr hw => exact h.drop hr hw
  | @restarts _ _ _ _ id file hid hsta hfi ht =>
    refine h.insertWriteable hfi ?_
    rw [← Bool.not_eq_true]
    exact fun hse => ht (hk id hid file hsta hse)
  | empties synced _ _ hfi => exact h.emptyPackfile (loaded_of_file? hfi) synced
  | putsBack _ hfi hse => exact h.insertWriteable hfi hse
  | closes hd hi hli => exact h.close hlaid hd hi hli
  | forgets => exact hk.elim

theorem mem_unsettledSizes (hf : s.file? id = some file) (hse : file.settled = false) :
    ⟨id, clampU32 file.size⟩ ∈ s.unsettledSizes := by
  obtain ⟨hpos, hget⟩ := file?_eq_some.mp hf
  rw [PackStore.unsettledSizes, if_neg (loaded_of_file? hf)]
  refine mem_filterMap.mpr ⟨(file, id), ?_, by simp [hse]⟩
  rw [mem_zipIdx_iff_le_and_getElem?_sub]
  exact ⟨hpos, hget⟩

end Unsettled

/-- The sizes reported cover the range: its packfile is reported with a size past its start,
and past its end as far as 32 bits say. -/
def ReportedIn (sizes : List ReservedSize) (r : PackRange) : Prop :=
  ∃ size, ⟨r.id, size⟩ ∈ sizes ∧ r.offset < size ∧ clampU32 r.stop ≤ size

/-- In every packstore a run of steps under the condition reaches, no packfile that takes
writes is settled, and each range handed out is covered by the sizes `unsettled_sizes`
reports, or is in a packfile all of whose writes a successful sync covered. -/
theorem writeable_packfiles_unsettled {onDisk : Bool} {minCount : Nat} {disk : Disk}
    {actions : List PackAction} {s : PackStore}
    (hrun : run packStep (.new onDisk minCount disk) actions = some s)
    (hkeeps : StepsMeet packStep KeepsUnsettled (.new onDisk minCount disk) actions) :
    (∀ id ∈ s.writeable, ∃ file, s.file? id = some file ∧ file.settled = false)
    ∧ ∀ r ∈ s.ranges, r.isReturned = true →
      ReportedIn s.unsettledSizes r
      ∨ ∀ q ∈ s.ranges, q.id = r.id → q.isReturned = true → q.status = .returned true := by
  obtain ⟨hlaid, h⟩ : Laid s ∧ Unsettled s :=
    @run_invariant_of_stepsMeet _ _ packStep (fun s => Laid s ∧ Unsettled s) _
      (fun s action t h hg hste => @PackStore.packStep_keeps s t action (fun s => Laid s ∧ Unsettled s)
        (fun _ _ h hch => ⟨h.1.change hch, h.2.change h.1 hg hch⟩) h hste) _ _ _
      ⟨.new onDisk minCount disk, .new onDisk minCount disk⟩ hkeeps hrun
  refine ⟨h.writes, fun r hr hre => ?_⟩
  by_cases hco : ∀ q ∈ s.ranges, q.id = r.id → q.isReturned = true → q.status = .returned true
  · exact .inr hco
  · left
    push Not at hco
    obtain ⟨q, hq, hid, hqr, hsta⟩ := hco
    have hu : q.status = .returned false := by
      cases hs : q.status with
      | writing awaited =>
        rw [PackRange.isReturned, hs] at hqr
        cases hqr
      | returned covered =>
        cases covered with
        | false => rfl
        | true => exact absurd hs hsta
    -- a size past the end of the range is past its start, which fits 32 bits
    have hst : ∀ {size}, clampU32 r.stop ≤ size → r.offset < size := by
      intro size hsi
      have hl := (hlaid.inside r hr).2
      have hsto := hlaid.offset_lt_stop hr
      unfold clampU32 at hsi
      unfold packstoreSizeLimit at hl
      omega
    rcases h.owing q hq hu with ⟨file, hf, _, hse⟩ | ⟨hcl, _, _, c, hc, hcid, hsi⟩
    · rw [hid] at hf
      have hsi := Unsettled.clampU32_le_clampU32 (hlaid.held r hr file hf)
      exact ⟨_, Unsettled.mem_unsettledSizes hf hse, hst hsi, hsi⟩
    · have hsi := hsi r hr hid.symm
      refine ⟨c.size, ?_, hst hsi, hsi⟩
      rw [PackStore.unsettledSizes, if_pos hcl, ← hid, ← hcid]
      exact hc

instance (s : PackStore) (action : PackAction) : Decidable (KeepsUnsettled s action) :=
  match action with
  | .restartWrites restarted _ _ =>
    inferInstanceAs (Decidable (∀ id ∈ restarted, ∀ file ∈ s.file? id,
      file.settled = true → packstoreSizeLimit ≤ file.size ∨ file.syncFailed = true))
  | .settle id _ => inferInstanceAs (Decidable (id ∉ s.writeable))
  | .markFull .. | .refill _ => inferInstanceAs (Decidable (s.packfile ≠ [] ∨ s.onDisk = false))
  | .forget => instDecidableFalse
  | .resume .. | .reserve .. | .foundFull _ | .land _ | .fail .. | .drop _ | .dropMarkFull _
  | .flush .. | .flushAll _ | .obliterate .. | .stopWrites .. | .truncate .. | .releaseFiles =>
    instDecidableTrue

/-- The sync of a packfile fails and it is truncated, takes another payload, is full and settled
in time; the next one takes a payload, is stopped and takes writes again. -/
def settledInTime : List PackAction :=
  [.resume true 1, .reserve 1 [7], .land 0, .flush 1 false, .stopWrites [1] 1,
    .truncate 1 .synced (fun _ => true) 1, .reserve 1 [7], .land 0, .markFull 1 1, .settle 1 true,
    .reserve 2 [8], .land 1, .stopWrites [2] 1, .restartWrites [2] (fun _ => true) 1]

theorem writeable_packfiles_unsettled_in_time :
    ∃ s, run packStep (.new true 1 ⟨[]⟩) settledInTime = some s
      ∧ s.writeable = [2] ∧ (s.file? 1).map (·.settled) = some true
      ∧ s.ranges = [⟨1, 0, [7], .returned true⟩, ⟨2, 0, [8], .returned false⟩]
      ∧ (∃ file, s.file? 2 = some file ∧ file.settled = false)
      ∧ ReportedIn s.unsettledSizes ⟨2, 0, [8], .returned false⟩ := by
  have hk : StepsMeet packStep KeepsUnsettled (.new true 1 ⟨[]⟩) settledInTime := by decide
  obtain ⟨hwrites, hreported⟩ := writeable_packfiles_unsettled rfl hk
  refine ⟨_, rfl, rfl, rfl, rfl, hwrites 2 (mem_singleton_self 2), ?_⟩
  refine (hreported _ (mem_cons_of_mem _ (mem_singleton_self _)) rfl).resolve_right fun hall => ?_
  cases hall _ (mem_cons_of_mem _ (mem_singleton_self _)) rfl rfl

/-- A sync fails, and the packfile is taken off the list, truncated and takes writes again
before the task that settles it runs. Then a payload is stored. -/
def settledTooLate : List PackAction :=
  [.resume true 1, .reserve 1 [7], .land 0, .flush 1 false, .markFull 1 1,
    .truncate 1 .synced (fun _ => true) 1, .settle 1 true, .reserve 1 [8], .land 0]

/-- The task finds the emptied packfile clean and settles it: what is stored in it next is
covered by no sync, and its size is reported no more. -/
theorem settled_packfile_takes_writes :
    ∃ s, run packStep (.new true 1 ⟨[]⟩) settledTooLate = some s
      ∧ s.writeable = [1] ∧ (s.file? 1).map (·.settled) = some true
      ∧ s.ranges = [⟨1, 0, [8], .returned false⟩] ∧ s.unsettledSizes = [] :=
  ⟨_, rfl, rfl, rfl, rfl, rfl⟩

/-- A packstore opened over whatever a crash left that is not short of the sizes recorded in a
state a run reached: it has each packfile that was not settled then, and opened it at a length
past every range of it, as far as 32 bits say. -/
theorem not_short_of_recorded {onDisk : Bool} {minCount : Nat} {disk : Disk}
    {actions : List PackAction} {s reopened : PackStore}
    (hrun : run packStep (.new onDisk minCount disk) actions = some s)
    (hshort : reopened.shortOf s.unsettledSizes = false) {r : PackRange} (hr : r ∈ s.ranges)
    {file : PackFile} (hf : s.file? r.id = some file) (hse : file.settled = false) :
    ∃ after, reopened.file? r.id = some after ∧ clampU32 r.stop ≤ after.opened := by
  have hlaid := Laid.of_run hrun
  have hsize := Unsettled.clampU32_le_clampU32 (hlaid.held r hr file hf)
  have hstop : 0 < clampU32 r.stop := by
    have := hlaid.offset_lt_stop hr
    unfold clampU32
    omega
  have hopened := any_eq_false.mp hshort _ (Unsettled.mem_unsettledSizes hf hse)
  simp only [decide_eq_true_eq, Nat.not_lt] at hopened
  cases ho : reopened.file? r.id with
  | none =>
    rw [ho] at hopened
    exact absurd (Nat.le_trans hsize hopened) (Nat.not_le.mpr hstop)
  | some after =>
    rw [ho] at hopened
    exact ⟨after, rfl, Nat.le_trans hsize hopened⟩

theorem not_short_of_recorded_stored : ∃ s, run packStep (.new true 1 ⟨[]⟩)
      [.resume true 1, .reserve 1 [7], .land 0] = some s
    ∧ ∃ after, (s.releaseFiles.resume true 1).file? 1 = some after ∧ 1 ≤ after.opened := by
  have hrun : run packStep (.new true 1 ⟨[]⟩) [.resume true 1, .reserve 1 [7], .land 0] = some _ :=
    rfl
  exact ⟨_, hrun, not_short_of_recorded hrun (r := ⟨1, 0, [7], .returned false⟩) (by decide)
    mem_cons_self rfl rfl⟩

end Lore.Storage
