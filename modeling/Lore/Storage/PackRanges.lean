import Lore.Lib.Indexed
import Lore.Storage.PackChanges

/-!
# PackRanges — no two ranges of a packfile overlap

`Laid` says where the ranges written and handed out lie: apart from each other, inside what
is reserved in their packfile and, once handed out, inside its file. The file's length is
what a packfile is reopened with, so the ranges stay inside whatever is closed and opened
again. A write that fails gives its range back only where it is the last, so that nothing
another write reserved is given back with it.
-/

namespace Lore.Storage

open Lore.Lib List Option

/-! ## The layout -/

/-- The ranges do not overlap. -/
def Apart (r q : PackRange) : Prop := r.id = q.id → r.stop ≤ q.offset ∨ q.stop ≤ r.offset

theorem Apart.symm {r q} (h : Apart r q) : Apart q r := fun heq => (h heq.symm).symm

/-- Where the ranges lie. -/
structure Laid (s : PackStore) : Prop where
  apart : s.ranges.Pairwise Apart
  inside : ∀ r ∈ s.ranges, r.payload ≠ [] ∧ r.offset < packstoreSizeLimit
  held : ∀ r ∈ s.ranges, ∀ file, s.file? r.id = some file → r.stop ≤ file.size
  filed : s.onDisk = true → ∀ r ∈ s.ranges, r.isReturned = true → r.stop ≤ s.disk.length r.id
  loaded : ∀ r ∈ s.ranges, s.onDisk = false ∨ r.isReturned = false →
    ∃ file, s.file? r.id = some file

namespace Laid

open PackStore

variable {s t : PackStore} {id : Nat}

theorem new (onDisk : Bool) (minCount : Nat) (disk : Disk) :
    Laid (PackStore.new onDisk minCount disk) where
  apart := List.Pairwise.nil
  inside _ hr := nomatch hr
  held _ hr := nomatch hr
  filed _ _ hr := nomatch hr
  loaded _ hr := nomatch hr

section

variable (h : Laid s)
include h

theorem offset_lt_stop {r} (hr : r ∈ s.ranges) : r.offset < r.stop := by
  have hpos := length_pos_iff.mpr (h.inside r hr).1
  unfold PackRange.stop
  omega

omit h in
theorem isReturned_of_idle (hi : s.idle = true) {r} (hr : r ∈ s.ranges) : r.isReturned = true :=
  all_eq_true.mp hi r hr

theorem relist (writeable owed settling : List Nat) :
    Laid { s with writeable := writeable, owed := owed, settling := settling } := { h with }

theorem modifyFile (id : Nat) {f : PackFile → PackFile}
    (hf : ∀ file, (f file).size = file.size) : Laid (s.modifyFile id f) := by
  have hfi : ∀ other file, (s.modifyFile id f).file? other = some file →
      ∃ old, s.file? other = some old ∧ old.size = file.size := by
    intro other file hfi
    rw [file?_modifyFile] at hfi
    split at hfi
    · obtain ⟨old, hold, rfl⟩ := map_eq_some_iff.mp hfi
      exact ⟨old, hold, (hf old).symm⟩
    · exact ⟨file, hfi, rfl⟩
  refine ⟨by simpa using h.apart, by simpa using h.inside, ?_, by simpa using h.filed, ?_⟩
  · intro r hr file hget
    rw [modifyFile_ranges] at hr
    obtain ⟨old, hold, hsi⟩ := hfi r.id file hget
    exact hsi ▸ h.held r hr old hold
  · intro r hr hn
    rw [modifyFile_ranges] at hr
    rw [modifyFile_onDisk] at hn
    obtain ⟨file, hget⟩ := h.loaded r hr hn
    rw [file?_modifyFile]
    split
    · exact ⟨f file, by rw [hget, map_some]⟩
    · exact ⟨file, hget⟩

theorem map_ranges {g : PackRange → PackRange} (hid : ∀ r, (g r).id = r.id)
    (ho : ∀ r, (g r).offset = r.offset) (hp : ∀ r, (g r).payload = r.payload)
    (hst : ∀ r, (g r).isReturned = r.isReturned) : Laid { s with ranges := s.ranges.map g } := by
  have hsto : ∀ r, (g r).stop = r.stop := by
    intro r
    rw [PackRange.stop, PackRange.stop, ho, hp]
  refine ⟨?_, ?_, ?_, ?_, ?_⟩
  · refine pairwise_map.mpr (h.apart.imp fun hrq heq => ?_)
    rw [hid, hid] at heq
    rw [hsto, hsto, ho, ho]
    exact hrq heq
  · rintro r hr
    obtain ⟨q, hq, rfl⟩ := mem_map.mp hr
    rw [hp, ho]
    exact h.inside q hq
  · rintro r hr file hf
    obtain ⟨q, hq, rfl⟩ := mem_map.mp hr
    rw [hid] at hf
    rw [hsto]
    exact h.held q hq file hf
  · rintro hd r hr hre
    obtain ⟨q, hq, rfl⟩ := mem_map.mp hr
    rw [hst] at hre
    rw [hid, hsto]
    exact h.filed hd q hq hre
  · rintro r hr hn
    obtain ⟨q, hq, rfl⟩ := mem_map.mp hr
    rw [hst] at hn
    rw [hid]
    exact h.loaded q hq hn

theorem sublist {ranges} (hsub : ranges.Sublist s.ranges) {disk}
    (hd : ∀ r ∈ ranges, s.disk.length r.id ≤ disk.length r.id) :
    Laid { s with ranges := ranges, disk := disk } where
  apart := h.apart.sublist hsub
  inside r hr := h.inside r (hsub.subset hr)
  held r hr := h.held r (hsub.subset hr)
  filed hoD r hr hre :=
    Nat.le_trans (h.filed hoD r (hsub.subset hr) hre) (hd r hr)
  loaded r hr := h.loaded r (hsub.subset hr)

/-! ## Opening and closing -/

theorem openNext : Laid s.openNext := by
  have hl : ∀ id, s.openNext.disk.length id = s.disk.length id := by
    intro id
    unfold PackStore.openNext
    by_cases hd : s.onDisk = true
    · simp only [hd, if_true]
      rw [Disk.length, Disk.bytes_create, Disk.length]
    · simp only [hd]
      rfl
  refine ⟨h.apart, h.inside, ?_, ?_, ?_⟩
  · intro r hr file hf
    rw [file?_openNext] at hf
    split at hf
    case isTrue hid =>
      cases hf
      -- a range of the packfile opened is in its file, as nothing else of it was loaded
      have hnew : ¬ (s.onDisk = false ∨ r.isReturned = false) := by
        intro hn
        obtain ⟨file, hf⟩ := h.loaded r hr hn
        have := (le_length_of_file? hf).2
        omega
      rw [not_or, Bool.not_eq_false, Bool.not_eq_false] at hnew
      rw [hnew.1, ← hid]
      exact h.filed hnew.1 r hr hnew.2
    case isFalse => exact h.held r hr file hf
  · intro hd r hr hre
    rw [hl]
    exact h.filed hd r hr hre
  · intro r hr hn
    obtain ⟨file, hf⟩ := h.loaded r hr hn
    rw [file?_openNext, if_neg]
    · exact ⟨file, hf⟩
    · have := (le_length_of_file? hf).2
      omega

theorem ne_last (he : s.packfile.getLast?.map (·.size) = some 0) {r}
    (hr : r ∈ s.ranges) : r.id ≠ s.packfile.length := by
  intro heq
  obtain ⟨last, hl, hsi⟩ := map_eq_some_iff.mp he
  have hpos : 0 < s.packfile.length := by
    rw [length_pos_iff]
    rintro hnil
    rw [hnil] at hl
    cases hl
  rw [getLast?_eq_getElem?] at hl
  have hst := h.held r hr last (by rw [file?_eq_some, heq]; exact ⟨hpos, hl⟩)
  have := h.offset_lt_stop hr
  omega

theorem discardLast (he : s.packfile.getLast?.map (·.size) = some 0)
    (removes : Nat → Bool) : Laid (s.discardLast removes) := by
  have ho : ∀ r ∈ s.ranges, r.id ≠ s.packfile.length := fun r hr => h.ne_last he hr
  refine ⟨h.apart, h.inside, ?_, ?_, ?_⟩
  · intro r hr file hf
    rw [file?_discardLast, if_neg (ho r hr)] at hf
    exact h.held r hr file hf
  · intro hd r hr hre
    unfold PackStore.discardLast
    dsimp only
    split
    · rw [Disk.length, Disk.bytes_remove_of_ne s.disk (ho r hr)]
      exact h.filed hd r hr hre
    · exact h.filed hd r hr hre
  · intro r hr hn
    rw [file?_discardLast, if_neg (ho r hr)]
    exact h.loaded r hr hn

omit h in
theorem length_foldl_create (ids : List Nat) (disk : Disk) (id : Nat) :
    (ids.foldl Disk.create disk).length id = disk.length id := by
  induction ids generalizing disk with
  | nil => rfl
  | cons other ids ih =>
    rw [foldl_cons, ih, Disk.length, Disk.bytes_create, Disk.length]

theorem load (hd : s.onDisk = true) (hi : s.idle = true) : Laid s.load := by
  have hre : ∀ {r}, r ∈ s.ranges → r.isReturned = true := isReturned_of_idle hi
  refine ⟨h.apart, h.inside, ?_, ?_, ?_⟩
  · intro r hr file hf
    have hsi : file.size = s.disk.length r.id := by
      rw [file?_load] at hf
      obtain ⟨-, rfl⟩ := guarded hf
      split <;> rfl
    rw [hsi]
    exact h.filed hd r hr (hre hr)
  · intro _ r hr _
    exact Nat.le_trans (h.filed hd r hr (hre hr)) (Nat.le_of_eq (length_foldl_create _ _ _).symm)
  · intro r hr hn
    rcases hn with hm | hw
    · exact absurd (hm.symm.trans hd) Bool.false_ne_true
    · exact absurd (hw.symm.trans (hre hr)) Bool.false_ne_true

theorem close (hd : s.onDisk = true) (hi : s.idle = true)
    (released : List ReservedSize) : Laid (s.close released) where
  __ := h
  held r _ file hf := by
    rw [file?_eq_some] at hf
    exact nomatch hf.2
  loaded r hr hn := by
    rcases hn with hm | hw
    · exact absurd (hm.symm.trans hd) Bool.false_ne_true
    · exact absurd (hw.symm.trans (isReturned_of_idle hi hr)) Bool.false_ne_true

theorem forget (hi : s.idle = true) : Laid s.forget := by
  unfold PackStore.forget
  cases hd : s.onDisk with
  | true => exact h.close hd hi []
  | false =>
    exact ⟨List.Pairwise.nil, (fun _ hr => nomatch hr), (fun _ hr => nomatch hr),
      (fun _ _ hr => nomatch hr), (fun _ hr => nomatch hr)⟩

/-! ## Syncing -/

omit h in
theorem sync_size (onDisk reports : Bool) (file : PackFile) :
    (file.sync onDisk reports).1.size = file.size := by
  unfold PackFile.sync
  split
  · rfl
  · split
    · rfl
    · split <;> rfl

theorem syncFile (id : Nat) (reports : Bool) : Laid (s.syncFile id reports).1 := by
  unfold PackStore.syncFile
  cases hf : s.file? id with
  | none => exact h
  | some file =>
    dsimp only
    have hmo := h.modifyFile id (sync_size s.onDisk reports)
    split
    case isFalse => exact hmo
    case isTrue =>
      have hm := hmo.map_ranges (g := fun r =>
          if r.id = id ∧ r.isReturned then { r with status := .returned true } else r)
        (by intro r; split <;> rfl) (by intro r; split <;> rfl) (by intro r; split <;> rfl)
        (by
          intro r
          split
          case isTrue hr => rw [hr.2]; rfl
          case isFalse => rfl)
      rw [modifyFile_ranges] at hm
      refine ⟨hm.apart, hm.inside, hm.held, ?_, hm.loaded⟩
      intro hd r hr hre
      have hl := hm.filed hd r hr hre
      rw [modifyFile_onDisk] at hd
      rw [modifyFile_disk] at hl
      simp only [hd, if_true]
      rw [Disk.length, Disk.bytes_sync]
      exact hl

theorem settle (id : Nat) (reports : Bool) : Laid (s.settle id reports) := by
  have hsy := h.syncFile id reports
  exact settle_rule (P := Laid) hsy (hsy.modifyFile id fun _ => rfl)

end

/-! ## Stores -/

section

variable (h : Laid s)
include h

/-- The range reserved starts where all the others of its packfile have ended. -/
theorem reserve {payload : Bytes} {file} (hf : s.file? id = some file) (hp : payload ≠ [])
    (hl : file.size < packstoreSizeLimit) : Laid (s.reserve id payload file) := by
  have hget : ∀ other, (s.reserve id payload file).file? other
      = if other = id then (s.file? other).map fun file =>
          { file with
            size := file.size + payload.length
            dirty := file.dirty || !s.onDisk
            buffer := if s.onDisk then file.buffer else file.buffer ++ payload }
        else s.file? other := fun other => file?_modifyFile s other id _
  refine ⟨?_, ?_, ?_, ?_, ?_⟩
  · refine pairwise_append.mpr ⟨h.apart, pairwise_singleton _ _, ?_⟩
    intro r hr q hq heq
    rw [mem_singleton] at hq
    subst hq
    exact .inl (h.held r hr file (by rw [heq]; exact hf))
  · intro r hr
    rcases mem_append.mp hr with hr | hr
    · exact h.inside r hr
    · rw [mem_singleton] at hr
      subst hr
      exact ⟨hp, hl⟩
  · intro r hr file' hf'
    rw [hget] at hf'
    rcases mem_append.mp hr with hr | hr
    · split at hf'
      · obtain ⟨old, hold, rfl⟩ := map_eq_some_iff.mp hf'
        exact Nat.le_trans (h.held r hr old hold) (Nat.le_add_right _ _)
      · exact h.held r hr file' hf'
    · rw [mem_singleton] at hr
      subst hr
      rw [if_pos rfl, hf] at hf'
      cases hf'
      exact Nat.le_refl _
  · intro hd r hr hre
    have hd' : s.onDisk = true := by rw [← hd]; exact (modifyFile_onDisk s id _).symm
    show r.stop ≤ (s.modifyFile id _).disk.length r.id
    rw [modifyFile_disk]
    rcases mem_append.mp hr with hr | hr
    · exact h.filed hd' r hr hre
    · rw [mem_singleton] at hr
      subst hr
      simp only [hd'] at hre
      cases hre
  · intro r hr hn
    rw [show (s.reserve id payload file).onDisk = s.onDisk from modifyFile_onDisk s id _] at hn
    rw [hget]
    rcases mem_append.mp hr with hr | hr
    · obtain ⟨old, hold⟩ := h.loaded r hr hn
      split
      · exact ⟨_, by rw [hold, map_some]⟩
      · exact ⟨old, hold⟩
    · rw [mem_singleton] at hr
      subst hr
      rw [if_pos rfl, hf]
      exact ⟨_, rfl⟩

theorem apart_of_mem_eraseIdx {index r q} (hr : s.ranges[index]? = some r)
    (hq : q ∈ s.ranges.eraseIdx index) : Apart r q := by
  obtain ⟨i, hne, hget⟩ := mem_eraseIdx_iff_getElem?.mp hq
  obtain ⟨hin, rfl⟩ := List.getElem?_eq_some_iff.mp hr
  obtain ⟨hi, rfl⟩ := List.getElem?_eq_some_iff.mp hget
  have hp := pairwise_iff_getElem.mp h.apart
  rcases Nat.lt_or_gt_of_ne hne with hlt | hlt
  · exact (hp i index hi hin hlt).symm
  · exact hp index i hin hi hlt

/-- A write that failed gives back nothing that is another's. -/
theorem fail {index r} (hr : s.ranges[index]? = some r) (awaited : Bool)
    (written : Nat) : Laid (s.fail index r awaited written) := by
  have hsub := h.sublist (eraseIdx_sublist s.ranges index) fun q _ =>
    Disk.length_le_write s.disk q.id r.id r.offset (r.payload.take written)
  cases awaited with
  | false => exact hsub
  | true =>
    have hget : ∀ other, (s.fail index r true written).file? other
        = if other = r.id then (s.file? other).map fun file =>
            if file.size = r.stop then { file with size := r.offset } else file
          else s.file? other := fun other => file?_modifyFile s other r.id _
    refine ⟨hsub.apart, hsub.inside, ?_, ?_, ?_⟩
    · intro q hq file hf
      rw [hget] at hf
      split at hf
      case isTrue hid =>
        obtain ⟨old, hold, rfl⟩ := map_eq_some_iff.mp hf
        have hst := hsub.held q hq old hold
        split
        case isTrue hl =>
          -- the range given back is the last, so the others end before it
          have hi := hsub.offset_lt_stop hq
          rcases h.apart_of_mem_eraseIdx hr hq hid.symm with ha | hb
          · omega
          · exact hb
        case isFalse => exact hst
      case isFalse => exact hsub.held q hq file hf
    · intro hd
      apply hsub.filed
      rw [← hd]
      exact (modifyFile_onDisk s r.id _).symm
    · intro q hq hn
      rw [show (s.fail index r true written).onDisk = s.onDisk from
        modifyFile_onDisk s r.id _] at hn
      obtain ⟨file, hf⟩ := hsub.loaded q hq hn
      rw [hget]
      split
      · exact ⟨_, by rw [show s.file? q.id = some file from hf, map_some]⟩
      · exact ⟨file, hf⟩

/-- One range with another status, which is in its file if that says it was handed out. -/
theorem setStatus {index : Nat} {r} (hr : s.ranges[index]? = some r) (hw : r.isReturned = false)
    (status : RangeStatus) {disk : Disk} (hd : ∀ id, s.disk.length id ≤ disk.length id)
    (hf : ({ r with status := status } : PackRange).isReturned = true → r.stop ≤ disk.length r.id) :
    Laid { s with
      ranges := s.ranges.modify index fun r => { r with status := status }, disk := disk } := by
  have hrm := mem_of_getElem? hr
  refine ⟨?_, ?_, ?_, ?_, ?_⟩
  · rw [pairwise_iff_getElem]
    intro i j hi hj hlt
    simp only [length_modify] at hi hj
    have ha := pairwise_iff_getElem.mp h.apart i j hi hj hlt
    simp only [getElem_modify]
    split <;> split <;> exact ha
  · intro q hq
    rcases mem_modify_cases hr hq with hq | rfl
    · exact h.inside q hq
    · exact h.inside r hrm
  · intro q hq file hfi
    rcases mem_modify_cases hr hq with hq | rfl
    · exact h.held q hq file hfi
    · exact h.held r hrm file hfi
  · intro hoD q hq hre
    rcases mem_modify_cases hr hq with hq | rfl
    · exact Nat.le_trans (h.filed hoD q hq hre) (hd q.id)
    · exact hf hre
  · intro q hq hn
    rcases mem_modify_cases hr hq with hq | rfl
    · exact h.loaded q hq hn
    · exact h.loaded r hrm (.inr hw)

theorem land {index r} (hr : s.ranges[index]? = some r) {awaited}
    (hst : r.status = .writing awaited) : Laid (s.land index r awaited) := by
  have hg : ∀ id, s.disk.length id ≤ (s.disk.write r.id r.offset r.payload).length id :=
    fun id => Disk.length_le_write s.disk id r.id r.offset r.payload
  have hw : r.isReturned = false := by rw [PackRange.isReturned, hst]
  cases awaited with
  | false => exact h.sublist (eraseIdx_sublist s.ranges index) fun q _ => hg q.id
  | true =>
    have hf : r.stop ≤ (s.disk.write r.id r.offset r.payload).length r.id := by
      rw [Disk.length, Disk.bytes_write_self,
        length_writeAt r.offset (h.inside r (mem_of_getElem? hr)).1]
      exact Nat.le_max_right _ _
    have hl := (h.setStatus hr hw (.returned false) hg fun _ => hf).modifyFile r.id
      (f := fun file => { file with dirty := true }) fun _ => rfl
    rw [PackStore.modifyFile] at hl
    rw [PackStore.land, PackStore.modifyFile]
    split at hl
    case isTrue hid =>
      simp only [if_pos hid]
      exact hl.relist _ _ _
    case isFalse hid =>
      simp only [if_neg hid]
      exact hl.relist _ _ _

theorem drop {index r} (hr : s.ranges[index]? = some r) (hw : r.isReturned = false) : Laid { s with
      ranges := s.ranges.modify index fun r => { r with status := .writing false } } :=
  h.setStatus hr hw (.writing false) (fun _ => Nat.le_refl _) fun hre =>
    nomatch hre

end

/-! ## Packfiles taken out of writes and back -/

theorem insertWriteable (h : Laid s) (id : Nat) : Laid (s.insertWriteable id) := by
  unfold PackStore.insertWriteable
  split
  · exact h
  · exact h.relist _ _ _

theorem emptyPackfile (h : Laid s) (id : Nat) (synced : Bool) :
    Laid (s.emptyPackfile id synced) := by
  have hmem : ∀ {r}, r ∈ s.ranges.filter (·.id ≠ id) → r ∈ s.ranges ∧ r.id ≠ id := by
    intro r hr
    simpa using hr
  have hget : ∀ {r}, r ∈ s.ranges.filter (·.id ≠ id) →
      (s.emptyPackfile id synced).file? r.id = s.file? r.id := by
    intro r hr
    exact file?_modifyFile_of_ne s (hmem hr).2 _
  have hoD : (s.emptyPackfile id synced).onDisk = s.onDisk := modifyFile_onDisk s id _
  refine ⟨h.apart.sublist filter_sublist, fun r hr => h.inside r (hmem hr).1, ?_, ?_, ?_⟩
  · intro r hr file hf
    rw [hget hr] at hf
    exact h.held r (hmem hr).1 file hf
  · intro hd r hr hre
    show r.stop ≤ (s.disk.truncate id).length r.id
    rw [Disk.length, Disk.bytes_truncate_of_ne s.disk (hmem hr).2]
    exact h.filed (hoD ▸ hd) r (hmem hr).1 hre
  · intro r hr hn
    rw [hget hr]
    exact h.loaded r (hmem hr).1 (hoD ▸ hn)

theorem change {start action} (h : Laid s) (hc : Change start action s t) : Laid t := by
  cases hc with
  | opens => exact h.openNext
  | discards removes he => exact h.discardLast he removes
  | loads _ hd hi => exact h.load hd hi
  | lists | unlists | takesOff | dropsMark => exact h.relist _ _ _
  | syncs id reports => exact h.syncFile id reports
  | settles => exact (h.relist _ _ _).settle _ _
  | zeroes =>
    exact h.sublist (List.Sublist.refl _) fun r _ => Disk.length_le_write s.disk r.id _ _ _
  | dirties id => exact h.modifyFile id fun _ => rfl
  | reserves hf hp _ hl => exact h.reserve hf hp hl
  | lands hr hst => exact h.land hr hst
  | fails written hr _ => exact h.fail hr _ written
  | drops hr hw => exact h.drop hr hw
  | restarts | putsBack => exact h.insertWriteable _
  | empties synced => exact h.emptyPackfile _ synced
  | closes hd hi => exact h.close hd hi _
  | forgets hi => exact h.forget hi

theorem step (h : Laid s) {action} (hst : packStep s action = some t) : Laid t :=
  packStep_keeps (fun _ _ h hc => h.change hc) h hst

theorem of_run {onDisk minCount disk actions}
    (hrun : run packStep (.new onDisk minCount disk) actions = some s) : Laid s :=
  run_invariant packStep (fun _ _ _ h hst => h.step hst) (.new onDisk minCount disk) hrun

end Laid

/-! ## Ranges handed out -/

/-- A store returned the range, and its packfile was not emptied since. -/
def HandedOut (s : PackStore) (id offset : Nat) (payload : Bytes) : Prop :=
  ∃ covered, ⟨id, offset, payload, .returned covered⟩ ∈ s.ranges

/-- The step empties the packfile. -/
def PackAction.empties (s : PackStore) : PackAction → Nat → Prop
  | .truncate id outcome _ _, other => id = other ∧ outcome ≠ .failed
  | .forget, _ => s.onDisk = false
  | _, _ => False

theorem handedOut_of_mem {s : PackStore} {r : PackRange} (hr : r ∈ s.ranges)
    (hre : r.isReturned = true) : HandedOut s r.id r.offset r.payload := by
  obtain ⟨id, offset, payload, status⟩ := r
  cases status with
  | writing => cases hre
  | returned covered => exact ⟨covered, hr⟩

namespace HandedOut

open PackStore

variable {s t : PackStore} {id offset : Nat} {payload : Bytes}

section

variable (h : HandedOut s id offset payload)
include h

theorem of_ranges (hr : t.ranges = s.ranges) : HandedOut t id offset payload := by
  obtain ⟨covered, hmem⟩ := h
  exact ⟨covered, hr ▸ hmem⟩

theorem syncFile (other : Nat) (reports : Bool) :
    HandedOut (s.syncFile other reports).1 id offset payload := by
  refine syncFile_rule (P := (HandedOut · id offset payload)) other reports h
    (h.of_ranges (modifyFile_ranges s other _)) ?_
  obtain ⟨covered, hmem⟩ := h
  by_cases hid : id = other
  · refine ⟨true, mem_map.mpr ⟨_, hmem, ?_⟩⟩
    rw [if_pos ⟨hid, rfl⟩]
  · refine ⟨covered, mem_map.mpr ⟨_, hmem, ?_⟩⟩
    rw [if_neg fun heq => hid heq.1]

theorem eraseIdx {index r} (hr : s.ranges[index]? = some r) (hw : r.isReturned = false)
    (hra : t.ranges = s.ranges.eraseIdx index) : HandedOut t id offset payload := by
  obtain ⟨covered, hmem⟩ := h
  obtain ⟨i, hi⟩ := mem_iff_getElem?.mp hmem
  refine ⟨covered, hra ▸ mem_eraseIdx_iff_getElem?.mpr ⟨i, ?_, hi⟩⟩
  rintro rfl
  cases hr.symm.trans hi
  cases hw

theorem modify {index r} (hr : s.ranges[index]? = some r) (hw : r.isReturned = false)
    {f : PackRange → PackRange} (hra : t.ranges = s.ranges.modify index f) :
    HandedOut t id offset payload := by
  obtain ⟨covered, hmem⟩ := h
  obtain ⟨i, hi⟩ := mem_iff_getElem?.mp hmem
  refine ⟨covered, hra ▸ mem_iff_getElem?.mpr ⟨i, ?_⟩⟩
  rw [getElem?_modify_ne, hi]
  rintro rfl
  cases hr.symm.trans hi
  cases hw

end

theorem change {start action} (h : HandedOut s id offset payload) (hk : ¬ action.empties start id)
    (hc : Change start action s t) : HandedOut t id offset payload := by
  cases hc with
  | opens | discards | loads | lists | unlists | takesOff | dropsMark | zeroes | closes => exact h
  | dirties other => exact h.of_ranges (modifyFile_ranges s other _)
  | syncs other reports => exact h.syncFile other reports
  | @settles other reports =>
    have hsy := @HandedOut.syncFile { s with settling := s.settling.erase other } _ _ _ h
      other reports
    exact settle_rule (P := (HandedOut · id offset payload)) hsy
      (hsy.of_ranges (modifyFile_ranges _ other _))
  | reserves =>
    obtain ⟨covered, hmem⟩ := h
    exact ⟨covered, mem_append_left _ hmem⟩
  | @lands index r awaited hr hst =>
    have hw : r.isReturned = false := by rw [PackRange.isReturned, hst]
    cases awaited with
    | true => exact h.modify hr hw rfl
    | false => exact h.eraseIdx hr hw rfl
  | fails _ hr hst => exact h.eraseIdx hr (by rw [PackRange.isReturned, hst]) rfl
  | drops hr hw => exact h.modify hr hw rfl
  | restarts | putsBack => exact h.of_ranges (ranges_insertWriteable s _)
  | empties synced hd =>
    obtain ⟨covered, hmem⟩ := h
    refine ⟨covered, mem_filter.mpr ⟨hmem, decide_eq_true ?_⟩⟩
    exact fun heq => hk ⟨heq.symm, hd⟩
  | forgets =>
    refine h.of_ranges ?_
    show (if s.onDisk then s.ranges else []) = s.ranges
    rw [if_pos (by simpa [PackAction.empties] using hk)]

theorem step (h : HandedOut s id offset payload) {action} (hk : ¬ action.empties s id)
    (hst : packStep s action = some t) : HandedOut t id offset payload :=
  @packStep_keeps s t action (HandedOut · id offset payload)
    (fun _ _ h hc => h.change hk hc) h hst

end HandedOut

/-- In every packstore a run reaches: the ranges handed out since their packfile was last
emptied and those in flight are apart from each other; each starts below the limit, so that
its offset fits 32 bits, and ends within what is reserved in its packfile; a write that lands
is handed out, and what is handed out stays so until its packfile is emptied; and a write
that fails leaves every other range, in flight or handed out, within what stays reserved. -/
theorem packfile_ranges_never_overlap {onDisk : Bool} {minCount : Nat} {disk : Disk}
    {actions : List PackAction} {s : PackStore}
    (hrun : run packStep (.new onDisk minCount disk) actions = some s) :
    s.ranges.Pairwise Apart
    ∧ (∀ r ∈ s.ranges, r.offset < packstoreSizeLimit ∧ r.offset < 2 ^ 32
      ∧ ∀ file, s.file? r.id = some file → r.stop ≤ file.size)
    ∧ (∀ index r t, s.ranges[index]? = some r → r.status = .writing true →
      packStep s (.land index) = some t → HandedOut t r.id r.offset r.payload)
    ∧ (∀ action t id offset payload, packStep s action = some t → ¬ action.empties s id →
      HandedOut s id offset payload → HandedOut t id offset payload)
    ∧ ∀ index written t, packStep s (.fail index written) = some t →
      t.ranges = s.ranges.eraseIdx index
      ∧ ∀ q ∈ t.ranges, ∀ file, t.file? q.id = some file → q.stop ≤ file.size := by
  have h := Laid.of_run hrun
  refine ⟨h.apart, ?_, ?_, ?_, ?_⟩
  · intro r hr
    have hl := (h.inside r hr).2
    exact ⟨hl, Nat.lt_trans hl (by decide), h.held r hr⟩
  · intro index r t hr hst hste
    simp only [packStep, hr, hst, some.injEq] at hste
    subst hste
    refine ⟨false, mem_iff_getElem?.mpr ⟨index, ?_⟩⟩
    show (s.ranges.modify index fun r => { r with status := .returned false })[index]? = _
    rw [getElem?_modify_eq, hr]
    rfl
  · intro action t id offset payload hste hk hout
    exact hout.step hk hste
  · intro index written t hste
    refine ⟨?_, (h.step hste).held⟩
    simp only [packStep] at hste
    split at hste
    case h_2 => cases hste
    case h_1 r hr =>
      split at hste
      case h_2 => cases hste
      case h_1 awaited _ =>
        cases hste
        rfl

/-- Two writes reserved one after the other, of which the first fails and the second
lands. -/
def holeLeft : List PackAction :=
  [.resume true 1, .reserve 1 [1, 2], .reserve 1 [3], .fail 0 1, .land 0]

/-- What `holeLeft` leaves: the range of the failed write stays reserved. -/
def withHole : PackStore :=
  { PackStore.new true 1 ⟨[]⟩ with
    packfile := [{ PackFile.new 0 with size := 3, dirty := true }]
    writeable := [1]
    disk := ((Disk.create ⟨[]⟩ 1).write 1 0 [1]).write 1 2 [3]
    ranges := [⟨1, 2, [3], .returned false⟩] }

theorem packfile_ranges_never_overlap_hole :
    run packStep (.new true 1 ⟨[]⟩) holeLeft = some withHole
    ∧ withHole.ranges.Pairwise Apart
    ∧ ∀ r ∈ withHole.ranges, ∀ file, withHole.file? r.id = some file → r.stop ≤ file.size := by
  have hrun : run packStep (.new true 1 ⟨[]⟩) holeLeft = some withHole := by rfl
  have h := packfile_ranges_never_overlap hrun
  exact ⟨hrun, h.1, fun r hr => (h.2.1 r hr).2.2⟩

end Lore.Storage
