import Lore.Storage.PackRanges

/-!
# PackBytes — what a load of a stored payload answers

A range handed out is in its file from the write that landed on. The writes in flight are
apart from it and what is discarded is empty, so that until its packfile is emptied nothing
is written over it but the zeros of an obliteration.
-/

namespace Lore.Lib

open List

theorem Disk.getElem?_write (d : Disk) {id i : Nat} (other offset : Nat) (data : List UInt8)
    (hi : i < d.length id ∨ offset ≤ i) : ((d.write other offset data).bytes id)[i]? =
      if id = other ∧ offset ≤ i ∧ i < offset + data.length then data[i - offset]?
      else (d.bytes id)[i]? := by
  by_cases hid : id = other
  · subst hid
    have hf : (take offset (d.bytes id ++ replicate (offset - (d.bytes id).length) 0)).length
        = offset := by
      simp only [length_take, length_append, length_replicate]
      omega
    rw [bytes_write_self, writeAt]
    rw [length] at hi
    split <;> grind
  · rw [bytes_write_of_ne d hid, if_neg fun h => hid h.1]

theorem Disk.bytes_foldl_create (ids : List Nat) (disk : Disk) (id : Nat) :
    (ids.foldl create disk).bytes id = disk.bytes id := by
  induction ids generalizing disk with
  | nil => rfl
  | cons other ids ih => rw [foldl_cons, ih, bytes_create]

end Lore.Lib

namespace Lore.Storage

open Lore.Lib List PackStore

/-- The step writes a zero over the byte of the packfile. -/
def PackAction.zeroes : PackAction → Nat → Nat → Prop
  | .obliterate id offset size written _, other, i =>
    id = other ∧ offset ≤ i ∧ i < offset + min written size
  | _, _, _ => False

/-- The byte was obliterated by a step of the run, at which the range was handed out. -/
def ByteObliterated (start : PackStore) (actions : List PackAction) (id offset : Nat)
    (payload : Bytes) (i : Nat) : Prop :=
  ∃ before action after s, actions = before ++ action :: after
    ∧ run packStep start before = some s ∧ HandedOut s id offset payload
    ∧ action.zeroes id (offset + i)

theorem ByteObliterated.concat {start actions id offset payload i}
    (h : ByteObliterated start actions id offset payload i) (action : PackAction) :
    ByteObliterated start (actions ++ [action]) id offset payload i := by
  obtain ⟨before, zeroing, after, s, hsplit, h⟩ := h
  exact ⟨before, zeroing, after ++ [action], s, by simp [hsplit], h⟩

/-! ## A sync -/

/-- What a sync does: it writes no byte and hands nothing out. -/
structure SyncsOnly (s t : PackStore) : Prop where
  onDisk : t.onDisk = s.onDisk
  ranges : t.ranges = s.ranges ∨ ∃ id, t.ranges = s.cover id
  bytes : ∀ id, t.disk.bytes id = s.disk.bytes id

theorem syncFile_syncsOnly (s : PackStore) (id : Nat) (reports : Bool) :
    SyncsOnly s (s.syncFile id reports).1 := by
  refine syncFile_rule (P := SyncsOnly s) id reports ⟨rfl, .inl rfl, fun _ => rfl⟩ ?_ ?_
  · exact ⟨modifyFile_onDisk s id _, .inl (modifyFile_ranges s id _),
      fun other => congrArg (·.bytes other) (modifyFile_disk s id _)⟩
  · refine ⟨modifyFile_onDisk s id _, .inr ⟨id, rfl⟩, fun other => ?_⟩
    dsimp only
    split
    · exact Disk.bytes_sync s.disk other id
    · rfl

theorem settle_syncsOnly (s : PackStore) (id : Nat) (reports : Bool) :
    SyncsOnly s (s.settle id reports) := by
  have h := syncFile_syncsOnly s id reports
  exact settle_rule (P := SyncsOnly s) h
    ⟨by simpa using h.onDisk, by simpa using h.ranges, by simpa using h.bytes⟩

section

variable {s t start : PackStore} {action : PackAction} {r : PackRange}

theorem SyncsOnly.returned (h : SyncsOnly s t) (hr : r ∈ t.ranges) (hre : r.isReturned = true) :
    ∃ q ∈ s.ranges, q.isReturned = true ∧ q.id = r.id ∧ q.offset = r.offset
      ∧ q.payload = r.payload := by
  rcases h.ranges with heq | ⟨id, heq⟩
  · exact ⟨r, heq ▸ hr, hre, rfl, rfl, rfl⟩
  · rw [heq] at hr
    obtain ⟨q, hq, rfl⟩ := mem_map.mp hr
    by_cases hc : q.id = id ∧ q.isReturned = true
    · exact ⟨q, hq, hc.2, by simp [hc]⟩
    · rw [if_neg hc] at hre ⊢
      exact ⟨q, hq, hre, rfl, rfl, rfl⟩

/-! ## A change -/

theorem onDisk_of_change (hc : Change start action s t) : t.onDisk = s.onDisk := by
  cases hc with
  | syncs id reports => exact (syncFile_syncsOnly s id reports).onDisk
  | settles => exact (settle_syncsOnly _ _ _).onDisk
  | dirties | reserves | empties => exact modifyFile_onDisk _ _ _
  | @lands _ _ awaited => cases awaited <;> simp [land]
  | @fails _ _ awaited => cases awaited <;> simp [fail]
  | restarts | putsBack =>
    unfold insertWriteable
    split <;> rfl
  | _ => rfl

theorem returned_of_change (hd : s.onDisk = true) (hc : Change start action s t)
    (hr : r ∈ t.ranges) (hre : r.isReturned = true) : (∃ q ∈ s.ranges, q.isReturned = true
      ∧ q.id = r.id ∧ q.offset = r.offset ∧ q.payload = r.payload)
    ∨ t.disk = s.disk.write r.id r.offset r.payload := by
  have hkept : r ∈ s.ranges → ∃ q ∈ s.ranges, q.isReturned = true ∧ q.id = r.id
      ∧ q.offset = r.offset ∧ q.payload = r.payload := fun hr => ⟨r, hr, hre, rfl, rfl, rfl⟩
  cases hc with
  | @lands index q awaited hq hst =>
    cases awaited with
    | false => exact .inl (hkept (mem_of_mem_eraseIdx hr))
    | true =>
      rcases mem_modify_cases hq hr with hr | rfl
      · exact .inl (hkept hr)
      · exact .inr rfl
  | drops hq =>
    rcases mem_modify_cases hq hr with hr | rfl
    · exact .inl (hkept hr)
    · cases hre
  | reserves =>
    -- on disk a range is handed out when its write has landed, not when it is reserved
    rcases mem_append.mp hr with hr | hr
    · exact .inl (hkept hr)
    · obtain rfl := mem_singleton.mp hr
      simp [hd, PackRange.isReturned] at hre
  | fails => exact .inl (hkept (mem_of_mem_eraseIdx hr))
  | empties => exact .inl (hkept (mem_of_mem_filter hr))
  | syncs id reports => exact .inl ((syncFile_syncsOnly s id reports).returned hr hre)
  | @settles id reports =>
    exact .inl ((settle_syncsOnly { s with settling := s.settling.erase id } id reports).returned
      hr hre)
  | dirties => exact .inl (hkept (by simpa using hr))
  | restarts | putsBack => exact .inl (hkept (by simpa using hr))
  | forgets => exact .inl (hkept (by simpa [forget, hd] using hr))
  | _ => exact .inl (hkept hr)

/-- A byte of a range handed out stays, unless its packfile is emptied or an obliteration writes
a zero over it. -/
theorem byte_of_change (hl : Laid s) (hd : s.onDisk = true) (hr : r ∈ s.ranges)
    (hre : r.isReturned = true) (hc : Change start action s t) (hk : ∃ q ∈ t.ranges, q.id = r.id)
    {i : Nat} (hi : i < r.payload.length) :
    (t.disk.bytes r.id)[r.offset + i]? = (s.disk.bytes r.id)[r.offset + i]?
      ∨ (t.disk.bytes r.id)[r.offset + i]? = some 0 ∧ s = start
        ∧ action.zeroes r.id (r.offset + i) := by
  have hin : r.offset + i < s.disk.length r.id :=
    Nat.lt_of_lt_of_le (Nat.add_lt_add_left hi _) (hl.filed hd r hr hre)
  -- what is in flight is apart from what was handed out
  have hflight : ∀ {index : Nat} {q : PackRange} {data : Bytes}, s.ranges[index]? = some q →
      q.isReturned = false → data.length ≤ q.payload.length →
      ((s.disk.write q.id q.offset data).bytes r.id)[r.offset + i]?
        = (s.disk.bytes r.id)[r.offset + i]? := by
    intro index q data hq hw hle
    obtain ⟨j, hj⟩ := mem_iff_getElem?.mp hr
    have hap := hl.apart_of_mem_eraseIdx hq (mem_eraseIdx_iff_getElem?.mpr ⟨j, by grind, hj⟩)
    rw [s.disk.getElem?_write _ _ _ (.inl hin), if_neg]
    rintro ⟨hid, hlo, hhi⟩
    have := hap hid.symm
    simp only [PackRange.stop] at this
    omega
  cases hc with
  | opens =>
    dsimp only [openNext]
    rw [if_pos hd, Disk.bytes_create]
    exact .inl rfl
  | discards removes hempty =>
    have hne := hl.ne_last hempty hr
    dsimp only [discardLast]
    split
    · exact .inl (by rw [Disk.bytes_remove_of_ne _ hne])
    · exact .inl rfl
  | loads => exact .inl (by rw [load, Disk.bytes_foldl_create])
  | @zeroes id offset size written =>
    rw [s.disk.getElem?_write _ _ _ (.inl hin), length_replicate]
    split
    case isTrue hover =>
      rw [getElem?_replicate, if_pos (by omega)]
      exact .inr ⟨rfl, rfl, hover.1.symm, hover.2⟩
    case isFalse => exact .inl rfl
  | @lands index q awaited hq hst =>
    have := hflight hq (by rw [PackRange.isReturned, hst]) (Nat.le_refl _)
    cases awaited <;> exact .inl this
  | fails written hq hst =>
    exact .inl (hflight hq (by rw [PackRange.isReturned, hst]) (length_take_le' written _))
  | empties synced =>
    obtain ⟨q, hq, hid⟩ := hk
    have hne := of_decide_eq_true (mem_filter.mp hq).2
    exact .inl (by rw [emptyPackfile, Disk.bytes_truncate_of_ne _ (hid ▸ hne)])
  | syncs id reports => exact .inl (by rw [(syncFile_syncsOnly s id reports).bytes])
  | settles => exact .inl (by rw [(settle_syncsOnly _ _ _).bytes])
  | dirties | reserves => exact .inl (by simp [PackStore.reserve])
  | restarts | putsBack =>
    unfold insertWriteable
    split <;> exact .inl rfl
  | _ => exact .inl rfl

/-- A packstore on disk whose files hold what it handed out, but for the zeros written over it. -/
structure Filled (zeroed : Nat → Nat → Bytes → Nat → Prop) (s : PackStore) : Prop where
  onDisk : s.onDisk = true
  laid : Laid s
  read : ∀ r ∈ s.ranges, r.isReturned = true → ∀ i < r.payload.length,
    (s.disk.bytes r.id)[r.offset + i]? = r.payload[i]?
      ∨ (s.disk.bytes r.id)[r.offset + i]? = some 0 ∧ zeroed r.id r.offset r.payload i

theorem Filled.change {zeroed} (h : Filled zeroed s) (hc : Change start action s t)
    (hz : ∀ id offset payload i, HandedOut start id offset payload →
      action.zeroes id (offset + i) → zeroed id offset payload i) : Filled zeroed t := by
  refine ⟨(onDisk_of_change hc).trans h.onDisk, h.laid.change hc, fun r hr hre i hi => ?_⟩
  rcases returned_of_change h.onDisk hc hr hre with ⟨q, hq, hqr, hid, ho, hp⟩ | hw
  · have hread := h.read q hq hqr i (hp ▸ hi)
    have hbyte := byte_of_change h.laid h.onDisk hq hqr hc ⟨r, hr, hid.symm⟩ (hp ▸ hi)
    rw [← hid, ← ho, ← hp]
    rcases hbyte with hb | ⟨hb, rfl, hzero⟩
    · rwa [hb]
    · exact .inr ⟨hb, hz _ _ _ _ (handedOut_of_mem hq hqr) hzero⟩
  · rw [hw, Disk.getElem?_write _ _ _ _ (.inr (by omega)), if_pos ⟨rfl, by omega, by omega⟩,
      Nat.add_sub_cancel_left]
    exact .inl rfl

end

/-- In every packstore on disk a run reaches: a load of a range handed out since its packfile
was last emptied answers as many bytes as were stored, each the one stored, or a zero where an
obliteration wrote one over it after the range was handed out; and so the payload itself where none
did. -/
theorem stored_payload_reads_back {minCount : Nat} {disk : Disk} {actions : List PackAction}
    {s : PackStore} (hrun : run packStep (.new true minCount disk) actions = some s)
    {id offset : Nat} {payload : Bytes} (hout : HandedOut s id offset payload)
    {file : PackFile} (hfile : s.file? id = some file) :
    (∃ bytes, s.loadRange id offset payload.length = some bytes ∧ bytes.length = payload.length
      ∧ ∀ i < payload.length, bytes[i]? = payload[i]? ∨ bytes[i]? = some 0
        ∧ ByteObliterated (.new true minCount disk) actions id offset payload i)
    ∧ ((∀ i < payload.length,
        ¬ ByteObliterated (.new true minCount disk) actions id offset payload i) →
      s.loadRange id offset payload.length = some payload) := by
  have h : Filled (ByteObliterated (.new true minCount disk) actions) s := by
    refine run_history packStep
      (fun actions => Filled (ByteObliterated (.new true minCount disk) actions)) ?_ ?_ hrun
    · intro before action _ s t _ hs h hst
      refine packStep_keeps (fun u v hu hc => hu.change hc ?_) ?_ hst
      · intro id offset payload i hout hzero
        exact ⟨before, action, [], s, rfl, hs, hout, hzero⟩
      · refine ⟨h.onDisk, h.laid, fun r hr hre i hi => ?_⟩
        exact (h.read r hr hre i hi).imp_right fun hz => ⟨hz.1, hz.2.concat action⟩
    · exact ⟨rfl, .new .., by simp [PackStore.new]⟩
  obtain ⟨covered, hmem⟩ := hout
  have hin := h.laid.filed h.onDisk _ hmem rfl
  have hpos := length_pos_iff.mpr (h.laid.inside _ hmem).1
  simp only [PackRange.stop, Disk.length] at hin hpos
  have hload : s.loadRange id offset payload.length
      = some (slice (s.disk.bytes id) ⟨offset, offset + payload.length⟩) := by
    rw [loadRange, if_neg (by omega), hfile]
    simp [h.onDisk, hin]
  have hlen : (slice (s.disk.bytes id) ⟨offset, offset + payload.length⟩).length
      = payload.length := by
    simp [Span.length]
    omega
  have hbytes : ∀ i < payload.length,
      (slice (s.disk.bytes id) ⟨offset, offset + payload.length⟩)[i]?
        = (s.disk.bytes id)[offset + i]? := by
    intro i hi
    rw [slice, Span.length, Nat.add_sub_cancel_left, getElem?_take_of_lt hi, getElem?_drop]
  refine ⟨⟨_, hload, hlen, fun i hi => hbytes i hi ▸ h.read _ hmem rfl i hi⟩, fun hnone => ?_⟩
  rw [hload]
  refine congrArg some (ext_getElem? fun i => ?_)
  by_cases hi : i < payload.length
  · rw [hbytes i hi]
    exact (h.read _ hmem rfl i hi).resolve_right fun hz => hnone i hi hz.2
  · rw [getElem?_eq_none (by omega), getElem?_eq_none (by omega)]

/-- Beside the range of the write that failed, one range reads back and the other was
obliterated. -/
def obliteratedBeside : List PackAction :=
  holeLeft ++ [.reserve 1 [4, 5], .land 1, .obliterate 1 3 2 2 true]

/-- What `obliteratedBeside` leaves. -/
def besideObliterated : PackStore :=
  { withHole with
    packfile := [{ PackFile.new 0 with size := 5 }]
    disk := ((withHole.disk.write 1 3 [4, 5]).write 1 3 [0, 0]).sync 1
    ranges := [⟨1, 2, [3], .returned true⟩, ⟨1, 3, [4, 5], .returned true⟩] }

theorem stored_payload_reads_back_beside :
    run packStep (.new true 1 ⟨[]⟩) obliteratedBeside = some besideObliterated
    ∧ besideObliterated.loadRange 1 2 1 = some [3]
    ∧ besideObliterated.loadRange 1 3 2 = some [0, 0] := by
  have hrun : run packStep (.new true 1 ⟨[]⟩) obliteratedBeside = some besideObliterated := rfl
  have hout : HandedOut besideObliterated 1 2 [3] := ⟨true, mem_cons_self⟩
  refine ⟨hrun, (stored_payload_reads_back hrun hout rfl).2 fun i hi => ?_, rfl⟩
  rintro ⟨before, action, after, s, hsplit, -, -, hzero⟩
  have hmem : action ∈ obliteratedBeside := hsplit ▸ by simp
  obtain rfl : i = 0 := Nat.lt_one_iff.mp hi
  simp only [obliteratedBeside, holeLeft, cons_append, nil_append, mem_cons, not_mem_nil,
    or_false] at hmem
  rcases hmem with rfl | rfl | rfl | rfl | rfl | rfl | rfl | rfl <;>
    simp [PackAction.zeroes] at hzero

end Lore.Storage
