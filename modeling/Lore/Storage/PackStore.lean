import Mathlib.Data.List.Sort
import Lore.Lib.Disk
import Lore.Lib.Machine
import Lore.Storage.Fragment

/-!
# PackStore — payloads appended to packfiles

A packstore appends payloads to numbered packfiles, on disk or in memory. A store reserves
its range under the packfile's lock and writes it after, so that many writes are in flight
at once; each of them holds the list of packfiles against every operation that closes,
stops, truncates or discards one. What runs under the locks of the list is one step, what
an operation leaves to do without them is another: the `mark_full` after a write that
filled a packfile or a sync that failed, and the task a `mark_full` spawns to settle the
packfile. A caller dropped while its `sync_data` runs, which loses what that reports, is
left out. Ids count from 1, the packfile with id `n` at index `n - 1`.
-/

namespace Lore.Storage

open Lore.Lib

/-- `PACKSTORE_SIZE_LIMIT`. -/
def packstoreSizeLimit : Nat := 3 * 1024 * 1024 * 1024

/-- `u32::try_from(size).unwrap_or(u32::MAX)`. -/
def clampU32 (size : Nat) : Nat := min size 0xFFFFFFFF

/-- `PackFile`, with its `Contents`: the length of its file when opened, whether it holds
writes no sync covered, whether a crash can no longer leave it shorter than an entry
pointing into it, whether a sync of it failed, the bytes reserved, and the bytes of a
packfile held in memory. -/
structure PackFile where
  opened : Nat
  dirty : Bool
  settled : Bool
  syncFailed : Bool
  size : Nat
  buffer : Bytes
deriving DecidableEq, Repr

/-- `PackFile::new`. -/
def PackFile.new (size : Nat) : PackFile :=
  ⟨clampU32 size, false, decide (packstoreSizeLimit ≤ size), false, size, []⟩

/-- `sync_packfile`: the packfile after, whether a sync covered what it held, and whether
the answer is `Ok`. `reports` is what `sync_data` reports of a file. -/
def PackFile.sync (onDisk reports : Bool) (file : PackFile) : PackFile × Bool × Bool :=
  if file.syncFailed then (file, false, false)
  else if !file.dirty then (file, false, true)
  else if !onDisk || reports then ({ file with dirty := false }, true, true)
  else ({ file with dirty := true, syncFailed := true }, false, false)

/-- `PackfileSize`, with the id and the size as numbers. -/
structure ReservedSize where
  id : Nat
  size : Nat
deriving DecidableEq, Repr

/-- How far the store of a range has come. A write goes on when the call that issued it is
dropped; a range the call returned is covered once a sync of its packfile succeeded. -/
inductive RangeStatus where
  | writing (awaited : Bool)
  | returned (covered : Bool)
deriving DecidableEq, Repr

/-- A range of a packfile: of a write in flight (`PackfileWrite`), or handed out since the
packfile was last emptied. -/
structure PackRange where
  id : Nat
  offset : Nat
  payload : Bytes
  status : RangeStatus
deriving DecidableEq, Repr

/-- The end of the range. -/
def PackRange.stop (r : PackRange) : Nat := r.offset + r.payload.length

/-- The range was handed out. -/
def PackRange.isReturned (r : PackRange) : Bool :=
  match r.status with
  | .returned _ => true
  | .writing _ => false

/-- A packstore with what is going on around it: the files of its directory, the ranges
written and handed out, the calls of `mark_full` still owed, and the tasks settling a
packfile that did not run yet. -/
structure PackStore where
  onDisk : Bool
  minCount : Nat
  packfile : List PackFile
  writeable : List Nat
  released : List ReservedSize
  disk : Disk
  ranges : List PackRange
  owed : List Nat
  settling : List Nat
deriving DecidableEq, Repr

namespace PackStore

/-- `PackStore::new`, over the directory as it is. -/
def new (onDisk : Bool) (minCount : Nat) (disk : Disk) : PackStore :=
  ⟨onDisk, minCount, [], [], [], disk, [], [], []⟩

variable (s : PackStore)

/-- The packfile with an id. -/
def file? (id : Nat) : Option PackFile :=
  if id = 0 then none else s.packfile[id - 1]?

def modifyFile (id : Nat) (f : PackFile → PackFile) : PackStore :=
  if id = 0 then s else { s with packfile := s.packfile.modify (id - 1) f }

/-- No write is in flight, so that the list of packfiles can be locked to change it. -/
def idle : Bool := s.ranges.all (·.isReturned)

/-! ## Opening and discarding packfiles -/

/-- `open_packfile` of the id after the last, and the push of `fill_writeable`. -/
def openNext : PackStore :=
  let id := s.packfile.length + 1
  let size := if s.onDisk then s.disk.length id else 0
  { s with
    packfile := s.packfile ++ [.new size]
    writeable := if size < packstoreSizeLimit then s.writeable ++ [id] else s.writeable
    disk := if s.onDisk then s.disk.create id else s.disk }

/-- `fill_writeable`, an open failing after `opens` of them. -/
def fillWriteable : (opens : Nat) → PackStore → PackStore
  | 0, s => s
  | opens + 1, s => if s.writeable.length < s.minCount then fillWriteable opens s.openNext else s

/-- The last packfile popped, its file removed unless that fails. -/
def discardLast (removes : Nat → Bool) : PackStore :=
  let lastId := s.packfile.length
  { s with
    writeable := s.writeable.filter (· ≠ lastId)
    packfile := s.packfile.dropLast
    disk := if s.onDisk && removes lastId then s.disk.remove lastId else s.disk }

/-- The loop of `discard_empty_tail`, over as many packfiles as the fuel allows. -/
def discardEmptyTail (removes : Nat → Bool) : (fuel : Nat) → PackStore → PackStore
  | 0, s => s
  | fuel + 1, s =>
    if s.minCount < s.packfile.length ∧ (s.packfile.getLast?.map (·.size)) = some 0 then
      discardEmptyTail removes fuel (s.discardLast removes)
    else s

/-- `load_packfiles`, and the marks of the packfiles closed dirty. -/
def load : PackStore :=
  let ids := (List.range s.disk.highest).map (· + 1)
  { s with
    packfile := ids.map fun id =>
      let file := PackFile.new (s.disk.length id)
      if s.released.any (·.id = id) then { file with dirty := true, settled := false } else file
    writeable := ids.filter fun id => s.disk.length id < packstoreSizeLimit
    released := []
    disk := ids.foldl Disk.create s.disk }

/-- `resume`. -/
def resume (loads : Bool) (opens : Nat) : PackStore :=
  if s.packfile = [] ∧ s.onDisk then
    if loads then s.load.fillWriteable opens else s
  else s.fillWriteable opens

/-! ## Closing -/

/-- Both lists cleared. -/
def close (released : List ReservedSize) : PackStore :=
  { s with packfile := [], writeable := [], released := released }

/-- The packfiles that hold writes no sync covered, with the bytes reserved in them. -/
def unsynced : List ReservedSize :=
  (s.packfile.zipIdx 1).filterMap fun (file, id) =>
    if !file.settled && file.dirty then some ⟨id, clampU32 file.size⟩ else none

/-- `release_files`. -/
def releaseFiles : PackStore :=
  if s.onDisk ∧ s.idle ∧ s.packfile ≠ [] then s.close (s.released ++ s.unsynced) else s

/-- `forget`. What a packstore in memory held is gone with it. -/
def forget : PackStore := { s.close [] with ranges := if s.onDisk then s.ranges else [] }

/-! ## Syncing -/

/-- The ranges handed out of a packfile, marked as covered by a sync. -/
def cover (id : Nat) : List PackRange :=
  s.ranges.map fun r => if r.id = id ∧ r.isReturned then { r with status := .returned true } else r

/-- `sync_packfile` of the packfile with an id, `false` where there is none. -/
def syncFile (id : Nat) (reports : Bool) : PackStore × Bool :=
  match s.file? id with
  | none => (s, false)
  | some file =>
    let (_, covers, ok) := file.sync s.onDisk reports
    let synced := s.modifyFile id fun file => (file.sync s.onDisk reports).1
    if covers then
      ({ synced with
        ranges := s.cover id, disk := if s.onDisk then s.disk.sync id else s.disk }, ok)
    else (synced, ok)

/-- `sync_packfile` of each of the ids, with those that failed. -/
def syncFiles (reports : Nat → Bool) : List Nat → PackStore → PackStore × List Nat
  | [], s => (s, [])
  | id :: ids, s =>
    let (s, ok) := s.syncFile id (reports id)
    let (s, failed) := syncFiles reports ids s
    (s, if ok then failed else id :: failed)

/-- `flush` with `sync_data`, and whether it answers `Ok`. A failed sync owes a
`mark_full`. -/
def flush (id : Nat) (reports : Bool) : PackStore × Bool :=
  match s.file? id with
  | none => (s, false)
  | some _ =>
    let (s, ok) := s.syncFile id reports
    (if ok then s else { s with owed := id :: s.owed }, ok)

/-- The ids of the packfiles. -/
def ids : List Nat := (List.range s.packfile.length).map (· + 1)

/-- `flush_all` with `sync_data`, once what was closed dirty is loaded again. -/
def flushAll (reports : Nat → Bool) : PackStore × Bool :=
  let (s, failed) := syncFiles reports s.ids s
  ({ s with owed := failed ++ s.owed }, failed.isEmpty)

/-- The task `settle` spawns, run. -/
def settle (id : Nat) (reports : Bool) : PackStore :=
  let (s, ok) := s.syncFile id reports
  if ok then s.modifyFile id fun file => { file with settled := true } else s

/-- `obliterate`: zeros written over a range, of which `written` bytes land, and the sync
that follows when all do. A failed sync owes a `mark_full`. -/
def obliterate (id offset size written : Nat) (reports : Bool) : PackStore :=
  if s.file? id = none ∨ !s.onDisk then s
  else
    let zeroed := { s with disk := s.disk.write id offset (List.replicate (min written size) 0) }
    if written < size then zeroed
    else
      let (s, ok) := (zeroed.modifyFile id fun file => { file with dirty := true }).syncFile id
        reports
      if ok then s else { s with owed := id :: s.owed }

/-! ## Stores -/

/-- The first half of `store`: the range reserved at the end of a packfile that takes
writes. In memory that is the whole store. -/
def reserve (id : Nat) (payload : Bytes) (file : PackFile) : PackStore :=
  let range : PackRange :=
    ⟨id, file.size, payload, if s.onDisk then .writing true else .returned false⟩
  let reserved := s.modifyFile id fun file =>
    { file with
      size := file.size + payload.length
      dirty := file.dirty || !s.onDisk
      buffer := if s.onDisk then file.buffer else file.buffer ++ payload }
  { reserved with
    ranges := s.ranges ++ [range]
    owed := if !s.onDisk && packstoreSizeLimit ≤ range.stop then id :: s.owed else s.owed }

/-- A write that landed. One that is awaited marks its packfile dirty and is handed out; it
owes a `mark_full` where it filled the packfile. -/
def land (index : Nat) (r : PackRange) (awaited : Bool) : PackStore :=
  let disk := s.disk.write r.id r.offset r.payload
  if awaited then
    { s.modifyFile r.id fun file => { file with dirty := true } with
      disk := disk
      ranges := s.ranges.modify index fun r => { r with status := .returned false }
      owed := if packstoreSizeLimit ≤ r.stop then r.id :: s.owed else s.owed }
  else { s with disk := disk, ranges := s.ranges.eraseIdx index }

/-- A write that failed after `written` bytes. One that is awaited gives its range back
unless another was reserved after it. -/
def fail (index : Nat) (r : PackRange) (awaited : Bool) (written : Nat) : PackStore :=
  let given := if awaited then
      s.modifyFile r.id fun file =>
        if file.size = r.stop then { file with size := r.offset } else file
    else s
  { given with
    disk := s.disk.write r.id r.offset (r.payload.take written)
    ranges := s.ranges.eraseIdx index }

/-! ## Packfiles taken out of writes and back -/

/-- `mark_full`. -/
def markFull (id opens : Nat) : PackStore :=
  let takenOff := decide (id ∈ s.writeable)
  let filled := { s with writeable := s.writeable.erase id }.fillWriteable opens
  if takenOff then { filled with settling := id :: s.settling } else filled

/-- `stop_writes`, which an invalid id fails. -/
def stopWrites (stopped : List Nat) (opens : Nat) : PackStore :=
  if !s.onDisk ∨ stopped.any (fun id => s.file? id = none) then s
  else { s with writeable := s.writeable.filter (· ∉ stopped) }.fillWriteable opens

/-- The id put into the ascending list, unless it is in it. -/
def insertWriteable (id : Nat) : PackStore :=
  if id ∈ s.writeable then s else { s with writeable := s.writeable.orderedInsert (· ≤ ·) id }

/-- One id of `restart_writes`. -/
def restartFile (id : Nat) : PackStore :=
  match s.file? id with
  | none => s
  | some file =>
    if packstoreSizeLimit ≤ file.size ∨ file.syncFailed then s else s.insertWriteable id

/-- `restart_writes`. -/
def restartWrites (restarted : List Nat) (removes : Nat → Bool) (opens : Nat) : PackStore :=
  if s.packfile = [] then s
  else
    let s := restarted.foldl restartFile s
    (discardEmptyTail removes s.packfile.length s).fillWriteable opens

/-- `empty_packfile`, once its file is truncated. -/
def emptyPackfile (id : Nat) (synced : Bool) : PackStore :=
  { s.modifyFile id fun file =>
      { file with
        opened := 0, settled := false, syncFailed := !synced, dirty := false
        buffer := [], size := 0 } with
    disk := s.disk.truncate id
    ranges := s.ranges.filter (·.id ≠ id) }

/-- How the truncate of a file and the sync after it went. -/
inductive TruncateOutcome where
  | failed
  | unsynced
  | synced
deriving DecidableEq, Repr

/-- `truncate`. -/
def truncate (id : Nat) (outcome : TruncateOutcome) (removes : Nat → Bool)
    (opens : Nat) : PackStore :=
  if !s.onDisk ∨ id ∈ s.writeable ∨ s.file? id = none then s
  else
    match outcome with
    | .failed => s
    | .unsynced => s.emptyPackfile id false
    | .synced =>
      let s := s.emptyPackfile id true
      let s := discardEmptyTail removes s.packfile.length s
      let s := if id ≤ s.packfile.length then s.insertWriteable id else s
      s.fillWriteable opens

/-! ## What a bucket file records -/

/-- `unsettled_sizes`, into a buffer that holds them. -/
def unsettledSizes : List ReservedSize :=
  if s.packfile = [] then s.released
  else
    (s.packfile.zipIdx 1).filterMap fun (file, id) =>
      if !file.settled then some ⟨id, clampU32 file.size⟩ else none

/-- `short_of`, of packfiles that are loaded. -/
def shortOf (sizes : List ReservedSize) : Bool :=
  sizes.any fun recorded => ((s.file? recorded.id).map (·.opened)).getD 0 < recorded.size

/-- `load`, of packfiles that are loaded. -/
def loadRange (id offset size : Nat) : Option Bytes :=
  if size = 0 then some []
  else
    match s.file? id with
    | none => none
    | some file =>
      let bytes := if s.onDisk then s.disk.bytes id else file.buffer
      if offset + size ≤ bytes.length then some (slice bytes ⟨offset, offset + size⟩) else none

end PackStore

/-! ## Runs -/

/-- What happens to a packstore. -/
inductive PackAction where
  | resume (loads : Bool) (opens : Nat)
  | refill (opens : Nat)
  | reserve (id : Nat) (payload : Bytes)
  | foundFull (id : Nat)
  | land (index : Nat)
  | fail (index written : Nat)
  | drop (index : Nat)
  | markFull (id opens : Nat)
  | dropMarkFull (id : Nat)
  | settle (id : Nat) (reports : Bool)
  | flush (id : Nat) (reports : Bool)
  | flushAll (reports : Nat → Bool)
  | obliterate (id offset size written : Nat) (reports : Bool)
  | stopWrites (stopped : List Nat) (opens : Nat)
  | restartWrites (restarted : List Nat) (removes : Nat → Bool) (opens : Nat)
  | truncate (id : Nat) (outcome : PackStore.TruncateOutcome) (removes : Nat → Bool) (opens : Nat)
  | releaseFiles
  | forget

/-- One step, `none` where it cannot happen: a change of the list waits for the writes in
flight, a store reserves below the limit in a packfile that takes writes, and finds one
full that is at the limit. -/
def packStep (s : PackStore) : PackAction → Option PackStore
  | .resume loads opens => if s.idle then some (s.resume loads opens) else none
  | .refill opens => if s.idle then some (s.fillWriteable opens) else none
  | .reserve id payload =>
      match s.file? id with
      | none => none
      | some file =>
        if payload ≠ [] ∧ id ∈ s.writeable ∧ file.size < packstoreSizeLimit then
          some (s.reserve id payload file)
        else none
  | .foundFull id =>
      match s.file? id with
      | none => none
      | some file =>
        if id ∈ s.writeable ∧ packstoreSizeLimit ≤ file.size then
          some { s with owed := id :: s.owed }
        else none
  | .land index =>
      match s.ranges[index]? with
      | some r =>
        match r.status with
        | .writing awaited => some (s.land index r awaited)
        | .returned _ => none
      | none => none
  | .fail index written =>
      match s.ranges[index]? with
      | some r =>
        match r.status with
        | .writing awaited => some (s.fail index r awaited written)
        | .returned _ => none
      | none => none
  | .drop index =>
      match s.ranges[index]? with
      | some r =>
        match r.status with
        | .writing _ =>
          some { s with ranges := s.ranges.modify index fun r =>
            { r with status := .writing false } }
        | .returned _ => none
      | none => none
  | .markFull id opens =>
      if s.idle ∧ id ∈ s.owed then some ({ s with owed := s.owed.erase id }.markFull id opens)
      else none
  | .dropMarkFull id => if id ∈ s.owed then some { s with owed := s.owed.erase id } else none
  | .settle id reports =>
      if id ∈ s.settling then some ({ s with settling := s.settling.erase id }.settle id reports)
      else none
  | .flush id reports => some (s.flush id reports).1
  | .flushAll reports => if s.released = [] then some (s.flushAll reports).1 else none
  | .obliterate id offset size written reports =>
      if s.packfile = [] then none else some (s.obliterate id offset size written reports)
  | .stopWrites stopped opens =>
      if s.idle ∧ (s.onDisk = true → s.packfile ≠ []) then some (s.stopWrites stopped opens)
      else none
  | .restartWrites restarted removes opens =>
      if s.idle then some (s.restartWrites restarted removes opens) else none
  | .truncate id outcome removes opens =>
      if s.idle then some (s.truncate id outcome removes opens) else none
  | .releaseFiles => some s.releaseFiles
  | .forget => if s.idle then some s.forget else none

end Lore.Storage
