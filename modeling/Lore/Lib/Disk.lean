import Lore.Lib.Span

/-!
# Disk — numbered files that are written in place

A disk holds files by number. A write lands at an offset and fills a gap before it with
zeros; a sync makes what a file holds durable; a crash may cut a file back, but not below
what was durable. A read of a range is a `slice`.
-/

namespace Lore.Lib

open List

/-- A file after `data` is written at `offset`. -/
def writeAt (bytes : List UInt8) (offset : Nat) (data : List UInt8) : List UInt8 :=
  if data = [] then bytes
  else (bytes ++ List.replicate (offset - bytes.length) 0).take offset ++ data
    ++ bytes.drop (offset + data.length)

theorem length_writeAt {bytes data} (offset : Nat) (hd : data ≠ []) :
    (writeAt bytes offset data).length = max bytes.length (offset + data.length) := by
  rw [writeAt, if_neg hd]
  simp only [length_append, length_take, length_replicate, length_drop]
  omega

theorem le_length_writeAt (bytes : List UInt8) (offset : Nat) (data : List UInt8) :
    bytes.length ≤ (writeAt bytes offset data).length := by
  by_cases hd : data = []
  · exact Nat.le_of_eq (by rw [writeAt, if_pos hd])
  · rw [length_writeAt offset hd]
    exact Nat.le_max_left _ _

/-! ## Files by number -/

/-- A file: its bytes, and how many of them a sync covered. -/
structure DiskFile where
  bytes : List UInt8
  durable : Nat
deriving DecidableEq, Repr

/-- The files of a disk. -/
structure Disk where
  files : List (Nat × DiskFile)
deriving DecidableEq, Repr

namespace Disk

variable {d : Disk} {id other : Nat}

def file? (d : Disk) (id : Nat) : Option DiskFile := d.files.lookup id

/-- The bytes of a file, none where there is no file. -/
def bytes (d : Disk) (id : Nat) : List UInt8 := ((d.file? id).map (·.bytes)).getD []

def durable (d : Disk) (id : Nat) : Nat := ((d.file? id).map (·.durable)).getD 0

def length (d : Disk) (id : Nat) : Nat := (d.bytes id).length

def set (d : Disk) (id : Nat) (file : DiskFile) : Disk := ⟨(id, file) :: d.files⟩

/-- Opens a file, creating it where there is none. -/
def create (d : Disk) (id : Nat) : Disk := if (d.file? id).isSome then d else d.set id ⟨[], 0⟩

def write (d : Disk) (id offset : Nat) (data : List UInt8) : Disk :=
  d.set id ⟨writeAt (d.bytes id) offset data, d.durable id⟩

def sync (d : Disk) (id : Nat) : Disk := d.set id ⟨d.bytes id, d.length id⟩

def truncate (d : Disk) (id : Nat) : Disk := d.set id ⟨[], 0⟩

def remove (d : Disk) (id : Nat) : Disk := ⟨d.files.filter fun file => file.1 != id⟩

/-- The highest number of a file. -/
def highest (d : Disk) : Nat := d.files.foldr (fun file highest => max file.1 highest) 0

theorem file?_set_self (d : Disk) (id : Nat) (file : DiskFile) :
    (d.set id file).file? id = some file := by
  simp [file?, set]

theorem file?_set_of_ne (d : Disk) (hne : id ≠ other) (file : DiskFile) :
    (d.set other file).file? id = d.file? id := by
  have hbeq : (id == other) = false := by simpa using hne
  simp [file?, set, lookup_cons, hbeq]

theorem file?_remove_of_ne (d : Disk) (hne : id ≠ other) :
    (d.remove other).file? id = d.file? id := by
  obtain ⟨files⟩ := d
  simp only [file?, remove]
  induction files with
  | nil => rfl
  | cons file files ih =>
    rw [filter_cons]
    by_cases hf : file.1 = other
    · have hbeq : (id == file.1) = false := by simpa using fun heq => hne (heq.trans hf)
      simp only [hf, bne_self_eq_false, Bool.false_eq_true, if_false]
      rw [ih, lookup_cons, hbeq]
    · rw [if_pos (by simpa using hf), lookup_cons, lookup_cons, ih]

theorem bytes_set_self (d : Disk) (id : Nat) (file : DiskFile) :
    (d.set id file).bytes id = file.bytes := by
  rw [bytes, file?_set_self, Option.map_some, Option.getD_some]

theorem bytes_set_of_ne (d : Disk) (hne : id ≠ other) (file : DiskFile) :
    (d.set other file).bytes id = d.bytes id := by
  rw [bytes, file?_set_of_ne d hne, bytes]

theorem bytes_create (d : Disk) (id other : Nat) : (d.create other).bytes id = d.bytes id := by
  unfold create
  split
  · rfl
  case isFalse hn =>
    by_cases heq : id = other
    · subst heq
      rw [bytes_set_self, bytes, Option.not_isSome_iff_eq_none.mp hn]
      rfl
    · exact bytes_set_of_ne d heq _

theorem bytes_write_self (d : Disk) (id offset : Nat) (data : List UInt8) :
    (d.write id offset data).bytes id = writeAt (d.bytes id) offset data := bytes_set_self d id _

theorem bytes_write_of_ne (d : Disk) (hne : id ≠ other) (offset : Nat) (data : List UInt8) :
    (d.write other offset data).bytes id = d.bytes id := bytes_set_of_ne d hne _

theorem bytes_sync (d : Disk) (id other : Nat) : (d.sync other).bytes id = d.bytes id := by
  by_cases heq : id = other
  · subst heq
    exact bytes_set_self d id _
  · exact bytes_set_of_ne d heq _

theorem bytes_truncate_of_ne (d : Disk) (hne : id ≠ other) :
    (d.truncate other).bytes id = d.bytes id := bytes_set_of_ne d hne _

theorem bytes_remove_of_ne (d : Disk) (hne : id ≠ other) :
    (d.remove other).bytes id = d.bytes id := by
  rw [bytes, file?_remove_of_ne d hne, bytes]

theorem length_le_write (d : Disk) (id other offset : Nat) (data : List UInt8) :
    d.length id ≤ (d.write other offset data).length id := by
  by_cases heq : id = other
  · subst heq
    rw [length, length, bytes_write_self]
    exact le_length_writeAt _ _ _
  · exact Nat.le_of_eq (by rw [length, length, bytes_write_of_ne d heq])

theorem le_highest (h : 0 < d.length id) : id ≤ d.highest := by
  obtain ⟨files⟩ := d
  have hf : ∃ file, files.lookup id = some file := by
    cases hl : files.lookup id with
    | none =>
      rw [length, bytes, file?, hl] at h
      exact absurd h (Nat.lt_irrefl 0)
    | some file => exact ⟨file, rfl⟩
  clear h
  induction files with
  | nil =>
    obtain ⟨_, hl⟩ := hf
    cases hl
  | cons file files ih =>
    by_cases heq : id = file.1
    · rw [heq]
      exact Nat.le_max_left _ _
    · have hbeq : (id == file.1) = false := by simpa using heq
      rw [lookup_cons, hbeq] at hf
      exact Nat.le_trans (ih hf) (Nat.le_max_right _ _)

end Disk

end Lore.Lib
