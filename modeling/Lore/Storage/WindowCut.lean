import Lore.Storage.Chunker

/-!
# WindowCut — a window decides what the whole file would

A greedy cutter decides a chunk from the bytes at its start, so a window that holds
enough of what follows decides it as the whole file would. Both loops that cut the
window stop where it does not, and queue the chunks of the file up to there.
-/

namespace Lore.Storage

open Lore.Lib List

/-! ## Greedy cutting -/

/-- A cutter whose chunks are not empty and no longer than `limit`, and that decides a
chunk by the first `limit` bytes where there are as many. -/
structure GreedyCut (cut : Bytes → Nat) (limit : Nat) : Prop where
  pos : ∀ bytes, bytes ≠ [] → 0 < cut bytes
  le_length : ∀ bytes, bytes ≠ [] → cut bytes ≤ bytes.length
  le_limit : ∀ bytes, bytes ≠ [] → cut bytes ≤ limit
  lookahead : ∀ bytes, limit ≤ bytes.length → cut bytes = cut (bytes.take limit)

theorem cutBoundaries_fuel {cut : Bytes → Nat} {limit} (hcut : GreedyCut cut limit)
    {fuel fuel' offset rest} (hlen : rest.length ≤ fuel) (hlen' : rest.length ≤ fuel') :
    cutBoundaries cut fuel offset rest = cutBoundaries cut fuel' offset rest := by
  induction fuel generalizing fuel' offset rest with
  | zero =>
    obtain rfl : rest = [] := length_eq_zero_iff.mp (by omega)
    cases fuel' <;> simp [cutBoundaries]
  | succ fuel ih =>
    cases rest with
    | nil => cases fuel' <;> simp [cutBoundaries]
    | cons b rest =>
      obtain ⟨fuel', rfl⟩ : ∃ n, fuel' = n + 1 := ⟨fuel' - 1, by
        rw [length_cons] at hlen'
        omega⟩
      have hpos := hcut.pos (b :: rest) (by simp)
      exact congrArg _ (ih (by rw [length_drop]; omega) (by rw [length_drop]; omega))

/-- The chunks of the file from `position` on. -/
def chunksFrom (cut : Bytes → Nat) (file : Bytes) (position : Nat) : List Span :=
  cutBoundaries cut (file.length - position) position (file.drop position)

theorem chunksFrom_end {cut : Bytes → Nat} {file position} (h : file.length ≤ position) :
    chunksFrom cut file position = [] := by
  unfold chunksFrom
  rw [Nat.sub_eq_zero_of_le h]
  rfl

theorem chunksFrom_cons {cut : Bytes → Nat} {limit} (hcut : GreedyCut cut limit) {file position}
    (h : position < file.length) :
    chunksFrom cut file position =
      ⟨position, position + cut (file.drop position)⟩ ::
        chunksFrom cut file (position + cut (file.drop position)) := by
  have hne : file.drop position ≠ [] := by
    intro h'
    have := drop_eq_nil_iff.mp h'
    omega
  have hpos := hcut.pos _ hne
  unfold chunksFrom
  obtain ⟨n, hn⟩ : ∃ n, file.length - position = n + 1 := ⟨file.length - position - 1, by omega⟩
  rw [hn, cutBoundaries, if_neg (by simpa using hne), drop_drop]
  congr 1
  refine cutBoundaries_fuel hcut ?_ (Nat.le_of_eq length_drop)
  rw [length_drop]
  omega

/-- **A window decides a chunk as the whole file does**, once it holds `limit` bytes
from the chunk's start on, or the rest of the file. -/
theorem GreedyCut.window_eq {cut : Bytes → Nat} {limit : Nat} (hcut : GreedyCut cut limit)
    {file : Bytes} {base length decided : Nat} {eof : Bool} (hin : base + length ≤ file.length)
    (hend : eof = true → base + length = file.length) (hr : eof = true ∨ decided + limit ≤ length) :
    cut ((slice file ⟨base, base + length⟩).drop decided) = cut (file.drop (base + decided)) := by
  have hsl : slice file ⟨base, base + length⟩ = (file.drop base).take length := by
    simp [slice, Span.length]
  rw [hsl, drop_take, drop_drop]
  rcases hr with heof | hro
  · rw [take_of_length_le]
    rw [length_drop]
    have := hend heof
    omega
  · rw [hcut.lookahead (file.drop (base + decided)) (by rw [length_drop]; omega),
      hcut.lookahead (take _ _) (by rw [length_take, length_drop]; omega),
      take_take, Nat.min_eq_left (by omega)]

/-- The cutter a mode cuts with, and how far it looks. -/
def CutMode.cutter (cut : Bytes → Nat) : CutMode → Bytes → Nat
  | .contentDefined => cut
  | .fixedSize size => fun rest => min size rest.length

@[inherit_doc CutMode.cutter]
def CutMode.lookahead : CutMode → Nat
  | .contentDefined => fragmentSizeThreshold
  | .fixedSize size => size

theorem greedyCut_fixedSize {size} (h : 0 < size) :
    GreedyCut (fun rest => min size rest.length) size where
  pos := by
    intro bytes hne
    have := length_pos_iff.mpr hne
    omega
  le_length := fun _ _ => Nat.min_le_right _ _
  le_limit := fun _ _ => Nat.min_le_left _ _
  lookahead := by
    intro bytes hlen
    simp only [length_take]
    omega

/-! ## Cutting the window -/

/-- The part of the file a queued boundary stands for. -/
def boundarySpan (head base : Nat) (boundary : Nat × Nat) : Span :=
  ⟨base + (boundary.1 - head), base + (boundary.1 - head) + boundary.2⟩

/-- What cutting the window from `decided` on makes: the chunks of the file from there
up to where the cut stopped, which leaves less undecided than the cutter looks ahead, and
nothing at the end of the file. -/
structure WindowCut (cut : Bytes → Nat) (limit : Nat) (file : Bytes) (head base length : Nat)
    (eof : Bool) (decided : Nat) (boundaries : List (Nat × Nat)) (last : Nat) : Prop where
  queued : boundaries.map (boundarySpan head base) ++ chunksFrom cut file (base + last)
    = chunksFrom cut file (base + decided)
  inside : ∀ b ∈ boundaries, head ≤ b.1 ∧ b.1 + b.2 ≤ head + length
  last_le : last ≤ length
  undecided : eof = false → length - last < limit
  ended : eof = true → last = length

section

variable {cut : Bytes → Nat} {limit : Nat} {file : Bytes} {head base length decided : Nat}
  {eof : Bool}

theorem WindowCut.stop (hle : decided ≤ length) (ho : eof = false → length - decided < limit)
    (hend : eof = true → decided = length) :
    WindowCut cut limit file head base length eof decided [] decided where
  queued := rfl
  inside := by simp
  last_le := hle
  undecided := ho
  ended := hend

theorem WindowCut.cons (hcut : GreedyCut cut limit) {take last boundaries}
    (ht : take = cut (file.drop (base + decided))) (hbe : base + decided < file.length)
    (hin : decided + take ≤ length)
    (h : WindowCut cut limit file head base length eof (decided + take) boundaries last) :
    WindowCut cut limit file head base length eof decided ((head + decided, take) :: boundaries)
      last where
  __ := h
  queued := by
    rw [chunksFrom_cons hcut hbe, ← ht, map_cons, cons_append, h.queued]
    simp [boundarySpan, Nat.add_assoc]
  inside := by
    intro b hb
    rcases mem_cons.mp hb with rfl | hb
    · omega
    · exact h.inside b hb

variable (hin : base + length ≤ file.length) (hend : eof = true → base + length = file.length)
include hin hend

theorem GreedyCut.next (hcut : GreedyCut cut limit) (hlt : decided < length)
    (hr : eof = true ∨ decided + limit ≤ length) :
    0 < cut (file.drop (base + decided)) ∧ decided + cut (file.drop (base + decided)) ≤ length := by
  have hlen : ((slice file ⟨base, base + length⟩).drop decided).length = length - decided := by
    rw [length_drop, length_slice_of_le (by exact hin)]
    simp [Span.length]
  have hne : (slice file ⟨base, base + length⟩).drop decided ≠ [] := by
    intro h
    rw [h] at hlen
    simp only [length_nil] at hlen
    omega
  have hpos := hcut.pos _ hne
  have hle := hcut.le_length _ hne
  rw [hcut.window_eq hin hend hr] at hpos hle
  omega

theorem cutOnContent_windowCut (hcut : GreedyCut cut fragmentSizeThreshold)
    {fuel decided} (hle : decided ≤ length) (hf : length - decided < fuel) :
    ∃ boundaries last,
      FileChunker.cutOnContent cut head (slice file ⟨base, base + length⟩) eof fuel decided
          = (boundaries, last) ∧
        WindowCut cut fragmentSizeThreshold file head base length eof decided boundaries last := by
  have hlen : (slice file ⟨base, base + length⟩).length = length := by
    rw [length_slice_of_le (by exact hin)]
    simp [Span.length]
  induction fuel generalizing decided with
  | zero => omega
  | succ fuel ih =>
    unfold FileChunker.cutOnContent
    rw [hlen]
    by_cases hst : eof = false ∧ decided + fragmentSizeThreshold > length
    · rw [if_pos (by simpa using hst)]
      exact ⟨[], decided, rfl, .stop hle (by omega) (by simp [hst.1])⟩
    · rw [if_neg (by simpa using hst)]
      have hr : eof = true ∨ decided + fragmentSizeThreshold ≤ length := by
        cases eof
        · simp only [true_and] at hst
          omega
        · exact .inl rfl
      by_cases hlt : decided < length
      · obtain ⟨hpos, hn⟩ := hcut.next hin hend hlt hr
        obtain ⟨boundaries, last, heq, hw⟩ :=
          ih hn (by omega)
        simp only [if_pos hlt, hcut.window_eq hin hend hr, heq]
        exact ⟨_, last, rfl, .cons hcut rfl (by omega) hn hw⟩
      · rw [if_neg hlt]
        -- with a whole fragment of lookahead left there is something to cut
        have hT : 0 < fragmentSizeThreshold := by decide
        rcases hr with rfl | hr
        · exact ⟨[], decided, rfl, .stop hle (by simp) (by omega)⟩
        · omega

theorem cutFixed_windowCut {size} (hsi : 0 < size) {fuel decided} (hle : decided ≤ length)
    (hf : length - decided < fuel) :
    ∃ boundaries last,
      FileChunker.cutFixed head length eof size fuel decided = (boundaries, last) ∧
        WindowCut (fun rest => min size rest.length) size file head base length eof decided
          boundaries last := by
  have hcut := greedyCut_fixedSize hsi
  induction fuel generalizing decided with
  | zero => omega
  | succ fuel ih =>
    unfold FileChunker.cutFixed
    by_cases hlt : decided < length
    · rw [if_pos hlt]
      by_cases hgo : length - decided ≥ size ∨ eof = true
      · have hr : eof = true ∨ decided + size ≤ length := by
          rcases hgo with h | h
          · exact .inr (by omega)
          · exact .inl h
        obtain ⟨hpos, hn⟩ := hcut.next hin hend hlt hr
        -- the bytes left in the window are the rest of the file, or enough for a chunk
        have ht : (if length - decided ≥ size then size else length - decided)
            = min size (file.drop (base + decided)).length := by
          rw [length_drop]
          split
          · omega
          · have := hend (hgo.resolve_left ‹_›)
            omega
        obtain ⟨boundaries, last, heq, hw⟩ := ih hn (by omega)
        simp only [if_pos hgo, ht, heq]
        exact ⟨_, last, rfl, .cons hcut rfl (by omega) hn hw⟩
      · simp only [if_neg hgo]
        obtain ⟨hsh, ho⟩ := not_or.mp hgo
        exact ⟨[], decided, rfl, .stop hle (by omega) (fun h => absurd h ho)⟩
    · rw [if_neg hlt]
      exact ⟨[], decided, rfl, .stop hle (by omega) (by omega)⟩

end

end Lore.Storage
