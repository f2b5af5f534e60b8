import Lore.Storage.WriteSpec

/-!
# ChunkerSpec — cutting through a window is cutting the whole

The chunker's invariant says which bytes of the file the window holds, that the
undecided rest of it fits the headroom, and that the queued chunks and those still to
be cut are, together, what is left of the chunks of the whole file. Every step keeps
it, so the chunks handed out are the chunks of the whole file, and a write from a file
is the write of its bytes.
-/

namespace Lore.Storage

open Lore.Lib List FileChunker

/-! ## Buffers -/

section

variable {buffer cells : CallerBuffer} {start : Nat}

section

variable (h : start + cells.length ≤ buffer.length)
include h

theorem length_overwrite : (overwrite buffer start cells).length = buffer.length := by
  simp only [overwrite, length_append, length_take, length_drop]
  omega

theorem slice_overwrite :
    slice (overwrite buffer start cells) ⟨start, start + cells.length⟩ = cells := by
  have hlen : (buffer.take start).length = start := by
    rw [length_take]
    omega
  rw [slice, overwrite, append_assoc, drop_left' hlen]
  simp [Span.length]

theorem slice_overwrite_below {s} (hs : start + cells.length ≤ s.start) :
    slice (overwrite buffer start cells) s = slice buffer s := by
  have hlen : (buffer.take start ++ cells).length = start + cells.length := by
    rw [length_append, length_take]
    omega
  rw [slice, slice, overwrite, drop_append, hlen, drop_of_length_le (by omega),
    nil_append, drop_drop, Nat.add_sub_cancel' hs]

end

theorem readWindow_ok {file want offset} (hr : start + want ≤ buffer.length)
    (hf : offset + want ≤ file.length) :
    ∃ filled, readWindow file buffer start want offset = .ok filled ∧
      filled.length = buffer.length ∧
      slice filled ⟨start, start + want⟩ = (slice file ⟨offset, offset + want⟩).map some := by
  have hlen : ((slice file ⟨offset, offset + want⟩).map some).length = want := by
    rw [length_map, length_slice_of_le (by exact hf)]
    simp [Span.length]
  refine ⟨_, by rw [readWindow, if_neg (by omega), if_neg (by omega)],
    length_overwrite (by omega), ?_⟩
  have := slice_overwrite (show start + ((slice file ⟨offset, offset + want⟩).map some).length
    ≤ buffer.length by rw [hlen]; exact hr)
  rwa [hlen] at this

end

theorem slice_held {window : CallerBuffer} {file : Bytes} {head base length : Nat}
    (h : slice window ⟨head, head + length⟩ = (slice file ⟨base, base + length⟩).map some)
    {i j : Nat} (hj : j ≤ length) :
    slice window ⟨head + i, head + j⟩ = (slice file ⟨base + i, base + j⟩).map some := by
  have hin : ∀ start, (⟨i, j⟩ : Span).stop ≤ (⟨start, start + length⟩ : Span).length := by
    simpa [Span.length] using hj
  have hs := slice_slice window (hin head)
  rw [h, slice_map, slice_slice file (hin base)] at hs
  exact hs.symm

/-! ## The chunker's invariant -/

/-- What the window holds: the bytes of the file from `base` to where the next read
starts, with room in front of the next read for those not decided. -/
structure HoldsWindow (file : Bytes) (c : FileChunker) : Prop where
  size : c.fileSize = file.length
  inside : c.head + c.length ≤ c.window.length
  bytes : slice c.window ⟨c.head, c.head + c.length⟩
    = (slice file ⟨c.base, c.base + c.length⟩).map some
  read : c.base + c.length = c.readOffset
  within : c.readOffset ≤ file.length
  decided : c.decided ≤ c.length
  carried : c.length - c.decided ≤ c.headroom

/-- Where the next read lands: in the only window of a file that fits it, of which nothing
was read, or in the other of two windows, parked or already being filled. -/
inductive NextRead (file : Bytes) (c : FileChunker) : Prop where
  | only : c.fileSize ≤ windowSize → c.headroom = 0 → c.readOffset = 0 → c.head = 0 →
      c.pending = none → c.spare = none → c.window.length = c.fileSize → NextRead file c
  | parked (target : CallerBuffer) : windowSize < c.fileSize →
      c.headroom = fragmentSizeThreshold → c.readOffset < c.fileSize →
      c.window.length = windowSize → target.length = windowSize → c.pending = none →
      c.spare = some target → NextRead file c
  | inFlight (target : CallerBuffer) (want : Nat) : windowSize < c.fileSize →
      c.headroom = fragmentSizeThreshold → c.readOffset < c.fileSize →
      c.window.length = windowSize → target.length = windowSize →
      want = min (windowSize - c.headroom) (c.fileSize - c.readOffset) →
      c.pending = some ⟨readWindow file target c.headroom want c.readOffset, want⟩ →
      NextRead file c

/-- **The chunker's invariant**: `spans` are the chunks of the file still to hand out. -/
structure ChunkerInv (cut : Bytes → Nat) (file : Bytes) (c : FileChunker) (spans : List Span) :
    Prop where
  greedy : GreedyCut (c.mode.cutter cut) c.mode.lookahead
  lookahead_le : c.mode.lookahead ≤ fragmentSizeThreshold
  usable : c.failed = false
  holds : HoldsWindow file c
  ready : ∀ b ∈ c.ready, c.head ≤ b.1 ∧ b.1 + b.2 ≤ c.head + c.length
  queued : c.ready.map (boundarySpan c.head c.base)
    ++ chunksFrom (c.mode.cutter cut) file (c.base + c.decided) = spans
  ended : c.eof = true → c.base + c.decided = file.length
  nextRead : c.eof = false → NextRead file c

theorem chunkerInv_opened {cut : Bytes → Nat} {mode}
    (hgreedy : GreedyCut (mode.cutter cut) mode.lookahead)
    (hle : mode.lookahead ≤ fragmentSizeThreshold) (file : Bytes) :
    ChunkerInv cut file (FileChunker.opened file.length mode)
      (chunksFrom (mode.cutter cut) file 0) := by
  have hc : (CallerBuffer.allocate (min file.length windowSize)).length
      = min file.length windowSize := length_replicate
  have hw : fragmentSizeThreshold ≤ windowSize := by decide
  refine {
    greedy := hgreedy
    lookahead_le := hle
    usable := rfl
    holds := ⟨rfl, ?_, by simp [opened], rfl, Nat.zero_le _, Nat.le_refl _, Nat.zero_le _⟩
    ready := by simp [opened]
    queued := rfl
    ended := by simp [opened]
    nextRead := fun _ => ?_ }
  · simp only [opened, decide_eq_true_eq]
    split <;> omega
  · by_cases hsi : file.length ≤ windowSize
    · simp only [opened, hsi]
      exact .only hsi rfl rfl rfl rfl rfl (hc.trans (Nat.min_eq_left hsi))
    · simp only [opened, hsi]
      have hf := hc.trans (Nat.min_eq_right (Nat.le_of_not_le hsi))
      exact .parked _ (by simp only; omega) rfl (by simp only; omega) hf hf rfl rfl

/-! ## Advancing -/

section

variable {cut : Bytes → Nat} {file : Bytes} {c : FileChunker}

theorem startRead_ok {target} (h : c.headroom ≤ target.length) :
    c.startRead file target =
      .ok ⟨readWindow file target c.headroom
        (min (target.length - c.headroom) (c.fileSize - c.readOffset)) c.readOffset,
        min (target.length - c.headroom) (c.fileSize - c.readOffset)⟩ := by
  rw [startRead, subU64_ok h]
  rfl

/-- The chunker with these windows, once `want` more bytes of the file were taken. -/
abbrev took (c : FileChunker) (window : CallerBuffer) (spare : Option CallerBuffer) (want : Nat) :
    FileChunker :=
  { c with
    window := window
    spare := spare
    pending := none
    readOffset := c.readOffset + want
    eof := decide (c.readOffset + want ≥ c.fileSize) }

theorem takeRead_of_pendingRead {target window spare want}
    (h : c.pendingRead file = .ok (⟨readWindow file target c.headroom want c.readOffset, want⟩,
      { c with window := window, spare := spare, pending := none }))
    (hro : c.headroom + want ≤ target.length) (hf : c.readOffset + want ≤ file.length)
    (heof : c.eof = false) :
    ∃ filled,
      c.takeRead file = .ok (filled, want, took c window spare want) ∧
      filled.length = target.length ∧
      slice filled ⟨c.headroom, c.headroom + want⟩
        = (slice file ⟨c.readOffset, c.readOffset + want⟩).map some := by
  obtain ⟨filled, hr, hlen, hbytes⟩ := readWindow_ok hro hf
  refine ⟨filled, ?_, hlen, hbytes⟩
  simp [takeRead, h, hr, heof]

/-- **`take_read`** delivers the next bytes of the file. It leaves the unconsumed bytes of
the window alone, and unless it ends the file both windows are whole. -/
theorem takeRead_ok (hw : HoldsWindow file c) (hn : NextRead file c) (heof : c.eof = false) :
    ∃ filled window spare want,
      c.takeRead file = .ok (filled, want, took c window spare want) ∧
      c.readOffset + want ≤ file.length ∧
      c.headroom + want ≤ filled.length ∧
      slice filled ⟨c.headroom, c.headroom + want⟩
        = (slice file ⟨c.readOffset, c.readOffset + want⟩).map some ∧
      c.head + c.length ≤ window.length ∧
      slice window ⟨c.head, c.head + c.length⟩ = slice c.window ⟨c.head, c.head + c.length⟩ ∧
      (c.readOffset + want = c.fileSize ∨
        0 < want ∧ windowSize < c.fileSize ∧ c.headroom = fragmentSizeThreshold ∧
          window.length = windowSize ∧ filled.length = windowSize) := by
  have hsi := hw.size
  have hre := hw.read
  have hwT : windowSize = 2 * fragmentSizeThreshold := rfl
  have hT : 0 < fragmentSizeThreshold := by decide
  cases hn with
  | only hsm hr ho hh hp hsp hlen =>
    have hpe : c.pendingRead file = .ok (⟨readWindow file c.window c.headroom c.fileSize
        c.readOffset, c.fileSize⟩, { c with window := [], spare := c.spare, pending := none }) := by
      rw [pendingRead, hp, hsp]
      rw [startRead_ok (by omega), hr, ho, hlen]
      simp
    obtain ⟨filled, hta, hf, hbytes⟩ := takeRead_of_pendingRead hpe (by omega) (by omega) heof
    refine ⟨filled, _, _, _, hta, by omega, by omega, hbytes, ?_, ?_, .inl (by omega)⟩
    · omega
    · rw [show c.length = 0 by omega, Nat.add_zero, slice_empty, slice_empty]
  | parked target hbig hr ho hlen ht hp hsp =>
    have hpe : c.pendingRead file = .ok (⟨readWindow file target c.headroom
        (min (target.length - c.headroom) (c.fileSize - c.readOffset)) c.readOffset,
        min (target.length - c.headroom) (c.fileSize - c.readOffset)⟩,
        { c with window := c.window, spare := none, pending := none }) := by
      rw [pendingRead, hp, hsp]
      simp only
      rw [startRead_ok (by omega)]
      rfl
    obtain ⟨filled, hta, hf, hbytes⟩ := takeRead_of_pendingRead hpe (by omega) (by omega) heof
    exact ⟨filled, _, _, _, hta, by omega, by omega, hbytes, hw.inside, rfl,
      .inr ⟨by omega, hbig, hr, hlen, by omega⟩⟩
  | inFlight target want hbig hr ho hlen ht hwa hp =>
    have hpe : c.pendingRead file = .ok (⟨readWindow file target c.headroom want
        c.readOffset, want⟩, { c with window := c.window, spare := c.spare, pending := none }) := by
      rw [pendingRead, hp]
    obtain ⟨filled, hta, hf, hbytes⟩ := takeRead_of_pendingRead hpe (by omega) (by omega) heof
    exact ⟨filled, _, _, _, hta, by omega, by omega, hbytes, hw.inside, rfl,
      .inr ⟨by omega, hbig, hr, hlen, by omega⟩⟩

/-- **`swap_in`** puts the undecided rest of the window right in front of the bytes just
read. -/
theorem swapIn_ok {filled : CallerBuffer} {read : Nat} (hd : c.decided ≤ c.length)
    (hca : c.length - c.decided ≤ c.headroom) (hinside : c.head + c.length ≤ c.window.length)
    (hbytes : slice c.window ⟨c.head, c.head + c.length⟩
      = (slice file ⟨c.base, c.base + c.length⟩).map some) (hro : c.headroom + read ≤ filled.length)
    (hf : slice filled ⟨c.headroom, c.headroom + read⟩
      = (slice file ⟨c.base + c.length, c.base + c.length + read⟩).map some) :
    ∃ buffer,
      c.swapIn filled read = .ok { c with
        window := buffer
        spare := some c.window
        base := c.base + c.decided
        head := c.headroom - (c.length - c.decided)
        length := c.length - c.decided + read
        decided := 0 } ∧
      buffer.length = filled.length ∧
      slice buffer ⟨c.headroom - (c.length - c.decided), c.headroom + read⟩
        = (slice file ⟨c.base + c.decided, c.base + c.length + read⟩).map some := by
  have hce : slice c.window ⟨c.head + c.decided, c.head + c.length⟩
      = (slice file ⟨c.base + c.decided, c.base + c.length⟩).map some :=
    slice_held hbytes (Nat.le_refl _)
  have hlen : (slice c.window ⟨c.head + c.decided, c.head + c.length⟩).length
      = c.length - c.decided := by
    rw [length_slice_of_le (by exact hinside)]
    simp only [Span.length]
    omega
  have hfi : c.headroom - (c.length - c.decided)
      + (slice c.window ⟨c.head + c.decided, c.head + c.length⟩).length ≤ filled.length := by
    omega
  refine ⟨overwrite filled (c.headroom - (c.length - c.decided))
    (slice c.window ⟨c.head + c.decided, c.head + c.length⟩), ?_, length_overwrite hfi, ?_⟩
  · rw [swapIn, subU64_ok hd]
    simp only [ok_bind]
    rw [if_neg (by omega), sliceCells, if_pos (by omega)]
    simp only [ok_bind]
    rw [copyFromSlice, if_pos (by omega)]
    rfl
  · have hc := slice_overwrite hfi
    have hr := slice_overwrite_below hfi (s := ⟨c.headroom, c.headroom + read⟩) (by
      simp only
      omega)
    rw [hlen, Nat.sub_add_cancel hca] at hc
    rw [← slice_append_slice _ (Nat.sub_le _ _) (Nat.le_add_right c.headroom read), hc, hr,
      hce, hf, ← map_append,
      slice_append_slice file (by omega) (Nat.le_add_right _ _)]

section

variable (hgreedy : GreedyCut (c.mode.cutter cut) c.mode.lookahead)
  (hinside : c.head + c.length ≤ c.window.length)
  (hbytes : slice c.window ⟨c.head, c.head + c.length⟩ =
    (slice file ⟨c.base, c.base + c.length⟩).map some) (hin : c.base + c.length ≤ file.length)
  (hend : c.eof = true → c.base + c.length = file.length)
include hgreedy hinside hbytes hin hend

theorem decideCuts_ok :
    ∃ boundaries last, c.decideCuts cut = .ok (boundaries, last) ∧
      WindowCut (c.mode.cutter cut) c.mode.lookahead file c.head c.base c.length c.eof 0
        boundaries last := by
  unfold decideCuts
  cases hm : c.mode with
  | contentDefined =>
    rw [hm] at hgreedy
    have hcut : GreedyCut cut fragmentSizeThreshold := hgreedy
    obtain ⟨boundaries, last, heq, hwc⟩ := @cutOnContent_windowCut _ _ c.head _ _ _ hin hend
      hcut (c.length + 1) 0 (Nat.zero_le _) (by omega)
    refine ⟨boundaries, last, ?_, hwc⟩
    rw [sliceCells, if_pos (by omega), hbytes]
    simp [assembled_map_some, heq]
  | fixedSize size =>
    rw [hm] at hgreedy
    have hsi : 0 < size := Nat.lt_of_lt_of_le (hgreedy.pos [0] (by simp))
      (hgreedy.le_limit [0] (by simp))
    obtain ⟨boundaries, last, heq, hwc⟩ := @cutFixed_windowCut _ c.head _ _ _ hin hend _ hsi
      (c.length + 1) 0 (Nat.zero_le _) (by omega)
    exact ⟨boundaries, last, by simp only [heq], hwc⟩

/-- **`cut`** queues the chunks of the file that the window decides, and what it leaves
undecided fits the headroom. -/
theorem cutWindow_ok (hr : c.eof = false → c.mode.lookahead ≤ c.headroom) :
    ∃ boundaries last,
      c.cutWindow cut = .ok { c with ready := c.ready ++ boundaries, decided := last } ∧
      WindowCut (c.mode.cutter cut) c.mode.lookahead file c.head c.base c.length c.eof 0
        boundaries last ∧
      c.length - last ≤ c.headroom := by
  -- the remainder's bound follows from what either way of cutting leaves
  have hf : ∀ {boundaries last}, WindowCut (c.mode.cutter cut) c.mode.lookahead file c.head
      c.base c.length c.eof 0 boundaries last → c.length - last ≤ c.headroom := by
    intro boundaries last h
    cases heof : c.eof with
    | true =>
      have := h.ended heof
      omega
    | false =>
      have := h.undecided heof
      have := hr heof
      omega
  obtain ⟨boundaries, last, hcut, hwc⟩ := decideCuts_ok hgreedy hinside hbytes hin hend
  refine ⟨boundaries, last, ?_, hwc, hf hwc⟩
  rw [cutWindow, hcut]
  simp only [ok_bind]
  rw [subU64_ok hwc.last_le]
  simp only [ok_bind]
  rw [if_neg (Nat.not_lt.mpr (hf hwc))]

end

/-- **One `advance`** keeps the invariant, and reads on or ends the file. -/
theorem ChunkerInv.advance {spans} (h : ChunkerInv cut file c spans) (hre : c.ready = [])
    (heof : c.eof = false) :
    ∃ c', c.advance cut file = .ok c' ∧ ChunkerInv cut file c' spans ∧
      (c'.eof = true ∨ c.readOffset < c'.readOffset) := by
  obtain ⟨hsi, -, hbytes, hrea, -, hd, hc⟩ := h.holds
  obtain ⟨filled, window, spare, want, ht, hfil, hro, hf, hinside, hk, hr⟩ :=
    takeRead_ok h.holds (h.nextRead heof) heof
  obtain ⟨buffer, hsw, hbl, hb⟩ := @swapIn_ok file (took c window spare want)
    filled want hd hc hinside (hk.trans hbytes) hro (by
      rw [hrea]
      exact hf)
  generalize hrem : c.length - c.decided = remainder at hsw hb hc
  have hhe : c.headroom + want = c.headroom - remainder + (remainder + want) := by omega
  have hba : c.base + c.length + want = c.base + c.decided + (remainder + want) := by omega
  rw [hhe, hba] at hb
  obtain ⟨boundaries, last, hcut, hwc, hfi⟩ := @cutWindow_ok cut file
    { took c buffer (some window) want with
      base := c.base + c.decided
      head := c.headroom - remainder
      length := remainder + want
      decided := 0 }
    h.greedy (by simp only; omega) hb (by simp only; omega)
    (by simp only [decide_eq_true_eq]; omega)
    (by
      -- only a read that does not end the file leaves a remainder, and then there are two windows
      intro ho
      simp only [decide_eq_false_iff_not] at ho
      have := h.lookahead_le
      rcases hr with hall | ⟨-, -, hh, -⟩
      · omega
      · exact hh ▸ this)
  simp only at hcut hwc hfi
  have hq := hwc.queued
  have hsp : chunksFrom (c.mode.cutter cut) file (c.base + c.decided) = spans := by
    rw [← h.queued, hre]
    rfl
  have ha : c.advance cut file = FileChunker.issueRead file
      { took c buffer (some window) want with
        base := c.base + c.decided
        head := c.headroom - remainder
        length := remainder + want
        ready := c.ready ++ boundaries
        decided := last } := by
    simp [FileChunker.advance, ht, hsw, hcut]
  rw [ha, hre, FileChunker.issueRead]
  by_cases hend : c.readOffset + want ≥ c.fileSize
  · rw [if_pos (.inr hend)]
    refine ⟨_, rfl, ?_, .inl (decide_eq_true hend)⟩
    exact { h with
      holds := ⟨hsi, by simp only; omega, hb, by simp only; omega, hfil, hwc.last_le, hfi⟩
      ready := hwc.inside
      queued := hq.trans hsp
      ended := by
        intro heof
        have := hwc.ended heof
        simp only
        omega
      nextRead := fun ho => absurd hend (of_decide_eq_false ho) }
  · rcases hr with hall | ⟨hwa, hbig, hh, hw, hfl⟩
    · omega
    rw [if_neg (by simp only [Option.isSome_none, Bool.false_eq_true, false_or]; exact hend)]
    simp only
    rw [startRead_ok (by simp only; omega)]
    refine ⟨_, rfl, ?_, .inr (by simp only; omega)⟩
    exact { h with
      holds := ⟨hsi, by simp only; omega, hb, by simp only; omega, hfil, hwc.last_le, hfi⟩
      ready := hwc.inside
      queued := hq.trans hsp
      ended := fun heof => absurd (of_decide_eq_true heof) hend
      nextRead := fun _ => .inFlight window _ hbig hh (by simp only; omega)
        (hbl.trans hfl) hw (by simp only [hw]) rfl }

/-! ## Handing out -/

/-- The chunk of the file that `span` covers. -/
def chunkOf (file : Bytes) (span : Span) : Chunk := ⟨span.start, slice file span⟩

theorem NextRead.dequeue (h : NextRead file c) (rest : List (Nat × Nat)) :
    NextRead file { c with ready := rest } := by
  cases h with
  | only hsm hr ho hh hp hsp hlen =>
    exact .only hsm hr ho hh hp hsp hlen
  | parked target hbig hr ho hlen ht hp hsp =>
    exact .parked target hbig hr ho hlen ht hp hsp
  | inFlight target want hbig hr ho hlen ht hw hp =>
    exact .inFlight target want hbig hr ho hlen ht hw hp

/-- **Handing out** the first queued chunk hands out the first chunk of the file left. -/
theorem ChunkerInv.handOut {spans boundary rest} (h : ChunkerInv cut file c spans)
    (hr : c.ready = boundary :: rest) :
    ∃ span later, spans = span :: later ∧
      c.handOut boundary.1 boundary.2 = .ok (chunkOf file span) ∧
      ChunkerInv cut file { c with ready := rest } later := by
  have hq := h.queued
  rw [hr] at hq
  obtain ⟨hlo, hhi⟩ := h.ready boundary (by simp [hr])
  refine ⟨_, _, hq.symm, ?_, { h with
    holds := { h.holds with }
    ready := fun b hb => h.ready b (by simp [hr, hb])
    queued := rfl
    nextRead := fun heof => (h.nextRead heof).dequeue rest }⟩
  obtain ⟨offset, length⟩ := boundary
  -- the boundary is a slice of the part of the window that holds the file
  have hc := slice_held h.holds.bytes (show offset - c.head + length ≤ c.length by omega)
    (i := offset - c.head)
  rw [show c.head + (offset - c.head) = offset by omega,
    show c.head + (offset - c.head + length) = offset + length by omega, ← Nat.add_assoc] at hc
  have hinside := h.holds.inside
  rw [FileChunker.handOut, sliceCells, if_pos (by omega), hc]
  simp only [ok_bind, assembled_map_some, subU64_ok hlo]
  rfl

/-- The rounds `next_chunk` may still take before it has an answer. -/
def roundsLeft (c : FileChunker) : Nat :=
  if c.eof then 0 else c.fileSize - c.readOffset + 1

/-- **`next_chunk`** hands out the chunks of the file in order, then `None`. -/
theorem ChunkerInv.nextChunkLoop {fuel c spans} (h : ChunkerInv cut file c spans)
    (hf : roundsLeft c < fuel) :
    ∃ c', FileChunker.nextChunkLoop cut file fuel c
        = (.ok (spans.head?.map (chunkOf file)), c') ∧
      ChunkerInv cut file c' spans.tail := by
  induction fuel generalizing c with
  | zero => omega
  | succ fuel ih =>
    unfold FileChunker.nextChunkLoop
    cases hr : c.ready with
    | cons boundary rest =>
      obtain ⟨span, later, rfl, hout, hinv⟩ := h.handOut hr
      refine ⟨{ c with ready := rest }, ?_, hinv⟩
      simp only [hout]
      rfl
    | nil =>
      cases heof : c.eof with
      | true =>
        have hsp : spans = [] := by
          rw [← h.queued, hr, h.ended heof, chunksFrom_end (Nat.le_refl _)]
          rfl
        subst hsp
        exact ⟨c, rfl, h⟩
      | false =>
        obtain ⟨next, ha, hinv, hp⟩ := h.advance hr heof
        have hro : roundsLeft next < roundsLeft c := by
          have hsi := h.holds.size
          have hsi' := hinv.holds.size
          have hw := hinv.holds.within
          simp only [roundsLeft, heof, Bool.false_eq_true, if_false]
          rcases hp with hend | hre
          · rw [if_pos hend]
            omega
          · split <;> omega
        simp only [ha]
        exact ih hinv (by omega)

theorem ChunkerInv.nextChunk {spans} (h : ChunkerInv cut file c spans) :
    ∃ c', c.nextChunk cut file = (.ok (spans.head?.map (chunkOf file)), c') ∧
      ChunkerInv cut file c' spans.tail := by
  rw [FileChunker.nextChunk, h.usable]
  apply h.nextChunkLoop
  unfold roundsLeft
  split <;> omega

/-- **Draining the chunker** gives every chunk of the file left, and ends. -/
theorem ChunkerInv.chunks {fuel c spans} (h : ChunkerInv cut file c spans)
    (hf : spans.length < fuel) : c.chunks cut file fuel = .ok (spans.map (chunkOf file)) := by
  induction fuel generalizing c spans with
  | zero => omega
  | succ fuel ih =>
    obtain ⟨c', hn, hinv⟩ := h.nextChunk
    unfold FileChunker.chunks
    rw [hn]
    cases spans with
    | nil => rfl
    | cons span later =>
      rw [length_cons] at hf
      simp only [head?_cons, Option.map_some, tail_cons] at hinv ⊢
      rw [ih hinv (by omega)]
      rfl

end

/-! ## Every state of a run -/

/-- The states a chunker takes as `next_chunk` is called on it again and again: after each
chunk handed out, and after each window read. -/
inductive ChunkerReachable (cut : Bytes → Nat) (file : Bytes) (start : FileChunker) :
    FileChunker → Prop where
  | opened : ChunkerReachable cut file start start
  | handOut {c : FileChunker} {boundary : Nat × Nat} {rest : List (Nat × Nat)} :
      ChunkerReachable cut file start c → c.failed = false → c.ready = boundary :: rest →
      ChunkerReachable cut file start { c with ready := rest }
  | advance {c c' : FileChunker} : ChunkerReachable cut file start c → c.failed = false →
      c.ready = [] → c.eof = false → c.advance cut file = .ok c' →
      ChunkerReachable cut file start c'
  | fail {c : FileChunker} {e : StorageError} : ChunkerReachable cut file start c →
      c.failed = false → c.ready = [] → c.eof = false → c.advance cut file = .error e →
      ChunkerReachable cut file start { c with failed := true }

theorem ChunkerReachable.inv {cut : Bytes → Nat} {file start c spans}
    (hst : ChunkerInv cut file start spans) (h : ChunkerReachable cut file start c) :
    ∃ later, later <:+ spans ∧ ChunkerInv cut file c later := by
  induction h with
  | opened => exact ⟨spans, suffix_refl _, hst⟩
  | handOut _ _ hr ih =>
    obtain ⟨later, hsu, hinv⟩ := ih
    obtain ⟨span, rest, rfl, -, hn⟩ := hinv.handOut hr
    exact ⟨rest, (suffix_cons span rest).trans hsu, hn⟩
  | advance _ _ hr heof ha ih =>
    obtain ⟨later, hsu, hinv⟩ := ih
    obtain ⟨c', ha', hn, -⟩ := hinv.advance hr heof
    rw [ha] at ha'
    cases ha'
    exact ⟨later, hsu, hn⟩
  | fail _ _ hr heof ha ih =>
    -- no read of a file that does not change fails
    obtain ⟨later, hsu, hinv⟩ := ih
    obtain ⟨c', ha', -, -⟩ := hinv.advance hr heof
    rw [ha] at ha'
    cases ha'

/-- The undecided rest of the window fits the headroom, and neither the window nor a queued
chunk leaves its buffer. -/
structure FileChunker.InBounds (c : FileChunker) : Prop where
  decided : c.decided ≤ c.length
  remainder : c.length - c.decided ≤ c.headroom
  window : c.head + c.length ≤ c.window.length
  ready : ∀ b ∈ c.ready, c.head ≤ b.1 ∧ b.1 + b.2 ≤ c.head + c.length

/-! ## The whole file -/

/-- The content-defined cutter looks no further than one fragment. -/
def Host.LooksAhead (host : Host) : Prop :=
  ∀ bytes, fragmentSizeThreshold ≤ bytes.length →
    host.cut bytes = host.cut (bytes.take fragmentSizeThreshold)

theorem openChunker_eq (options : WriteOptions) (size : Nat) :
    openChunker options size = FileChunker.opened size (cutMode options) := by
  unfold openChunker cutMode
  cases hsi : options.cutSize with
  | none => rfl
  | some step =>
    obtain ⟨hpos, hle⟩ := WriteOptions.cutSize_bounds hsi
    simp only [fixedSize]
    rw [Nat.max_eq_left hpos, Nat.min_eq_left hle]

section

variable {host : Host} (hcut : host.CutsFragments) (ha : host.LooksAhead) (options : WriteOptions)
include hcut ha

theorem cutMode_greedy :
    GreedyCut ((cutMode options).cutter host.cut) (cutMode options).lookahead ∧
      (cutMode options).lookahead ≤ fragmentSizeThreshold := by
  unfold cutMode
  cases hsi : options.cutSize with
  | none =>
    exact ⟨⟨fun b h => (hcut b h).1, fun b h => (hcut b h).2.1, fun b h => (hcut b h).2.2,
      ha⟩, Nat.le_refl _⟩
  | some step =>
    obtain ⟨hpos, hle⟩ := WriteOptions.cutSize_bounds hsi
    exact ⟨greedyCut_fixedSize hpos, hle⟩

theorem chunkerInv_openChunker (file : Bytes) :
    ChunkerInv host.cut file (openChunker options file.length)
      (chunkBoundaries host options.cutSize file) := by
  obtain ⟨hgreedy, hle⟩ := cutMode_greedy hcut ha options
  rw [openChunker_eq, chunkBoundaries_eq_chunksFrom]
  exact chunkerInv_opened hgreedy hle file

theorem chunks_openChunker (file : Bytes) :
    (openChunker options file.length).chunks host.cut file (file.length + 1)
      = .ok ((chunkBoundaries host options.cutSize file).map (chunkOf file)) := by
  have hc := (chunkBoundaries_tiles hcut options file).1.length_le
  exact (chunkerInv_openChunker hcut ha options file).chunks (by omega)

theorem writeFragmentedFromFile_eq (mode : CompressionMode) (partition : Partition)
    (context : Context) {file} (store : ContentStore) (h : fragmentSizeThreshold < file.length) :
    writeFragmentedFromFile host mode partition context options file store
      = writeFragmented host mode partition context options file store := by
  unfold writeFragmentedFromFile writeFragmented
  simp only [chunks_openChunker hcut ha, ok_bind, map_map,
    if_neg (chunkBoundaries_head?_ne hcut options h)]
  rfl

end

/-- **Cutting a file through the chunker is cutting its bytes.** The chunks handed out are
the chunks of the whole buffer, so a write from a file that is not empty is the write of
its bytes. In every state on the way the undecided rest fits the headroom, all indices
are in bounds, and the chunker goes on to the end of the file. -/
theorem fileChunker_eq_chunkBoundaries (host : Host) (hcut : host.CutsFragments)
    (hahead : host.LooksAhead) (options : WriteOptions) (file : Bytes) :
    (openChunker options file.length).chunks host.cut file (file.length + 1)
        = .ok ((chunkBoundaries host options.cutSize file).map fun s => ⟨s.start, slice file s⟩) ∧
      (file ≠ [] → ∀ mode partition context store,
        writeFromFile host mode partition context options file store
          = writeContent host mode partition context options file store) ∧
      ∀ c, ChunkerReachable host.cut file (openChunker options file.length) c →
        c.InBounds ∧
          ∃ later, later <:+ chunkBoundaries host options.cutSize file ∧
            c.chunks host.cut file (file.length + 1)
              = .ok (later.map fun s => ⟨s.start, slice file s⟩) := by
  refine ⟨chunks_openChunker hcut hahead options file, ?_, ?_⟩
  · intro hne mode partition context store
    have hpos := length_pos_iff.mpr hne
    unfold writeFromFile writeContent
    rw [if_neg (by omega)]
    by_cases hsm : file.length ≤ fragmentSizeThreshold
    · rw [if_pos hsm, if_pos hsm]
    · rw [if_neg hsm, if_neg hsm]
      exact writeFragmentedFromFile_eq hcut hahead options mode partition context store (by omega)
  · intro c hr
    obtain ⟨later, hsu, hinv⟩ := hr.inv (chunkerInv_openChunker hcut hahead options file)
    have hc := (chunkBoundaries_tiles hcut options file).1.length_le
    have hsh := hsu.length_le
    refine ⟨⟨hinv.holds.decided, hinv.holds.carried, hinv.holds.inside, hinv.ready⟩, later, hsu, ?_⟩
    exact hinv.chunks (by omega)

theorem plainHost_looksAhead : plainHost.LooksAhead := by
  intro bytes h
  simp only [plainHost, length_take]
  omega

/-- Five bytes, cut two at a time. -/
theorem fileChunker_eq_chunkBoundaries_fixed :
    (openChunker { WriteOptions.default with fixedSizeChunk := 2 } 5).chunks plainHost.cut
        [1, 2, 3, 4, 5] 6
      = .ok [⟨0, [1, 2]⟩, ⟨2, [3, 4]⟩, ⟨4, [5]⟩] :=
  (fileChunker_eq_chunkBoundaries plainHost plainHost_cutsFragments plainHost_looksAhead
    { WriteOptions.default with fixedSizeChunk := 2 } [1, 2, 3, 4, 5]).1

/-- An empty file is written as the zero hash, where a write of no bytes is refused. -/
theorem writeFromFile_ne_writeContent_empty :
    writeFromFile plainHost .noCompression 0 0 .default [] (fun _ _ => none)
        = .ok (⟨0#256, 0⟩, fun _ _ => none) ∧
      writeContent plainHost .noCompression 0 0 .default [] (fun _ _ => none)
        = .error (.internal "zero size or zero hash buffers can not be stored") := ⟨rfl, rfl⟩

end Lore.Storage
