import Lore.Storage.FileMatch
import Lore.Storage.RoundTrip

/-!
# FileMatchSpec — what the walk over the chunks compares

Windows and reads in flight only ever hold bytes of the file, so the walk comes down
to the ranges it compares and the hashes it compares them with. Below a list that
the store holds these are the windows of the entries that are no wider than a
fragment: leaves, and lists that cover that little.
-/

namespace Lore.Storage

open Lore.Lib List

/-! ## Windows -/

section Windows

variable {file : Bytes}

/-- The window holds bytes of the file. -/
structure HashWindow.Reads (file : Bytes) (window : HashWindow) : Prop where
  within : window.stop ≤ file.length
  data : window.data = Lib.slice file ⟨window.offset, window.stop⟩

/-- The read in flight will deliver a window of the file. -/
structure WindowRead.Reads (file : Bytes) (read : WindowRead) : Prop where
  within : read.offset ≤ file.length
  result : read.result = .ok (slice file
    ⟨read.offset, read.offset + min (file.length - read.offset) hashWindowSize⟩)

theorem startWindowRead_ok {offset} (h : offset ≤ file.length) :
    ∃ read, startWindowRead file offset = .ok read ∧ read.offset = offset ∧ read.Reads file := by
  have hlen : windowLength file.length offset
      = .ok (min (file.length - offset) hashWindowSize) := by
    rw [windowLength, subU64_ok h]
    rfl
  refine ⟨⟨.ok (slice file ⟨offset, offset + min (file.length - offset) hashWindowSize⟩), offset⟩,
    ?_, rfl, h, rfl⟩
  rw [startWindowRead, hlen, ok_bind, if_pos (by omega)]

theorem readAt_ok {start pending} (h : start ≤ file.length) (hp : ∀ r ∈ pending, r.Reads file) :
    ∃ read, readAt file start pending = .ok read ∧ read.offset = start ∧ read.Reads file := by
  cases pending with
  | none => exact startWindowRead_ok h
  | some read =>
    unfold readAt
    by_cases hsa : read.offset = start
    · exact ⟨read, if_pos hsa, hsa, hp read rfl⟩
    · simp only [if_neg hsa]
      exact startWindowRead_ok h

theorem nextWindowOffset_le {windowEnd offset chunks}
    (h : nextWindowOffset windowEnd file.length chunks = some offset) : offset ≤ file.length := by
  induction chunks with
  | nil => cases h
  | cons chunk later ih =>
    unfold nextWindowOffset at h
    cases hend : chunkEnd chunk later file.length with
    | none =>
      rw [hend] at h
      cases h
    | some stop =>
      rw [hend] at h
      simp only at h
      split_ifs at h with hh hr
      · exact ih h
      · cases h
        simp only [chunkEnd] at hend
        split_ifs at hend with ha
        cases hend
        omega

/-- What the walk carries from chunk to chunk: a window and a read of the file. -/
def WindowsRead (file : Bytes) (window : Option HashWindow) (pending : Option WindowRead) : Prop :=
  (∀ w ∈ window, w.Reads file) ∧ ∀ r ∈ pending, r.Reads file

theorem windowsRead_none (file : Bytes) : WindowsRead file none none := by
  constructor <;> intro _ h <;> cases h

theorem HashWindow.Reads.slice {window : HashWindow} (h : window.Reads file) {start stop : Nat}
    (hle : start ≤ stop) (hh : window.holds start stop = true) :
    window.slice start stop = .ok (Lib.slice file ⟨start, stop⟩) := by
  simp only [HashWindow.holds, Bool.and_eq_true, decide_eq_true_eq] at hh
  obtain ⟨hlo, hhi⟩ := hh
  have hst : window.stop = window.offset + window.data.length := rfl
  rw [HashWindow.slice, subU64_ok hlo, ok_bind, subU64_ok hle, ok_bind, if_pos (by omega)]
  have hin : (⟨start - window.offset, start - window.offset + (stop - start)⟩ : Span).stop
      ≤ (⟨window.offset, window.stop⟩ : Span).length := by
    simp only [Span.length]
    omega
  rw [h.data, slice_slice file hin]
  rw [Nat.add_sub_cancel' hlo,
    show window.offset + (start - window.offset + (stop - start)) = stop by omega]

theorem readResident_ok (chunks : List FragmentReference) {start stop pending} (hle : start ≤ stop)
    (hf : stop ≤ file.length) (hsm : stop - start ≤ fragmentSizeThreshold)
    (hp : ∀ r ∈ pending, r.Reads file) :
    ∃ resident pending', readResident file chunks start pending = .ok (resident, pending') ∧
      resident.Reads file ∧ resident.holds start stop = true ∧
      ∀ r ∈ pending', r.Reads file := by
  obtain ⟨read, hread, ho, hrea⟩ := readAt_ok (show start ≤ file.length by omega) hp
  have hwT : hashWindowSize = 2 * fragmentSizeThreshold := rfl
  generalize hd : slice file ⟨start, start + min (file.length - start) hashWindowSize⟩ = data
  have hlen : data.length = min (file.length - start) hashWindowSize := by
    rw [← hd]
    simp [Span.length]
  have hsto : (⟨start, data⟩ : HashWindow).stop = start + data.length := rfl
  have hre : (⟨start, data⟩ : HashWindow).Reads file := by
    refine ⟨by omega, ?_⟩
    rw [hsto, hlen, hd]
  have hh : (⟨start, data⟩ : HashWindow).holds start stop = true := by
    simp only [HashWindow.holds, Bool.and_eq_true, decide_eq_true_eq]
    omega
  have hres : read.result = .ok data := by rw [hrea.result, ho, hd]
  rw [readResident, hread, ok_bind, hres, ok_bind]
  simp only
  cases hn : nextWindowOffset (⟨start, data⟩ : HashWindow).stop file.length chunks with
  | none => exact ⟨_, none, rfl, hre, hh, by simp⟩
  | some offset =>
    obtain ⟨next, hst, -, hnR⟩ := startWindowRead_ok (nextWindowOffset_le hn)
    simp only [hst]
    refine ⟨_, some next, rfl, hre, hh, ?_⟩
    intro r hr
    cases hr
    exact hnR

theorem residentWindow_ok (chunks : List FragmentReference) {start stop : Nat}
    {window : Option HashWindow} {pending : Option WindowRead} (hle : start ≤ stop)
    (hfi : stop ≤ file.length) (hsm : stop - start ≤ fragmentSizeThreshold)
    (h : WindowsRead file window pending) :
    ∃ resident pending', residentWindow file chunks start stop window pending
        = .ok (resident, pending') ∧
      WindowsRead file (some resident) pending' ∧
      resident.slice start stop = .ok (slice file ⟨start, stop⟩) := by
  obtain ⟨hwi, hp⟩ := h
  obtain ⟨fresh, pending', hr, hf, hh, hn⟩ := readResident_ok chunks hle hfi hsm hp
  have hnew : WindowsRead file (some fresh) pending' := ⟨fun w hw => by cases hw; exact hf, hn⟩
  cases window with
  | none => exact ⟨fresh, pending', hr, hnew, hf.slice hle hh⟩
  | some resident =>
    unfold residentWindow
    by_cases hk : resident.holds start stop = true
    · refine ⟨resident, pending, if_pos hk, ⟨hwi, hp⟩, ?_⟩
      exact (hwi resident rfl).slice hle hk
    · exact ⟨fresh, pending', by simp only [if_neg hk, hr], hnew,
        hf.slice hle hh⟩

end Windows

/-! ## One chunk -/

section Walk

variable {host : Host} {store : ContentStore} {partition : Partition} {context : Context}
  {file : Bytes} {current : FragmentReference} {later sub : List FragmentReference} {fuel : Nat}
  {window : Option HashWindow} {pending : Option WindowRead}

theorem loadFragment_noDecompress {address fragment payload} (hz : isZero address.hash = false)
    (hs : store partition address = some (fragment, payload))
    (hc : checkPayloadSizes fragment payload.length = .ok ()) :
    loadFragment host store partition address ReadOptions.default.noDecompress
      = .ok (fragment, payload) := by
  simp [loadFragment, hz, hs, hc, ReadOptions.noDecompress, Except.map]

theorem HoldsList.loadRaw {hash references size}
    (h : HoldsList host store partition context hash references size) :
    ∃ f, loadFragment host store partition ⟨hash, context⟩ ReadOptions.default.noDecompress
        = .ok (f, listBytes references) ∧
      f.isFragmented = true ∧ f.sizeContent.toNat = size := by
  obtain ⟨f, hs, hf, -, hsi, hc⟩ := h.stored
  exact ⟨f, loadFragment_noDecompress h.hash_ne hs hc, hf, hsi⟩

theorem HoldsLeaf.loadRaw {hash bytes} (h : HoldsLeaf host store partition context hash bytes) :
    ∃ f payload, loadFragment host store partition ⟨hash, context⟩
        ReadOptions.default.noDecompress = .ok (f, payload) ∧
      f.isFragmented = false ∧ f.sizeContent.toNat = bytes.length := by
  obtain ⟨f, payload, _, hs, hf, hsi, he⟩ := h.stored
  exact ⟨f, payload, loadFragment_noDecompress h.hash_ne hs (expandPayload_ok he).1, hf, hsi⟩

theorem chunkEnd_eq (h : current.offsetContent.toNat ≤ nextOffset later file.length) :
    chunkEnd current later file.length = some (nextOffset later file.length) := by
  cases later <;> exact if_pos h

/-- **A chunk no wider than a fragment** is hashed, whatever windows the walk carries. -/
theorem compareChunks_hash (hw : WindowsRead file window pending)
    (hle : current.offsetContent.toNat ≤ nextOffset later file.length)
    (hf : nextOffset later file.length ≤ file.length)
    (hsm : nextOffset later file.length - current.offsetContent.toNat ≤ fragmentSizeThreshold) :
    ∃ window' pending', WindowsRead file window' pending' ∧
      compareChunks host store partition context file (fuel + 1) (current :: later) window pending
        = if host.hash (slice file ⟨current.offsetContent.toNat, nextOffset later file.length⟩)
            = current.hash
          then compareChunks host store partition context file fuel later window' pending'
          else .ok .differs := by
  obtain ⟨resident, pending', hr, hre, hsl⟩ := residentWindow_ok (current :: later) hle hf hsm hw
  refine ⟨some resident, pending', hre, ?_⟩
  rw [compareChunks]
  simp only [chunkEnd_eq hle, hr, ok_bind, hsl]
  rw [if_neg (by omega), if_neg (by omega), ite_not]

theorem compareChunks_list (hle : current.offsetContent.toNat ≤ nextOffset later file.length)
    (hw : fragmentSizeThreshold < nextOffset later file.length - current.offsetContent.toNat)
    {size} (hsub : HoldsList host store partition context current.hash sub size) :
    compareChunks host store partition context file (fuel + 1) (current :: later) window pending
      = compareChunks host store partition context file fuel (sub ++ later) window pending := by
  obtain ⟨f, hl, hf, -⟩ := hsub.loadRaw
  rw [compareChunks]
  simp only [chunkEnd_eq hle, hl, hf, Bool.not_true, Bool.false_eq_true, if_false,
    asReferences_listBytes]
  rw [if_pos (by omega)]

end Walk

/-! ## A level of the tree -/

section Settles

variable (host : Host) (store : ContentStore) (partition : Partition) (context : Context)
  (file : Bytes)

/-- The walk over `list`, whatever follows it from `levelEnd` on, goes on with what follows
where `P` holds, and stops with a difference where it does not. -/
def Settles (list : List FragmentReference) (levelEnd : Nat) (P : Prop) : Prop :=
  ∃ steps, ∀ fuel later window pending, WindowsRead file window pending →
    nextOffset later file.length = levelEnd →
    ∃ window' pending', WindowsRead file window' pending' ∧
      (P → compareChunks host store partition context file (steps + fuel) (list ++ later) window
          pending
        = compareChunks host store partition context file fuel later window' pending') ∧
      (¬ P → compareChunks host store partition context file (steps + fuel) (list ++ later) window
          pending = .ok .differs)

/-- The hash and the range of each comparison below a list: the entries no wider than a
fragment, here and below the wider ones. -/
inductive Compared : List FragmentReference → Nat → Hash → Span → Prop where
  | here {list : List FragmentReference} {levelEnd : Nat} {r : FragmentReference} {w : Span} :
      (r, w) ∈ list.zip (entryWindows list levelEnd) → w.length ≤ fragmentSizeThreshold →
      Compared list levelEnd r.hash w
  | deeper {list sub : List FragmentReference} {levelEnd : Nat} {r : FragmentReference}
      {w s : Span} {hash : Hash} :
      (r, w) ∈ list.zip (entryWindows list levelEnd) → fragmentSizeThreshold < w.length →
      HoldsList host store partition context r.hash sub w.length →
      Compared sub w.stop hash s → Compared list levelEnd hash s

/-- The lists the walk meets below a list, with the range of content they stand for. -/
inductive MetList : List FragmentReference → Nat → Span → List FragmentReference → Prop where
  | here {list sub : List FragmentReference} {levelEnd : Nat} {r : FragmentReference} {w : Span} :
      (r, w) ∈ list.zip (entryWindows list levelEnd) →
      HoldsList host store partition context r.hash sub w.length → MetList list levelEnd w sub
  | deeper {list mid sub : List FragmentReference} {levelEnd : Nat} {r : FragmentReference}
      {w s : Span} :
      (r, w) ∈ list.zip (entryWindows list levelEnd) → fragmentSizeThreshold < w.length →
      HoldsList host store partition context r.hash mid w.length →
      MetList mid w.stop s sub → MetList list levelEnd s sub

/-- Every comparison below the list finds the hash it asks for. -/
def AllEqual (list : List FragmentReference) (levelEnd : Nat) : Prop :=
  ∀ hash s, Compared host store partition context list levelEnd hash s →
    host.hash (slice file s) = hash

end Settles

section

variable {host : Host} {store : ContentStore} {partition : Partition} {context : Context}
  {file content : Bytes} {list sub : List FragmentReference} {levelEnd : Nat}
  {r : FragmentReference} {P Q : Prop}

theorem Settles.congr (h : Settles host store partition context file list levelEnd P)
    (hiff : P ↔ Q) : Settles host store partition context file list levelEnd Q := by
  rw [← propext hiff]
  exact h

theorem settles_nil : Settles host store partition context file [] levelEnd True := by
  refine ⟨0, fun fuel later window pending hw _ => ⟨window, pending, hw, ?_, ?_⟩⟩
  · intro _
    rw [Nat.zero_add, nil_append]
  · intro h
    exact absurd trivial h

theorem Settles.append (h : Settles host store partition context file sub (nextOffset list levelEnd) P)
    (hrest : Settles host store partition context file list levelEnd Q) :
    Settles host store partition context file (sub ++ list) levelEnd (P ∧ Q) := by
  obtain ⟨steps, h⟩ := h
  obtain ⟨more, hrest⟩ := hrest
  refine ⟨steps + more, fun fuel later window pending hw hl => ?_⟩
  obtain ⟨window₁, pending₁, hw₁, hgo₁, hstop₁⟩ := h (more + fuel) (list ++ later) window pending hw
    (by rw [nextOffset_append, hl])
  obtain ⟨window', pending', hw', hgo, hstop⟩ := hrest fuel later window₁ pending₁ hw₁ hl
  rw [Nat.add_assoc, append_assoc]
  refine ⟨window', pending', hw', fun ⟨hP, hQ⟩ => by rw [hgo₁ hP, hgo hQ], fun hnot => ?_⟩
  by_cases hP : P
  · rw [hgo₁ hP, hstop fun hQ => hnot ⟨hP, hQ⟩]
  · exact hstop₁ hP

theorem settles_hash (hle : r.offsetContent.toNat ≤ levelEnd) (hf : levelEnd ≤ file.length)
    (hsm : levelEnd - r.offsetContent.toNat ≤ fragmentSizeThreshold) :
    Settles host store partition context file [r] levelEnd
      (host.hash (slice file ⟨r.offsetContent.toNat, levelEnd⟩) = r.hash) := by
  refine ⟨1, fun fuel later window pending hw hl => ?_⟩
  subst hl
  obtain ⟨window', pending', hw', hst⟩ :=
    @compareChunks_hash host store partition context file r later fuel _ _ hw hle hf hsm
  rw [Nat.add_comm, singleton_append, hst]
  exact ⟨window', pending', hw', fun heq => if_pos heq, fun hne => if_neg hne⟩

theorem settles_list (hle : r.offsetContent.toNat ≤ levelEnd)
    (hwi : fragmentSizeThreshold < levelEnd - r.offsetContent.toNat) {size}
    (hsub : HoldsList host store partition context r.hash sub size)
    (hb : Settles host store partition context file sub levelEnd P) :
    Settles host store partition context file [r] levelEnd P := by
  obtain ⟨steps, hb⟩ := hb
  refine ⟨steps + 1, fun fuel later window pending hw hl => ?_⟩
  subst hl
  rw [Nat.add_right_comm, singleton_append, compareChunks_list hle hwi hsub]
  exact hb fuel later window pending hw rfl

/-! ## What is compared -/

theorem HoldsList.unique {hash xs ys m n} (hx : HoldsList host store partition context hash xs m)
    (hy : HoldsList host store partition context hash ys n) : xs = ys := by
  obtain ⟨f, hs, -⟩ := hx.stored
  obtain ⟨g, hs', -⟩ := hy.stored
  rw [hs] at hs'
  exact listBytes_injective (congrArg Prod.snd (Option.some.inj hs'))

theorem compared_cons {hash s} :
    Compared host store partition context (r :: list) levelEnd hash s ↔
      Compared host store partition context [r] (nextOffset list levelEnd) hash s ∨
        Compared host store partition context list levelEnd hash s := by
  have hmem : ∀ {x}, x ∈ (r :: list).zip (entryWindows (r :: list) levelEnd) ↔
      x ∈ [r].zip (entryWindows [r] (nextOffset list levelEnd)) ∨
        x ∈ list.zip (entryWindows list levelEnd) := mem_append (s := [_])
  constructor
  · intro h
    cases h with
    | here hin hsm => exact (hmem.mp hin).imp (.here · hsm) (.here · hsm)
    | deeper hin hw hsub hb =>
      exact (hmem.mp hin).imp (.deeper · hw hsub hb) (.deeper · hw hsub hb)
  · rintro (h | h) <;> cases h with
    | here hin hsm => exact .here (hmem.mpr (by simp only [hin, true_or, or_true])) hsm
    | deeper hin hw hsub hb =>
      exact .deeper (hmem.mpr (by simp only [hin, true_or, or_true])) hw hsub hb

theorem allEqual_nil : AllEqual host store partition context file [] levelEnd := by
  intro hash s h
  cases h with
  | here hmem | deeper hmem => cases hmem

theorem allEqual_hash (hsm : levelEnd - r.offsetContent.toNat ≤ fragmentSizeThreshold) :
    host.hash (slice file ⟨r.offsetContent.toNat, levelEnd⟩) = r.hash ↔
      AllEqual host store partition context file [r] levelEnd := by
  refine ⟨fun heq hash s h => ?_, fun h => h _ _ (.here (mem_cons_self ..) hsm)⟩
  cases h with
  | here hmem => cases mem_singleton.mp hmem; exact heq
  | deeper hmem hw => cases mem_singleton.mp hmem; exact absurd hsm (Nat.not_le.mpr hw)

theorem allEqual_list (hw : fragmentSizeThreshold < levelEnd - r.offsetContent.toNat)
    (hsub : HoldsList host store partition context r.hash sub (levelEnd - r.offsetContent.toNat)) :
    AllEqual host store partition context file sub levelEnd ↔
      AllEqual host store partition context file [r] levelEnd := by
  refine ⟨fun hall hash s h => ?_, fun h hash s hs => h _ _ (.deeper (mem_cons_self ..) hw hsub hs)⟩
  cases h with
  | here hmem hsm => cases mem_singleton.mp hmem; exact absurd hsm (Nat.not_le.mpr hw)
  | deeper hmem _ hsub' h =>
    cases mem_singleton.mp hmem
    exact hall hash s (hsub'.unique hsub ▸ h)

theorem settles_of_entries {lo} (h : Tiles lo (entryWindows list levelEnd) levelEnd)
    (hf : levelEnd ≤ file.length)
    (hentry : ∀ r stop, (r, ⟨r.offsetContent.toNat, stop⟩) ∈ list.zip (entryWindows list levelEnd) →
      r.offsetContent.toNat ≤ stop → stop ≤ file.length →
      Settles host store partition context file [r] stop
        (AllEqual host store partition context file [r] stop)) :
    Settles host store partition context file list levelEnd
      (AllEqual host store partition context file list levelEnd) := by
  induction list generalizing lo with
  | nil => exact settles_nil.congr (iff_of_true trivial allEqual_nil)
  | cons r list ih =>
    obtain ⟨-, hlt, ht⟩ := h
    refine ((hentry r _ (mem_cons_self ..) (Nat.le_of_lt hlt) (Nat.le_trans ht.le hf)).append
      (ih ht fun r stop hmem => hentry r stop (mem_cons_of_mem _ hmem))).congr ?_
    exact ⟨fun hall hash s hs => (compared_cons.mp hs).elim (hall.1 hash s) (hall.2 hash s),
      fun hall => ⟨fun hash s hs => hall hash s (compared_cons.mpr (.inl hs)),
        fun hash s hs => hall hash s (compared_cons.mpr (.inr hs))⟩⟩

/-- **The walk over a held tree** comes down to its comparisons: it goes on when every one
of them finds its hash, and stops with a difference otherwise. -/
theorem Holds.settles {height list levelEnd}
    (h : Holds host store partition context content height list levelEnd)
    (hf : levelEnd ≤ file.length) : Settles host store partition context file list levelEnd
      (AllEqual host store partition context file list levelEnd) := by
  induction height generalizing list levelEnd with
  | zero =>
    refine settles_of_entries h.valid.tiles hf fun r stop hmem hle hend => ?_
    have hsm := (h.2 _ hmem).1
    exact (settles_hash hle hend hsm).congr (allEqual_hash hsm)
  | succ height ih =>
    refine settles_of_entries h.valid.tiles hf fun r stop hmem hle hend => ?_
    obtain ⟨sub, hsub, -, hb⟩ := h.2 _ hmem
    by_cases hsm : stop - r.offsetContent.toNat ≤ fragmentSizeThreshold
    · exact (settles_hash hle hend hsm).congr (allEqual_hash hsm)
    · have hw := Nat.lt_of_not_le hsm
      exact (settles_list hle hw hsub (ih hb hend)).congr (allEqual_list hw hsub)

/-- A range the walk compares is recorded under the hash of its content, or is that of a
list the walk meets. -/
theorem Compared.recorded {hash s}
    (h : Compared host store partition context list levelEnd hash s) :
    ∀ height, Holds host store partition context content height list levelEnd →
      s.length ≤ fragmentSizeThreshold ∧
        (hash = host.hash (slice content s) ∨
          ∃ sub, MetList host store partition context list levelEnd s sub ∧
            hash = host.hash (listBytes sub)) := by
  induction h with
  | here hmem hsm =>
    intro height hh
    refine ⟨hsm, ?_⟩
    cases height with
    | zero => exact .inl (hh.2 _ hmem).2.named
    | succ height =>
      obtain ⟨sub, hsub, -⟩ := hh.2 _ hmem
      exact .inr ⟨sub, .here hmem hsub, hsub.named⟩
  | deeper hmem hw hsub _ ih =>
    intro height hh
    cases height with
    | zero =>
      have hsm := (hh.2 _ hmem).1
      simp only at hsm
      omega
    | succ height =>
      obtain ⟨sub', hsub', -, hb⟩ := hh.2 _ hmem
      rw [hsub'.unique hsub] at hb
      obtain ⟨hsm, hrec⟩ := ih height hb
      refine ⟨hsm, ?_⟩
      rcases hrec with hrec | ⟨sub, hmet, hrec⟩
      · exact .inl hrec
      · exact .inr ⟨sub, .deeper hmem hw hsub hmet, hrec⟩

theorem MetList.compared {s} (h : MetList host store partition context list levelEnd s sub)
    (hsm : s.length ≤ fragmentSizeThreshold) :
    Compared host store partition context list levelEnd (host.hash (listBytes sub)) s := by
  induction h with
  | here hmem hsub =>
    rw [← hsub.named]
    exact .here hmem hsm
  | deeper hmem hw hsub _ ih => exact .deeper hmem hw hsub (ih hsm)

theorem exists_mem_zip_entryWindows {w} (h : w ∈ entryWindows list levelEnd) :
    ∃ r, (r, w) ∈ list.zip (entryWindows list levelEnd) := by
  obtain ⟨i, hi⟩ := mem_iff_getElem?.mp h
  have hr := hi
  rw [getElem?_entryWindows] at hr
  obtain ⟨r, hr, -⟩ := Option.map_eq_some_iff.mp hr
  exact ⟨r, mem_zip_entryWindows hr hi⟩

theorem ValidLevel.slice_eq (h : ValidLevel list levelEnd)
    (heq : ∀ r w, (r, w) ∈ list.zip (entryWindows list levelEnd) → slice file w = slice content w) :
    slice file ⟨nextOffset list levelEnd, levelEnd⟩
      = slice content ⟨nextOffset list levelEnd, levelEnd⟩ := by
  rw [← h.tiles.flatten_slices, ← h.tiles.flatten_slices]
  congr 1
  apply map_congr_left
  intro w hw
  obtain ⟨r, hmem⟩ := exists_mem_zip_entryWindows hw
  exact heq r w hmem

theorem Holds.slice_eq {height list levelEnd}
    (h : Holds host store partition context content height list levelEnd)
    (heq : ∀ hash s, Compared host store partition context list levelEnd hash s →
      slice file s = slice content s) :
    slice file ⟨nextOffset list levelEnd, levelEnd⟩
      = slice content ⟨nextOffset list levelEnd, levelEnd⟩ := by
  induction height generalizing list levelEnd with
  | zero => exact h.valid.slice_eq fun r w hmem => heq _ _ (.here hmem (h.2 _ hmem).1)
  | succ height ih =>
    apply h.valid.slice_eq
    intro r w hmem
    obtain ⟨sub, hsub, hst, hb⟩ := h.2 _ hmem
    by_cases hsm : w.length ≤ fragmentSizeThreshold
    · exact heq _ _ (.here hmem hsm)
    · have hall := ih hb fun hash s hs =>
        heq hash s (.deeper hmem (Nat.lt_of_not_le hsm) hsub hs)
      rw [hst] at hall
      exact hall

end

end Lore.Storage
