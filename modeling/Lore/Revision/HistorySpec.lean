import Lore.Lib.Producer
import Lore.Revision.History

/-!
# HistorySpec — what the parts of the walk to a branch point do

A line of the walk holds the newest revisions of a history line. What it can still come to
hold is its `reach`: the whole history line while it can go on, what it holds once it cannot.
`meet` passes a revision only if the reach of the other line does not have it, also where the
last revision of a line was never numbered.
-/

namespace Lore.Revision

open Lore.Lib Lore.Storage List

/-- The revisions along the self parents from `latest`, newest first. -/
def historyLine (states : Hash → StateData) (latest : Hash) : List Hash :=
  follow (fun h => (states h).parent) 0 ((states latest).revisionNumber + 1) latest

/-- A walk along self parents. -/
abbrev ParentWalk (states : Hash → StateData) : Hash → List Hash → Hash → Prop :=
  Walk (fun h => (states h).parent) 0

/-- Revision numbers decrease along self parents. -/
abbrev NumbersDescend (states : Hash → StateData) : Prop :=
  Descends (fun h => (states h).parent) 0 fun h => (states h).revisionNumber

theorem walk_historyLine {states : Hash → StateData} (hd : NumbersDescend states)
    (latest : Hash) : ParentWalk states latest (historyLine states latest) 0 :=
  walk_follow hd (Nat.lt_succ_self _)

/-! ## Meeting -/

/-- A line as `meet` sees it: the beginning of `reach`, numbered, except perhaps the last
revision of `reach`, whose number is unknown. -/
structure Shows (number : Hash → Nat) (reach : List Hash) (view : List (Nat × Hash)) : Prop where
  begins : view.map Prod.snd <+: reach
  descends : reach.Pairwise fun x y => number y < number x
  numbered : ∀ i n h, view[i]? = some (n, h) → n = number h ∨ n = 0 ∧ reach.length = i + 1

/-- The revisions passed on each line are not in the reach of the other. -/
structure PassedApart (leftReach rightReach : List Hash) (passed : Nat × Nat) : Prop where
  left : ∀ h ∈ leftReach.take passed.1, h ∉ rightReach
  right : ∀ h ∈ rightReach.take passed.2, h ∉ leftReach

namespace Shows

variable {number : Hash → Nat} {reach otherReach : List Hash} {view other : List (Nat × Hash)}

theorem getElem?_reach (h : Shows number reach view) {i n : Nat} {x : Hash}
    (hx : view[i]? = some (n, x)) : reach[i]? = some x := by
  obtain ⟨rest, hr⟩ := h.begins
  obtain ⟨hi, _⟩ := List.getElem?_eq_some_iff.mp hx
  rw [← hr, getElem?_append_left (by rwa [length_map]), getElem?_map, hx]
  rfl

section

variable (h : Shows number reach view) (h' : Shows number otherReach other) {i j n m : Nat}
  {x y : Hash} (hx : view[i]? = some (n, x)) (hy : other[j]? = some (m, y)) (hne : x ≠ y)
include h h' hx hy hne

/-- The revision of a line whose number is not below that of the other line's is not in the
other line's reach, if they are not the same revision. -/
theorem not_mem_reach (hle : m ≤ n) (hp : ∀ z ∈ otherReach.take j, z ∉ reach) : x ∉ otherReach := by
  intro hmem
  obtain ⟨k, hk⟩ := mem_iff_getElem?.mp hmem
  have hxr : x ∈ reach := mem_of_getElem? (h.getElem?_reach hx)
  have hyr := h'.getElem?_reach hy
  rcases Nat.lt_trichotomy k j with hlt | rfl | hgt
  · -- the other line passed it
    refine hp x (mem_of_getElem? (i := k) ?_) hxr
    rw [getElem?_take, if_pos hlt, hk]
  · rw [hk] at hyr
    exact hne (Option.some.inj hyr)
  · -- it is below the other line's revision, so that one is numbered
    obtain ⟨hjlt, hj⟩ := List.getElem?_eq_some_iff.mp hyr
    obtain ⟨hklt, hkg⟩ := List.getElem?_eq_some_iff.mp hk
    have hb := pairwise_iff_getElem.mp h'.descends j k hjlt hklt hgt
    rw [hj, hkg] at hb
    have hm := (h'.numbered j m y hy).resolve_right fun hl => by omega
    rcases h.numbered i n x hx with hn | ⟨hn, _⟩ <;> omega

theorem pass (ha : ∀ z ∈ reach.take i, z ∉ otherReach) (hp : ∀ z ∈ otherReach.take j, z ∉ reach) :
    ∀ z ∈ reach.take (if n ≥ m then i + 1 else i), z ∉ otherReach := by
  intro z hz
  split at hz
  case isFalse => exact ha z hz
  case isTrue hle =>
    rw [take_add_one, h.getElem?_reach hx, mem_append] at hz
    rcases hz with hz | hz
    · exact ha z hz
    · rw [Option.toList_some, mem_singleton] at hz
      subst hz
      exact h.not_mem_reach h' hx hy hne hle hp

end

end Shows

/-- Where `meet` stops: at a revision both lines hold, or at the end of one. -/
def MeetEnds (left right : List (Nat × Hash)) (after : Nat × Nat) : Option (Nat × Nat) → Prop
  | some shared => shared = after
      ∧ ∃ n m x, left[after.1]? = some (n, x) ∧ right[after.2]? = some (m, x)
  | none => left.length ≤ after.1 ∨ right.length ≤ after.2

variable {leftReach rightReach : List Hash} {passed : Nat × Nat}

section

variable {number : Hash → Nat} {left right} (hleft : Shows number leftReach left)
  (hright : Shows number rightReach right)
include hleft hright

/-- What `meet` leaves passed is apart; it stops at a revision both lines hold, or at the end
of one. -/
theorem meetFrom_spec {fuel} (hf : left.length - passed.1 + (right.length - passed.2) < fuel)
    (h : PassedApart leftReach rightReach passed) {shared after}
    (hm : meetFrom left right fuel passed = (shared, after)) :
    PassedApart leftReach rightReach after ∧ MeetEnds left right after shared := by
  induction fuel generalizing passed with
  | zero => exact absurd hf (Nat.not_lt_zero _)
  | succ fuel ih =>
    rw [meetFrom] at hm
    cases hl : left[passed.1]? with
    | none =>
      rw [hl] at hm
      cases hm
      exact ⟨h, .inl (getElem?_eq_none_iff.mp hl)⟩
    | some l =>
      cases hr : right[passed.2]? with
      | none =>
        rw [hl, hr] at hm
        cases hm
        exact ⟨h, .inr (getElem?_eq_none_iff.mp hr)⟩
      | some r =>
        obtain ⟨n, x⟩ := l
        obtain ⟨m, y⟩ := r
        rw [hl, hr] at hm
        dsimp only at hm
        by_cases heq : x = y
        · subst heq
          rw [if_pos rfl] at hm
          cases hm
          exact ⟨h, rfl, n, m, x, hl, hr⟩
        · rw [if_neg heq] at hm
          have hlt := (List.getElem?_eq_some_iff.mp hl).1
          have hrt := (List.getElem?_eq_some_iff.mp hr).1
          refine ih ?_ ?_ hm
          · split <;> split <;> omega
          · exact ⟨hleft.pass hright hl hr heq h.left h.right,
              hright.pass hleft hr hl (Ne.symm heq) h.right h.left⟩

theorem meet_spec (h : PassedApart leftReach rightReach passed)
    {shared after} (hm : meet left right passed = (shared, after)) :
    PassedApart leftReach rightReach after ∧ MeetEnds left right after shared :=
  meetFrom_spec hleft hright (by omega) h hm

end

theorem PassedApart.mono {left right} (h : PassedApart leftReach rightReach passed)
    (hleft : left <+: leftReach) (hright : right <+: rightReach) :
    PassedApart left right passed := by
  obtain ⟨leftRest, rfl⟩ := hleft
  obtain ⟨rightRest, rfl⟩ := hright
  constructor
  · intro x hx hmem
    refine h.left x ?_ (mem_append_left _ hmem)
    rw [take_append]
    exact mem_append_left _ hx
  · intro x hx hmem
    refine h.right x ?_ (mem_append_left _ hmem)
    rw [take_append]
    exact mem_append_left _ hx

/-! ## Lines -/

/-- Revisions with their numbers. -/
def numberedAs (states : Hash → StateData) (hs : List Hash) : List (Nat × Hash) :=
  hs.map fun h => ((states h).revisionNumber, h)

/-- The line holds the newest revisions of the history line of `latest`. -/
inductive OnLine (states : Hash → StateData) (missing : Hash → Prop) (latest : Hash)
    (line : Line) : Prop where
  /-- Each is numbered, and the cursor is the next one. -/
  | walked (hs : List Hash) (hrevisions : line.revisions = numberedAs states hs)
      (hwalk : ParentWalk states latest hs line.cursor) (hstep : line.step = .store)
  /-- The last, where the cursor is, the store lacks: it is asked for, or the line stopped. -/
  | lacks (hs : List Hash) (hrevisions : line.revisions = numberedAs states hs ++ [(0, line.cursor)])
      (hwalk : ParentWalk states latest hs line.cursor) (hcursor : line.cursor ≠ 0)
      (hstep : line.step ≠ .store)
  /-- The last is one the remote answered it does not hold, which ended the line. -/
  | ended (hs : List Hash) (last : Hash)
      (hrevisions : line.revisions = numberedAs states hs ++ [(0, last)])
      (hwalk : ParentWalk states latest hs last) (hlast : last ≠ 0) (hmissing : missing last)
      (hstep : line.step = .store) (hcursor : line.cursor = 0)

/-- A line whose revisions are all numbered, with the cursor at the next one. -/
def Walked (states : Hash → StateData) (latest : Hash) (line : Line) : Prop :=
  ∃ hs, line.revisions = numberedAs states hs ∧ ParentWalk states latest hs line.cursor
    ∧ line.step = .store

/-- What the line can come to hold. -/
def Line.reach (states : Hash → StateData) (latest : Hash) (line : Line) : List Hash :=
  if line.asks || line.advances then historyLine states latest else line.history

/-- What the store and the remote answer is so: a state is the revision's own, and a page
holds a run of self parents from the revision it was asked for, each with its state. -/
structure Honest (states : Hash → StateData) (outside : Outside) : Prop where
  store : ∀ h state, outside.store h = .state state → state = states h
  page : ∀ h page, outside.revisionList h = .ok page →
    ∃ above listed, page.items = above ++ listed ∧ (∀ item ∈ above, item.signature ≠ h)
      ∧ listed ≠ []
      ∧ ParentWalk states h (listed.map (·.signature)) page.nextRevision
      ∧ ∀ item ∈ listed, item.state = some (states item.signature)

/-- The store and the remote together hold the revisions, and no request fails. -/
structure Holds (outside : Outside) (hs : List Hash) : Prop where
  reached : outside.reached = .ok ()
  joined : outside.joined = true
  held : ∀ h ∈ hs, (∃ state, outside.store h = .state state)
    ∨ outside.store h = .lacks ∧ ∃ page, outside.revisionList h = .ok page

theorem map_snd_numberedAs (states : Hash → StateData) (hs : List Hash) :
    (numberedAs states hs).map Prod.snd = hs := by
  rw [numberedAs, map_map]
  exact map_id hs

theorem isZero_iff {h} : isZero h = true ↔ h = 0 := beq_iff_eq

section

variable {states : Hash → StateData} {latest : Hash} {line : Line}

theorem mem_historyLine (hd : NumbersDescend states) {cursor hs}
    (hw : ParentWalk states latest hs cursor) (hc : cursor ≠ 0) :
    cursor ∈ historyLine states latest := by
  obtain ⟨rest, hr, _⟩ := (hw.snoc hc).rest (walk_historyLine hd latest)
  rw [hr]
  exact mem_append_left _ (mem_append_right _ mem_cons_self)

theorem Walked.onLine (h : Walked states latest line) (missing : Hash → Prop) :
    OnLine states missing latest line := by
  obtain ⟨hs, hr, hw, hst⟩ := h
  exact .walked hs hr hw hst

theorem Walked.asks (h : Walked states latest line) : line.asks = false := by
  obtain ⟨hs, _, _, hst⟩ := h
  rw [Line.asks, hst]
  rfl

theorem Walked.advances (h : Walked states latest line) (hc : line.cursor ≠ 0) :
    line.advances = true := by
  obtain ⟨hs, _, _, hst⟩ := h
  rw [Line.advances, hst, Bool.and_eq_true, Bool.not_eq_true']
  exact ⟨rfl, beq_eq_false_iff_ne.mpr hc⟩

theorem Walked.reach (hd : NumbersDescend states) (h : Walked states latest line) :
    line.reach states latest = historyLine states latest := by
  unfold Line.reach
  split
  · rfl
  case isFalse hnot =>
    have hz : line.cursor = 0 := by
      by_contra hc
      refine hnot ?_
      rw [h.advances hc, Bool.or_true]
    obtain ⟨hs, hr, hw, _⟩ := h
    rw [hz] at hw
    obtain ⟨rest, hre, hnil⟩ := hw.rest (walk_historyLine hd latest)
    cases hnil with
    | nil => rw [Line.history, hr, map_snd_numberedAs, hre, append_nil]
    | cons hsto _ => exact absurd rfl hsto

end

namespace OnLine

variable {states : Hash → StateData} {missing : Hash → Prop} {latest : Hash} {line : Line}

variable {hs : List Hash}

theorem history_snoc {last} (hr : line.revisions = numberedAs states hs ++ [(0, last)]) :
    line.history = hs ++ [last] := by
  rw [Line.history, hr, map_append, map_snd_numberedAs]
  rfl

section

variable (hd : NumbersDescend states) (h : OnLine states missing latest line)
include hd h

omit hd in
theorem asked (ha : line.asks = true) :
    ∃ hs, line.revisions = numberedAs states hs ++ [(0, line.cursor)]
      ∧ ParentWalk states latest hs line.cursor ∧ line.cursor ≠ 0 := by
  have hre : line.step = .remote := beq_iff_eq.mp ha
  cases h with
  | walked _ _ _ hst | ended _ _ _ _ _ _ hst _ => cases hst.symm.trans hre
  | lacks hs hr hw hc _ => exact ⟨hs, hr, hw, hc⟩

theorem begins : line.history <+: historyLine states latest := by
  have hend := walk_historyLine hd latest
  cases h with
  | walked hs hr hw _ =>
    obtain ⟨rest, hre, _⟩ := hw.rest hend
    rw [Line.history, hr, map_snd_numberedAs, hre]
    exact prefix_append hs rest
  | lacks hs hr hw hc _ =>
    obtain ⟨rest, hre, _⟩ := (hw.snoc hc).rest hend
    rw [history_snoc hr, hre]
    exact prefix_append _ rest
  | ended hs last hr hw hl _ _ _ =>
    obtain ⟨rest, hre, _⟩ := (hw.snoc hl).rest hend
    rw [history_snoc hr, hre]
    exact prefix_append _ rest

theorem reach_prefix : line.reach states latest <+: historyLine states latest := by
  unfold Line.reach
  split
  · exact prefix_rfl
  · exact h.begins hd

theorem length_le : line.revisions.length ≤ (historyLine states latest).length := by
  have := (h.begins hd).length_le
  rwa [Line.history, length_map] at this

end

theorem reach_of_asks (h : line.asks = true) :
    line.reach states latest = historyLine states latest := by
  rw [Line.reach, h]
  rfl

theorem descending (hd : NumbersDescend states) (h : OnLine states missing latest line) :
    (line.reach states latest).Pairwise
      fun x y => (states y).revisionNumber < (states x).revisionNumber :=
  ((walk_historyLine hd latest).descending hd).sublist (h.reach_prefix hd).sublist

theorem getElem?_numberedAs {hs} {i n : Nat} {h : Hash}
    (hget : (numberedAs states hs)[i]? = some (n, h)) : n = (states h).revisionNumber := by
  rw [numberedAs, getElem?_map, Option.map_eq_some_iff] at hget
  obtain ⟨x, _, hx⟩ := hget
  cases hx
  rfl

theorem shows_unnumbered {hs} {last : Hash} (hre : line.reach states latest = line.history)
    (hde : (line.reach states latest).Pairwise
      fun x y => (states y).revisionNumber < (states x).revisionNumber)
    (hr : line.revisions = numberedAs states hs ++ [(0, last)]) (ha : line.asks = false) :
    Shows (fun h => (states h).revisionNumber) (line.reach states latest) line.numbered := by
  have hn : line.numbered = line.revisions := by
    rw [Line.numbered, ha]
    rfl
  refine ⟨?_, hde, fun i n h hget => ?_⟩
  · rw [hre, hn]
    exact prefix_rfl
  · rw [hn, hr] at hget
    by_cases hi : i < (numberedAs states hs).length
    · rw [getElem?_append_left hi] at hget
      exact .inl (getElem?_numberedAs hget)
    · -- the last one
      rw [getElem?_append_right (Nat.not_lt.mp hi)] at hget
      have hlt := (List.getElem?_eq_some_iff.mp hget).1
      rw [length_singleton] at hlt
      rw [show i - (numberedAs states hs).length = 0 by omega] at hget
      cases hget
      rw [hre, Line.history, hr, length_map, length_append, length_singleton]
      omega

theorem shows (hd : NumbersDescend states) (h : OnLine states missing latest line) :
    Shows (fun h => (states h).revisionNumber) (line.reach states latest) line.numbered := by
  have hb := h.begins hd
  have hde := h.descending hd
  cases h with
  | walked hs hr hw hst =>
    have hn : line.numbered = line.revisions := by
      rw [Line.numbered, Line.asks, hst]
      rfl
    refine ⟨?_, hde, fun i n h hget => ?_⟩
    · rw [Walked.reach hd ⟨hs, hr, hw, hst⟩, hn]
      exact hb
    · rw [hn, hr] at hget
      exact .inl (getElem?_numberedAs hget)
  | lacks hs hr hw hc hst =>
    cases ha : line.asks with
    | true =>
      have hn : line.numbered = numberedAs states hs := by
        rw [Line.numbered, if_pos ha, hr, dropLast_concat]
      refine ⟨?_, hde, fun i n h hget => ?_⟩
      · rw [hn, map_snd_numberedAs, reach_of_asks ha]
        rw [history_snoc hr] at hb
        exact (prefix_append hs [line.cursor]).trans hb
      · rw [hn] at hget
        exact .inl (getElem?_numberedAs hget)
    | false =>
      have hre : line.reach states latest = line.history := by
        rw [Line.reach, ha, Line.advances, beq_eq_false_iff_ne.mpr hst]
        rfl
      exact shows_unnumbered hre hde hr ha
  | ended hs last hr hw hl hm hst hc =>
    have ha : line.asks = false := by
      rw [Line.asks, hst]
      rfl
    have hre : line.reach states latest = line.history := by
      rw [Line.reach, ha, Line.advances, hc, hst]
      rfl
    exact shows_unnumbered hre hde hr ha

/-! ### Walking in the store -/

/-- A line walked in the store keeps to its history line, asks only for a revision the store
lacks, and counts what it adds; the walk fails only where the store does. -/
theorem walkStore (hd : NumbersDescend states) {outside : Outside} (hh : Honest states outside)
    {sure : Prop} (hold : sure → Holds outside (historyLine states latest)) {n : Nat}
    {line : Line} (h : Walked states latest line) :
    Ends (fun _ => ¬ sure) (fun line' => OnLine states missing latest line'
      ∧ (line'.asks = true ∧ outside.store line'.cursor = .lacks ∨ Walked states latest line')
      ∧ line'.revisions.length + line.added = line.revisions.length + line'.added
      ∧ line.added ≤ line'.added ∧ (0 < n → line.cursor ≠ 0 → line.added < line'.added))
      (line.walkStore outside.store n) := by
  induction n generalizing line with
  | zero =>
    exact .ok ⟨h.onLine missing, .inr h, rfl, Nat.le_refl _,
      fun hn => absurd hn (Nat.lt_irrefl 0)⟩
  | succ n ih =>
    rw [Line.walkStore]
    by_cases hz : isZero line.cursor = true
    · rw [if_pos hz]
      exact .ok ⟨h.onLine missing, .inr h, rfl, Nat.le_refl _,
        fun _ hc => absurd (isZero_iff.mp hz) hc⟩
    · rw [if_neg hz]
      obtain ⟨hs, hre, hw, hste⟩ := h
      have hc : line.cursor ≠ 0 := fun hc => hz (isZero_iff.mpr hc)
      cases hrea : outside.store line.cursor with
      | fails =>
        refine .error fun hsu => ?_
        rcases (hold hsu).held _ (mem_historyLine hd hw hc) with ⟨state, hst⟩ | ⟨hst, _⟩
        · cases hrea.symm.trans hst
        · cases hrea.symm.trans hst
      | lacks =>
        refine .ok ⟨.lacks hs ?_ hw hc nofun, .inl ⟨rfl, hrea⟩, ?_, Nat.le_succ _,
          fun _ _ => Nat.lt_succ_self _⟩
        · exact congrArg (· ++ [(0, line.cursor)]) hre
        · simp only [Line.push, length_append, length_singleton]
          omega
      | state state =>
        have hst := hh.store _ _ hrea
        subst hst
        have hwa : Walked states latest
            { line.push (states line.cursor).revisionNumber line.cursor with
              cursor := (states line.cursor).parent } := by
          refine ⟨hs ++ [line.cursor], ?_, hw.snoc hc, hste⟩
          simp [Line.push, hre, numberedAs]
        refine (ih hwa).mono ?_
        rintro line' ⟨ho, hg, hl, had, _⟩
        simp only [Line.push, length_append, length_singleton] at hl had
        exact ⟨ho, hg, by omega, by omega, fun _ _ => had⟩

/-! ### The remote's answers -/

theorem verify_eq {items} (h : ∀ item ∈ items, item.state = some (states item.signature)) :
    Line.verify items = .ok (numberedAs states (items.map (·.signature))) := by
  induction items with
  | nil => rfl
  | cons item items ih =>
    have hi := h item mem_cons_self
    have hr := ih fun item hmem => h item (mem_cons_of_mem _ hmem)
    simp only [Line.verify, verifiedNumber, hi, hr]
    rfl

theorem itemsFrom_eq {page : RevisionListResponse} {anchor : Hash}
    {above listed : List RevisionItem} (hi : page.items = above ++ listed)
    (ha : ∀ item ∈ above, item.signature ≠ anchor)
    (hf : ∀ item, listed.head? = some item → item.signature = anchor) :
    page.itemsFrom anchor = listed := by
  rw [RevisionListResponse.itemsFrom, hi, dropWhile_append_of_pos]
  · cases listed with
    | nil => rfl
    | cons item items =>
      simp [hf item rfl]
  · intro item hite
    exact decide_eq_true (ha item hite)

theorem take_page (hd : NumbersDescend states) {outside : Outside} (hh : Honest states outside)
    (hr : line.revisions = numberedAs states hs ++ [(0, line.cursor)])
    (hw : ParentWalk states latest hs line.cursor) {page : RevisionListResponse}
    (hp : outside.revisionList line.cursor = .ok page) :
    ∃ line', line.take (.ok page) = .ok line' ∧ Walked states latest line'
      ∧ line'.revisions.length + line.added = line.revisions.length + line'.added
      ∧ line.added ≤ line'.added := by
  obtain ⟨above, listed, hi, hab, hne, hl, hst⟩ := hh.page _ _ hp
  cases listed with
  | nil => exact absurd rfl hne
  | cons first older =>
    have ha : first.signature = line.cursor := hl.head_eq
    have hf : page.itemsFrom line.cursor = first :: older := by
      refine itemsFrom_eq hi hab fun item hite => ?_
      cases hite
      exact ha
    -- the page does not come back to the revision it was asked for
    have hm : page.nextRevision ≠ line.cursor := by
      intro heq
      have hc : page.nextRevision ≠ 0 := heq ▸ ha ▸ hl.ne_stop mem_cons_self
      have hlt := hl.rank_lt hd hc mem_cons_self
      dsimp only at hlt
      rw [ha, heq] at hlt
      exact Nat.lt_irrefl _ hlt
    refine ⟨{ line with
      revisions := numberedAs states (hs ++ first.signature :: older.map (·.signature))
      added := line.added + older.length
      cursor := page.nextRevision
      step := .store }, ?_, ⟨_, rfl, ?_, rfl⟩, ?_, Nat.le_add_right _ _⟩
    · have holder := verify_eq fun item hite =>
        hst item (mem_cons_of_mem first hite)
      have hle : (numberedAs states (older.map (·.signature))).length = older.length := by
        rw [numberedAs, length_map, length_map]
      simp only [Line.take, hf, Line.extend, verifiedNumber, hst first mem_cons_self,
        Option.map_some, holder, Except.map, Line.numberLast, hr,
        getLast?_concat, dropLast_concat, decide_eq_true hm, hle]
      rw [numberedAs, numberedAs, numberedAs, map_append, ha, append_assoc]
      rfl
    · exact hw.append (ha ▸ hl)
    · rw [hr]
      simp only [numberedAs, length_append, length_map, length_cons, length_nil]
      omega

section

variable (h : OnLine states missing latest line)
include h

/-- Whatever the remote answers, the line keeps to its history line and no longer asks; a
page numbers it again. -/
theorem take (hd : NumbersDescend states) {outside} (hh : Honest states outside)
    (hm : outside.revisionList line.cursor = .error .notFound → missing line.cursor)
    (hask : line.asks = true) :
    ∃ line', line.take (outside.revisionList line.cursor) = .ok line'
      ∧ OnLine states missing latest line' ∧ line'.asks = false
      ∧ line'.revisions.length + line.added = line.revisions.length + line'.added
      ∧ line.added ≤ line'.added
      ∧ ((∃ page, outside.revisionList line.cursor = .ok page) → Walked states latest line') := by
  obtain ⟨hs, hr, hw, hc⟩ := h.asked hask
  cases ha : outside.revisionList line.cursor with
  | ok page =>
    obtain ⟨taken, ht, hwa, hl, had⟩ := take_page hd hh hr hw ha
    exact ⟨taken, ht, hwa.onLine missing, hwa.asks, hl, had, fun _ => hwa⟩
  | error err =>
    cases err with
    | notFound =>
      exact ⟨_, rfl, .ended hs line.cursor hr hw hc (hm ha) rfl rfl, rfl, rfl, Nat.le_refl _, nofun⟩
    | noRemote | failed =>
      exact ⟨_, rfl, .lacks hs hr hw hc nofun, rfl, rfl, Nat.le_refl _, nofun⟩

theorem stopped (ha : line.asks = true) (failure : Option ProtocolError) :
    OnLine states missing latest { line with step := .stopped failure } := by
  obtain ⟨hs, hr, hw, hc⟩ := h.asked ha
  exact .lacks hs hr hw hc nofun

theorem recount (added : Nat) : OnLine states missing latest { line with added := added } := by
  cases h with
  | walked hs hr hw hst => exact .walked hs hr hw hst
  | lacks hs hr hw hc hst => exact .lacks hs hr hw hc hst
  | ended hs last hr hw hl hm hst hc =>
    exact .ended hs last hr hw hl hm hst hc

/-! ### The order of a line -/

omit h in
theorem firstOutOfOrder_eq_none {above rest}
    (h : (above :: rest.map Prod.fst).Pairwise fun x y => y < x) :
    firstOutOfOrder above rest = none := by
  induction rest generalizing above with
  | nil => rfl
  | cons revision rest ih =>
    obtain ⟨hf, hr⟩ := pairwise_cons.mp h
    rw [firstOutOfOrder, if_neg (Nat.not_le.mpr (hf _ mem_cons_self))]
    exact ih hr

theorem numbers_descend (hd : NumbersDescend states) :
    (line.revisions.map Prod.fst).Pairwise fun x y => y < x := by
  have hnu : ∀ {hs : List Hash} {last : Hash}, ParentWalk states latest hs last →
      ((numberedAs states hs).map Prod.fst).Pairwise fun x y => y < x := by
    intro hs last hw
    rw [numberedAs, map_map, pairwise_map]
    exact hw.descending hd
  have hsn : ∀ {hs : List Hash} {last : Hash}, ParentWalk states latest hs last → last ≠ 0 →
      ((numberedAs states hs ++ [(0, last)]).map Prod.fst).Pairwise fun x y => y < x := by
    intro hs last hw hl
    rw [map_append, pairwise_append]
    refine ⟨hnu hw, pairwise_singleton _ _, fun n hn m hm => ?_⟩
    rw [numberedAs, map_map, mem_map] at hn
    obtain ⟨x, hx, rfl⟩ := hn
    rw [map_singleton, mem_singleton] at hm
    subst hm
    exact Nat.lt_of_le_of_lt (Nat.zero_le _) (hw.rank_lt hd hl hx)
  cases h with
  | walked hs hr hw _ =>
    rw [hr]
    exact hnu hw
  | lacks hs hr hw hc _ =>
    rw [hr]
    exact hsn hw hc
  | ended hs last hr hw hl _ _ _ =>
    rw [hr]
    exact hsn hw hl

theorem checkRound (hd : NumbersDescend states) : line.checkRound = .ok () := by
  have hde := h.numbers_descend hd
  rw [Line.checkRound, outOfOrder]
  generalize max (line.revisions.length - line.added) 1 - 1 = start
  cases hdr : line.revisions.drop start with
  | nil => rfl
  | cons revision rest =>
    have hr : ((revision :: rest).map Prod.fst).Pairwise fun x y => y < x := by
      rw [← hdr, map_drop]
      exact hde.drop
    dsimp only
    rw [firstOutOfOrder_eq_none hr]

end

end OnLine

end Lore.Revision
