import Lore.Revision.HistorySpec

/-!
# BranchPoint — what the walk to a branch point answers

A round takes the lines on along their history lines and passes only revisions the other line
cannot hold. So the revision it answers is the newest the two history lines share, and what it
answers with it is all of each line above it. Each round that does not end the walk adds a
revision to a line, so the walk ends; and where the store and the remote hold both lines, it
ends with an answer.
-/

namespace Lore.Revision

open Lore.Lib Lore.Storage List

variable {states : Hash → StateData} {missing : Hash → Prop} {leftLatest rightLatest : Hash}

/-- The revisions are a history line up to its end, or up to one that is missing. -/
def EndsLine (states : Hash → StateData) (missing : Hash → Prop) (latest : Hash)
    (hs : List Hash) : Prop :=
  ∃ rest, historyLine states latest = hs ++ rest
    ∧ (rest = [] ∨ ∃ last, hs.getLast? = some last ∧ missing last)

/-- The answer is exact. A revision is the newest on both history lines, with all that is
above it; the zero revision says that the lines, up to a missing revision, share none. -/
structure IsBranchPoint (states : Hash → StateData) (missing : Hash → Prop)
    (leftLatest rightLatest : Hash) (answer : BranchPoint) : Prop where
  shared : answer.1 ≠ 0 →
    (∃ rest, historyLine states leftLatest = answer.2.1 ++ answer.1 :: rest)
    ∧ (∃ rest, historyLine states rightLatest = answer.2.2 ++ answer.1 :: rest)
    ∧ (∀ h ∈ answer.2.1, h ∉ historyLine states rightLatest)
    ∧ ∀ h ∈ answer.2.2, h ∉ historyLine states leftLatest
  none : answer.1 = 0 → EndsLine states missing leftLatest answer.2.1
    ∧ EndsLine states missing rightLatest answer.2.2 ∧ ∀ h ∈ answer.2.1, h ∉ answer.2.2

/-- What is above a shared revision on one line is not on the other, if the lines share
nothing above it. -/
theorem not_mem_of_above (hd : NumbersDescend states) {above other rest otherRest shared}
    (hl : historyLine states leftLatest = above ++ shared :: rest)
    (ho : historyLine states rightLatest = other ++ shared :: otherRest)
    (hap : ∀ h ∈ above, h ∉ other) : ∀ h ∈ above, h ∉ historyLine states rightLatest := by
  intro h hmem hon
  have hl' := (walk_historyLine hd leftLatest).descending hd
  have ho' := (walk_historyLine hd rightLatest).descending hd
  rw [hl] at hl'
  rw [ho] at ho' hon
  have ha := (pairwise_append.mp hl').2.2 h hmem shared mem_cons_self
  rcases mem_append.mp hon with hon | hon
  · exact hap h hmem hon
  · rcases mem_cons.mp hon with rfl | hon
    · exact Nat.lt_irrefl _ ha
    · have hb := (pairwise_cons.mp (pairwise_append.mp ho').2.1).1 h hon
      exact Nat.lt_asymm ha hb

/-- Revisions both lines hold, with nothing shared above, are the branch point. -/
theorem IsBranchPoint.of_shared (hd : NumbersDescend states) {left right i j x}
    (hl : OnLine states missing leftLatest left) (hr : OnLine states missing rightLatest right)
    (hi : left.history[i]? = some x) (hj : right.history[j]? = some x)
    (ha : ∀ h ∈ left.history.take i, h ∉ right.history.take j) :
    IsBranchPoint states missing leftLatest rightLatest (branchPoint left right (i, j)) := by
  have hsp : ∀ {hs line : List Hash} {k : Nat}, hs <+: line → hs[k]? = some x →
      ∃ rest, line = hs.take k ++ x :: rest := by
    intro hs line k hb hk
    obtain ⟨rest, rfl⟩ := hb
    obtain ⟨hlt, hget⟩ := List.getElem?_eq_some_iff.mp hk
    refine ⟨hs.drop (k + 1) ++ rest, ?_⟩
    conv_lhs => rw [← take_append_drop k hs, drop_eq_getElem_cons hlt, hget]
    rw [append_assoc]
    rfl
  obtain ⟨leftRest, hlL⟩ := hsp (hl.begins hd) hi
  obtain ⟨rightRest, hrL⟩ := hsp (hr.begins hd) hj
  have hx : x ≠ 0 := (walk_historyLine hd leftLatest).ne_stop
    (by rw [hlL]; exact mem_append_right _ mem_cons_self)
  have han : branchPoint left right (i, j)
      = (x, left.history.take i, right.history.take j) := by
    rw [branchPoint, hi]
    rfl
  rw [han]
  refine ⟨fun _ => ⟨⟨leftRest, hlL⟩, ⟨rightRest, hrL⟩, ?_, ?_⟩, fun hz => absurd hz hx⟩
  · exact not_mem_of_above hd hlL hrL ha
  · exact not_mem_of_above hd hrL hlL fun h hmem hmem' => ha h hmem' hmem

/-! ## One round -/

/-- The lines as a round finds them. -/
structure Between (states : Hash → StateData) (missing : Hash → Prop)
    (leftLatest rightLatest : Hash) (left right : Line) (passed : Nat × Nat) : Prop where
  onLeft : OnLine states missing leftLatest left
  onRight : OnLine states missing rightLatest right
  apart : PassedApart (left.reach states leftLatest) (right.reach states rightLatest) passed

/-- Numbered lines, not both of which are at their end. -/
def GoesOn (states : Hash → StateData) (leftLatest rightLatest : Hash) (left right : Line) : Prop :=
  Walked states leftLatest left ∧ Walked states rightLatest right
  ∧ ¬ (left.cursor = 0 ∧ right.cursor = 0)

/-- A line with what the round added to it. -/
def Grew (before after : Line) : Prop :=
  after.revisions.length = before.revisions.length + after.added

variable {left right : Line} {passed : Nat × Nat} {outside : Outside} {latest : Hash} {line : Line}

theorem advances_of_advancing :
    ((advancing left right passed).1 = true → left.advances = true)
    ∧ ((advancing left right passed).2 = true → right.advances = true) := by
  unfold advancing
  dsimp only
  split
  · simp only [Bool.and_eq_true]
    exact ⟨fun h => h.2, fun h => h.2⟩
  · exact ⟨id, id⟩

theorem advancing_of_advances (h : left.advances = true ∨ right.advances = true) :
    (advancing left right passed).1 = true ∨ (advancing left right passed).2 = true := by
  unfold advancing
  dsimp only
  split
  case isTrue hw => rwa [Bool.or_eq_true] at hw
  case isFalse => exact h

/-- The line is numbered, or asks for a page it gets. -/
structure Ready (states : Hash → StateData) (outside : Outside) (latest : Hash) (line : Line) :
    Prop where
  walked : line.asks = false → Walked states latest line
  page : line.asks = true → ∃ page, outside.revisionList line.cursor = .ok page

theorem Walked.ready (h : Walked states latest line) : Ready states outside latest line := by
  refine ⟨fun _ => h, fun ha => ?_⟩
  cases h.asks.symm.trans ha

theorem OnLine.page (hd : NumbersDescend states)
    (hh : Holds outside (historyLine states latest)) (h : OnLine states missing latest line)
    (ha : line.asks = true) (hla : outside.store line.cursor = .lacks) :
    ∃ page, outside.revisionList line.cursor = .ok page := by
  obtain ⟨hs, _, hw, hc⟩ := h.asked ha
  rcases hh.held _ (mem_historyLine hd hw hc) with ⟨state, hst⟩ | ⟨_, hp⟩
  · cases hla.symm.trans hst
  · exact hp

variable {sure : Prop}

theorem OnLine.startRound (hd : NumbersDescend states) (hhonest : Honest states outside)
    (hold : sure → Holds outside (historyLine states latest)) {walks}
    (h : OnLine states missing latest line) (hnot : line.asks = false)
    (hw : walks = true → line.advances = true) :
    Ends (fun _ => ¬ sure) (fun line' => OnLine states missing latest line'
      ∧ line'.reach states latest = line.reach states latest ∧ Grew line line'
      ∧ (walks = true → 0 < line'.added)
      ∧ (line'.asks = true → outside.store line'.cursor = .lacks)
      ∧ (sure → Walked states latest line → Ready states outside latest line'))
      (line.startRound outside.store walks) := by
  cases walks with
  | false =>
    exact .ok ⟨h.recount 0, rfl, rfl, nofun, fun ha => absurd (hnot.symm.trans ha) nofun,
      fun _ hwa => (show Walked states latest { line with added := 0 } from hwa).ready⟩
  | true =>
    have ha := hw rfl
    have hrea : line.reach states latest = historyLine states latest := by
      rw [Line.reach, ha, Bool.or_true]
      rfl
    rw [Line.advances, Bool.and_eq_true, Bool.not_eq_true', beq_iff_eq] at ha
    have hc : line.cursor ≠ 0 := fun hz => by
      have := isZero_iff.mpr hz
      rw [ha.2] at this
      exact Bool.false_ne_true this
    cases h with
    | lacks _ _ _ _ hst => exact absurd ha.1 hst
    | ended _ _ _ _ _ _ _ hz => exact absurd hz hc
    | walked hs hr hwa hst =>
      have hco : Walked states latest { line with added := 0 } := ⟨hs, hr, hwa, hst⟩
      refine (@OnLine.walkStore states missing latest hd outside hhonest sure hold _ _ hco).mono ?_
      rintro line' ⟨ho, hg, hl, _, had⟩
      rw [hrea]
      rcases hg with ⟨hask, hla⟩ | hwa'
      · exact ⟨ho, OnLine.reach_of_asks hask, hl, fun _ => had (by decide) hc, fun _ => hla,
          fun hsu _ => ⟨fun hn => absurd (hn.symm.trans hask) nofun,
            fun ha => ho.page hd (hold hsu) ha hla⟩⟩
      · exact ⟨ho, hwa'.reach hd, hl, fun _ => had (by decide) hc,
          fun ha => absurd (hwa'.asks.symm.trans ha) nofun, fun _ _ => hwa'.ready⟩

theorem getElem?_history {i n : Nat} {x : Hash} (h : line.numbered[i]? = some (n, x)) :
    line.history[i]? = some x := by
  have hget : line.revisions[i]? = some (n, x) := by
    unfold Line.numbered at h
    split at h
    · have hlt := (List.getElem?_eq_some_iff.mp h).1
      rwa [getElem?_dropLast, if_pos (by rwa [length_dropLast] at hlt)] at h
    · exact h
  rw [Line.history, getElem?_map, hget]
  rfl

section

variable (hd : NumbersDescend states)
include hd

section

variable (h : OnLine states missing latest line)
include h

theorem mem_take_reach {i x} (hx : x ∈ line.history.take i) :
    x ∈ (line.reach states latest).take i := by
  unfold Line.reach
  split
  · obtain ⟨rest, hr⟩ := h.begins hd
    rw [← hr, take_append]
    exact mem_append_left _ hx
  · exact hx

theorem mem_reach {x} (hx : x ∈ line.history) : x ∈ line.reach states latest := by
  unfold Line.reach
  split
  · exact (h.begins hd).subset hx
  · exact hx

/-- A line once the remote answered, or as it was where it did not ask. -/
structure Answered (states : Hash → StateData) (missing : Hash → Prop) (latest : Hash)
    (line line' : Line) : Prop where
  onLine : OnLine states missing latest line'
  reach : line'.reach states latest <+: line.reach states latest
  asks : line'.asks = false
  length : line'.revisions.length + line.added = line.revisions.length + line'.added

/-- A line the round goes on with, numbered where it is `sure` to be. -/
structure Resumed (sure : Prop) (states : Hash → StateData) (missing : Hash → Prop)
    (latest : Hash) (line line' : Line) : Prop extends Answered states missing latest line line' where
  counted : line.added ≤ line'.added
  walked : sure → Walked states latest line'

omit hd in
theorem OnLine.kept (hnot : ¬ line.asks)
    (hw : sure → line.asks = false → Walked states latest line) :
    Resumed sure states missing latest line line :=
  ⟨⟨h, prefix_rfl, eq_false_of_ne_true hnot, rfl⟩, Nat.le_refl _,
    fun hs => hw hs (eq_false_of_ne_true hnot)⟩

omit hd in
omit h in
theorem Answered.grew {before line'} (h : Answered states missing latest line line')
    (hg : Grew before line) : Grew before line' := by
  have := h.length
  unfold Grew at hg ⊢
  omega

omit h in
theorem OnLine.answered {line'} (h : OnLine states missing latest line')
    (ha : line.asks = true) : line'.reach states latest <+: line.reach states latest := by
  rw [OnLine.reach_of_asks ha]
  exact h.reach_prefix hd

theorem OnLine.stops (hns : ¬ sure) (err : ProtocolError) :
    Resumed sure states missing latest line
      (if line.asks then { line with step := .stopped (some err) } else line) := by
  split
  case isTrue ha =>
    have ho := h.stopped ha (some err)
    exact ⟨⟨ho, ho.answered hd ha, rfl, rfl⟩, Nat.le_refl _, fun hs => absurd hs hns⟩
  case isFalse ha => exact h.kept ha fun hs => absurd hs hns

theorem OnLine.resumes (hhonest : Honest states outside)
    (hm : ∀ h, outside.store h = .lacks → outside.revisionList h = .error .notFound → missing h)
    (ha : line.asks = true) (hla : line.asks = true → outside.store line.cursor = .lacks)
    (hr : sure → Ready states outside latest line) :
    Ends (fun _ => ¬ sure) (Resumed sure states missing latest line)
      (line.take (outside.revisionList line.cursor)) := by
  obtain ⟨line', ht, ho, hnot, hle, had, hwa⟩ := h.take hd hhonest (hm _ (hla ha)) ha
  rw [ht]
  exact .ok ⟨⟨ho, ho.answered hd ha, hnot, hle⟩, had, fun hs => hwa ((hr hs).page ha)⟩

end

variable (h : Between states missing leftLatest rightLatest left right passed)
include h

theorem Between.meet {shared after}
    (hm : meet left.numbered right.numbered passed = (shared, after)) :
    Between states missing leftLatest rightLatest left right after
    ∧ MeetEnds left.numbered right.numbered after shared := by
  obtain ⟨ha, he⟩ := meet_spec (h.onLeft.shows hd) (h.onRight.shows hd) h.apart hm
  exact ⟨⟨h.onLeft, h.onRight, ha⟩, he⟩

theorem Between.take_apart :
    (∀ x ∈ left.history.take passed.1, x ∉ right.history)
    ∧ ∀ x ∈ right.history.take passed.2, x ∉ left.history :=
  ⟨fun x hx hmem => h.apart.left x (mem_take_reach hd h.onLeft hx) (mem_reach hd h.onRight hmem),
    fun x hx hmem => h.apart.right x (mem_take_reach hd h.onRight hx) (mem_reach hd h.onLeft hmem)⟩

theorem Between.found {shared} (he : MeetEnds left.numbered right.numbered passed (some shared)) :
    IsBranchPoint states missing leftLatest rightLatest (branchPoint left right shared) := by
  obtain ⟨rfl, n, m, x, hl, hr⟩ := he
  refine .of_shared hd h.onLeft h.onRight (getElem?_history hl) (getElem?_history hr) ?_
  exact fun y hy hmem => (h.take_apart hd).1 y hy (mem_of_mem_take hmem)

/-- Lines that did not meet short of the revision both ask for meet there. -/
theorem Between.both_ask (he : MeetEnds left.numbered right.numbered passed none)
    (hlef : left.asks = true) (hri : right.asks = true) (hc : left.cursor = right.cursor) :
    IsBranchPoint states missing leftLatest rightLatest
      (branchPoint left right (left.revisions.length - 1, right.revisions.length - 1)) := by
  have ha : ∀ {latest : Hash} {line : Line}, OnLine states missing latest line →
      line.asks = true → line.history[line.revisions.length - 1]? = some line.cursor
        ∧ line.numbered.length = line.revisions.length - 1 := by
    intro latest line ho hask
    obtain ⟨hs, hr, _⟩ := ho.asked hask
    rw [OnLine.history_snoc hr, Line.numbered, if_pos hask, length_dropLast,
      hr, length_append, numberedAs, length_map]
    exact ⟨getElem?_concat_length, rfl⟩
  obtain ⟨hla, hl⟩ := ha h.onLeft hlef
  obtain ⟨hla', hl'⟩ := ha h.onRight hri
  refine .of_shared hd h.onLeft h.onRight hla (hc ▸ hla') fun x hx hmem => ?_
  -- one of the lines passed all it numbered
  have ht : ∀ {hs : List Hash} {i j : Nat}, j ≤ i → x ∈ hs.take j → x ∈ hs.take i :=
    fun hle hx => (take_prefix_take_left hle).subset hx
  rcases he with he | he
  · exact (h.take_apart hd).1 x (ht (hl ▸ he) hx) (mem_of_mem_take hmem)
  · exact (h.take_apart hd).2 x (ht (hl' ▸ he) hmem) (mem_of_mem_take hx)

theorem Between.both_end (hen : MeetEnds left.revisions right.revisions passed none)
    (hle : left.cursor = 0) (hri : right.cursor = 0) :
    IsBranchPoint states missing leftLatest rightLatest (0, left.history, right.history) := by
  have he : ∀ {latest : Hash} {line : Line}, OnLine states missing latest line →
      line.cursor = 0 → EndsLine states missing latest line.history := by
    intro latest line ho hz
    obtain ⟨rest, hre⟩ := ho.begins hd
    refine ⟨rest, hre.symm, ?_⟩
    cases ho with
    | walked hs hr hw hste =>
      left
      rw [hz] at hw
      obtain ⟨rest', hre', hnil⟩ := hw.rest (walk_historyLine hd latest)
      rw [← hre, Line.history, hr, map_snd_numberedAs] at hre'
      rw [append_cancel_left hre']
      cases hnil with
      | nil => rfl
      | cons hst _ => exact absurd rfl hst
    | lacks _ _ _ hc _ => exact absurd hz hc
    | ended hs last hr _ _ hm _ _ =>
      right
      refine ⟨last, ?_, hm⟩
      rw [OnLine.history_snoc hr, getLast?_concat]
  refine ⟨(absurd rfl), fun _ => ⟨he h.onLeft hle, he h.onRight hri, ?_⟩⟩
  intro x hx hmem
  have hl : ∀ line : Line, line.history.length = line.revisions.length := fun line => length_map _
  rcases hen with hen | hen
  · refine (h.take_apart hd).1 x ?_ hmem
    rwa [take_of_length_le (by rwa [hl])]
  · refine (h.take_apart hd).2 x ?_ hx
    rwa [take_of_length_le (by rwa [hl])]

variable (hold : sure → Holds outside (historyLine states leftLatest)
  ∧ Holds outside (historyLine states rightLatest))
include hold

theorem Between.walkRound (hhonest : Honest states outside)
    (hnot : left.asks = false ∧ right.asks = false) :
    Ends (fun _ => ¬ sure) (fun lines =>
      Between states missing leftLatest rightLatest lines.1 lines.2 passed
      ∧ Grew left lines.1 ∧ Grew right lines.2
      ∧ (lines.1.asks = true → outside.store lines.1.cursor = .lacks)
      ∧ (lines.2.asks = true → outside.store lines.2.cursor = .lacks)
      ∧ (sure → GoesOn states leftLatest rightLatest left right →
        Ready states outside leftLatest lines.1 ∧ Ready states outside rightLatest lines.2
        ∧ (0 < lines.1.added ∨ 0 < lines.2.added)))
      (walkRound outside.store left right passed) := by
  refine (h.onLeft.startRound hd hhonest (fun hs => (hold hs).1) hnot.1
    advances_of_advancing.1).bind fun l hl => ?_
  refine (h.onRight.startRound hd hhonest (fun hs => (hold hs).2) hnot.2
    advances_of_advancing.2).bind fun r hr => ?_
  obtain ⟨hle, hlR, hlG, hlA, hlL, hlW⟩ := hl
  obtain ⟨hri, hrR, hrG, hrA, hrL, hrW⟩ := hr
  refine .ok ⟨⟨hle, hri, ?_⟩, hlG, hrG, hlL, hrL,
    fun hs ⟨hwl, hwr, hc⟩ => ⟨hlW hs hwl, hrW hs hwr, ?_⟩⟩
  · rw [hlR, hrR]
    exact h.apart
  · -- one of the lines goes on
    refine (advancing_of_advances ?_).imp hlA hrA
    by_cases hz : left.cursor = 0
    · exact .inr (hwr.advances fun hz' => hc ⟨hz, hz'⟩)
    · exact .inl (hwl.advances hz)

theorem Between.askRemote (hhonest : Honest states outside)
    (hm : ∀ h, outside.store h = .lacks → outside.revisionList h = .error .notFound → missing h)
    (ha : left.asks = true ∨ right.asks = true)
    (hlL : left.asks = true → outside.store left.cursor = .lacks)
    (hrL : right.asks = true → outside.store right.cursor = .lacks)
    (hl : sure → Ready states outside leftLatest left)
    (hr : sure → Ready states outside rightLatest right) :
    Ends (fun _ => ¬ sure) (fun lines => Resumed sure states missing leftLatest left lines.1
      ∧ Resumed sure states missing rightLatest right lines.2) (askRemote outside left right) := by
  unfold Revision.askRemote
  rw [if_neg (by cases ha with | inl h => simp [h] | inr h => simp [h])]
  cases hrea : outside.reached with
  | error err =>
    have hns : ¬ sure := fun hs => absurd (hrea.symm.trans (hold hs).1.reached) nofun
    exact .ok ⟨h.onLeft.stops hd hns err, h.onRight.stops hd hns err⟩
  | ok _ =>
    dsimp only
    split
    case isFalse hla =>
      refine (h.onRight.resumes hd hhonest hm (ha.resolve_left hla) hrL hr).bind fun r hri => ?_
      exact .ok ⟨h.onLeft.kept hla fun hs => (hl hs).walked, hri⟩
    case isTrue hla =>
      refine (h.onLeft.resumes hd hhonest hm hla hlL hl).bind fun l hle => ?_
      split
      case isFalse hra => exact .ok ⟨hle, h.onRight.kept hra fun hs => (hr hs).walked⟩
      case isTrue hra =>
        split
        case isTrue hj => exact .error fun hs => by simp [(hold hs).1.joined] at hj
        case isFalse =>
          exact (h.onRight.resumes hd hhonest hm hra hrL hr).bind fun r hri => .ok ⟨hle, hri⟩

end

/-- What a round must end with, `before` being the lines it started with. -/
def RoundEnds (states : Hash → StateData) (missing : Hash → Prop)
    (leftLatest rightLatest : Hash) (left right : Line) : Round → Prop
  | .found answer => IsBranchPoint states missing leftLatest rightLatest answer
  | .next left' right' passed =>
      Between states missing leftLatest rightLatest left' right' passed
      ∧ (left'.asks = false ∧ right'.asks = false)
      ∧ left.revisions.length + right.revisions.length
        < left'.revisions.length + right'.revisions.length

/-- The lines a round leaves to go on with go on. -/
def RoundGoesOn (states : Hash → StateData) (leftLatest rightLatest : Hash) : Round → Prop
  | .found _ => True
  | .next left right _ => GoesOn states leftLatest rightLatest left right

theorem Between.endRound (hd : NumbersDescend states) {left right left' right' passed}
    (h : Between states missing leftLatest rightLatest left' right' passed)
    (hask : left'.asks = false ∧ right'.asks = false) (hl : Grew left left')
    (hri : Grew right right') (hsu : sure → Walked states leftLatest left'
      ∧ Walked states rightLatest right' ∧ (0 < left'.added ∨ 0 < right'.added)) :
    Ends (fun _ => ¬ sure) (fun end' => RoundEnds states missing leftLatest rightLatest left right end'
      ∧ (sure → RoundGoesOn states leftLatest rightLatest end'))
      (endRound left' right' passed) := by
  have hn : ∀ {line : Line}, line.asks = false → line.numbered = line.revisions := by
    intro line hask
    rw [Line.numbered, hask]
    rfl
  unfold Revision.endRound
  rw [h.onLeft.checkRound hd, h.onRight.checkRound hd]
  rcases hm : Revision.meet left'.revisions right'.revisions passed with ⟨shared, after⟩
  rw [← hn hask.1, ← hn hask.2] at hm
  obtain ⟨ha, he⟩ := h.meet hd hm
  cases shared with
  | some shared => exact .ok ⟨ha.found hd he, fun _ => trivial⟩
  | none =>
    rw [hn hask.1, hn hask.2] at he
    dsimp only [ok_bind]
    split
    case isTrue hz =>
      rw [Bool.and_eq_true] at hz
      exact .ok ⟨ha.both_end hd he (isZero_iff.mp hz.1) (isZero_iff.mp hz.2), fun _ => trivial⟩
    case isFalse hz =>
      split
      case isTrue hst =>
        refine .error fun hs => ?_
        have := (hsu hs).2.2
        omega
      case isFalse hst =>
        refine .ok ⟨⟨ha, hask, ?_⟩, fun hs => ⟨(hsu hs).1, (hsu hs).2.1, fun hc => hz ?_⟩⟩
        · unfold Grew at hl hri
          omega
        · rw [Bool.and_eq_true]
          exact ⟨isZero_iff.mpr hc.1, isZero_iff.mpr hc.2⟩

/-- One round on honest answers ends with the branch point or with longer lines, and ends
where the store and the remote hold both lines. -/
theorem Between.round (hd : NumbersDescend states) {outside} (hhonest : Honest states outside)
    (hm : ∀ h, outside.store h = .lacks → outside.revisionList h = .error .notFound → missing h)
    (hold : sure → Holds outside (historyLine states leftLatest)
      ∧ Holds outside (historyLine states rightLatest))
    {left right passed} (h : Between states missing leftLatest rightLatest left right passed)
    (hnot : left.asks = false ∧ right.asks = false)
    (hg : sure → GoesOn states leftLatest rightLatest left right) :
    Ends (fun _ => ¬ sure) (fun end' => RoundEnds states missing leftLatest rightLatest left right end'
      ∧ (sure → RoundGoesOn states leftLatest rightLatest end'))
      (round outside left right passed) := by
  refine (h.walkRound hd hold hhonest hnot).bind ?_
  rintro ⟨walkedLeft, walkedRight⟩ ⟨hw, hle, hri, hlL, hrL, hsu⟩
  dsimp only at hw hle hri hlL hrL hsu ⊢
  split
  case isFalse hasks =>
    rw [Bool.or_eq_true, not_or, Bool.not_eq_true, Bool.not_eq_true] at hasks
    refine hw.endRound hd hasks hle hri fun hs => ?_
    obtain ⟨hl, hr, ha⟩ := hsu hs (hg hs)
    exact ⟨hl.walked hasks.1, hr.walked hasks.2, ha⟩
  case isTrue hasks =>
    rw [Bool.or_eq_true] at hasks
    rw [askRound, hw.onLeft.checkRound hd, hw.onRight.checkRound hd]
    rcases hme : Revision.meet walkedLeft.numbered walkedRight.numbered passed with ⟨shared, after⟩
    obtain ⟨ha, he⟩ := hw.meet hd hme
    cases shared with
    | some shared => exact .ok ⟨ha.found hd he, fun _ => trivial⟩
    | none =>
      dsimp only [ok_bind]
      split
      case isTrue hb =>
        rw [Bool.and_eq_true, Bool.and_eq_true, beq_iff_eq] at hb
        exact .ok ⟨ha.both_ask hd he hb.1.1 hb.1.2 hb.2, fun _ => trivial⟩
      case isFalse =>
        rw [bind_assoc]
        refine (ha.askRemote hd hold hhonest hm hasks hlL hrL (fun hs => (hsu hs (hg hs)).1)
          fun hs => (hsu hs (hg hs)).2.1).bind ?_
        rintro ⟨left', right'⟩ ⟨hl, hr⟩
        refine Between.endRound hd ⟨hl.onLine, hr.onLine, ha.apart.mono hl.reach hr.reach⟩
          ⟨hl.asks, hr.asks⟩ (hl.grew hle) (hr.grew hri) fun hs => ?_
        exact ⟨hl.walked hs, hr.walked hs, (hsu hs (hg hs)).2.2.imp
          (Nat.lt_of_lt_of_le · hl.counted) (Nat.lt_of_lt_of_le · hr.counted)⟩

/-! ## The whole walk -/

theorem Between.new (missing : Hash → Prop) (states : Hash → StateData)
    (leftLatest rightLatest : Hash) :
    Between states missing leftLatest rightLatest (.new leftLatest) (.new rightLatest) (0, 0) :=
  ⟨.walked [] rfl (.nil _) rfl, .walked [] rfl (.nil _) rfl,
    ⟨fun _ h => absurd h not_mem_nil, fun _ h => absurd h not_mem_nil⟩⟩

/-- As many rounds as the lines have revisions left end the walk. -/
theorem Between.rounds (hd : NumbersDescend states) {outside : Nat → Outside}
    (hhonest : ∀ n, Honest states (outside n)) (hm : ∀ n h, (outside n).store h = .lacks →
      (outside n).revisionList h = .error .notFound → missing h)
    (hold : sure → ∀ n, Holds (outside n) (historyLine states leftLatest)
      ∧ Holds (outside n) (historyLine states rightLatest)) {fuel n left right passed}
    (h : Between states missing leftLatest rightLatest left right passed)
    (hnot : left.asks = false ∧ right.asks = false)
    (hg : sure → GoesOn states leftLatest rightLatest left right)
    (hf : (historyLine states leftLatest).length + (historyLine states rightLatest).length
      < fuel + (left.revisions.length + right.revisions.length)) :
    ∃ result, rounds outside fuel n left right passed = some result
      ∧ Ends (fun _ => ¬ sure) (IsBranchPoint states missing leftLatest rightLatest) result := by
  induction fuel generalizing n left right passed with
  | zero =>
    have := h.onLeft.length_le hd
    have := h.onRight.length_le hd
    omega
  | succ fuel ih =>
    rw [Revision.rounds]
    split
    case isTrue hz =>
      rw [Bool.and_eq_true, isZero_iff, isZero_iff] at hz
      exact ⟨_, rfl, .error fun hs => (hg hs).2.2 hz⟩
    case isFalse =>
      have he := h.round hd (hhonest n) (hm n) (fun hs => hold hs n) hnot hg
      cases hr : Revision.round (outside n) left right passed with
      | error err =>
        rw [hr] at he
        exact ⟨_, rfl, he⟩
      | ok end' =>
        rw [hr] at he
        cases end' with
        | found answer => exact ⟨_, rfl, he.1⟩
        | next left' right' passed' =>
          obtain ⟨⟨hn, hnot', hl⟩, hg'⟩ := he
          exact ih hn hnot' hg' (by omega)

/-- The revisions that in some round the store lacks and the remote answers not found for. -/
def AnsweredNotFound (outside : Nat → Outside) (h : Hash) : Prop :=
  ∃ n, (outside n).store h = .lacks ∧ (outside n).revisionList h = .error .notFound

/-- On honest answers the walk ends; what it answers is the newest revision on both history
lines with all that is above it, or, where the lines up to a revision answered not found share
none, zero; and it answers wherever the store and the remote hold both lines. -/
theorem findBranchPoint_exact {outside : Nat → Outside} (hd : NumbersDescend states)
    (hhonest : ∀ n, Honest states (outside n)) {fuel : Nat}
    (hfuel : (historyLine states leftLatest).length + (historyLine states rightLatest).length
      < fuel) :
    ∃ result, findBranchPoint outside fuel leftLatest rightLatest = some result
      ∧ (∀ answer, result = .ok answer →
        IsBranchPoint states (AnsweredNotFound outside) leftLatest rightLatest answer)
      ∧ ((∀ n, Holds (outside n) (historyLine states leftLatest)) →
        (∀ n, Holds (outside n) (historyLine states rightLatest)) →
        ¬ (leftLatest = 0 ∧ rightLatest = 0) → ∃ answer, result = .ok answer) := by
  obtain ⟨result, hr, ha⟩ :=
    (Between.new (AnsweredNotFound outside) states leftLatest rightLatest).rounds hd hhonest
      (fun n h hla hnot => ⟨n, hla, hnot⟩)
      (fun (hs : ((∀ n, Holds (outside n) (historyLine states leftLatest))
        ∧ ∀ n, Holds (outside n) (historyLine states rightLatest))
        ∧ ¬ (leftLatest = 0 ∧ rightLatest = 0)) n => ⟨hs.1.1 n, hs.1.2 n⟩)
      ⟨rfl, rfl⟩ (fun hs => ⟨⟨[], rfl, .nil _, rfl⟩, ⟨[], rfl, .nil _, rfl⟩, hs.2⟩) hfuel
  refine ⟨result, hr, ?_⟩
  cases result with
  | error err => exact ⟨nofun, fun hhL hhR hl => absurd ⟨⟨hhL, hhR⟩, hl⟩ ha⟩
  | ok answer =>
    refine ⟨fun answer' heq => ?_, fun _ _ _ => ⟨answer, rfl⟩⟩
    cases heq
    exact ha

/-- Revisions 1 to 4: 3 over 2 over 1, and 4 over 1. -/
def forkedStates (h : Hash) : StateData :=
  if h = 3 then ⟨3, 2⟩ else if h = 2 then ⟨2, 1⟩ else if h = 4 then ⟨2, 1⟩ else ⟨1, 0⟩

/-- A store without revision 2, and a remote that answers as given when asked for it. -/
def withoutTwo (answer : Except ProtocolError RevisionListResponse) : Outside where
  store h := if h = 2 then .lacks else .state (forkedStates h)
  reached := .ok ()
  revisionList h := if h = 2 then answer else .error .failed
  joined := true

/-- The page with revision 2 alone. -/
def pageOfTwo : RevisionListResponse := ⟨[⟨2, some (forkedStates 2)⟩], 1⟩

theorem forkedStates_descend : NumbersDescend forkedStates := by
  intro h _ hn
  by_cases ht : h = 3
  · subst ht
    decide
  · by_cases htwo : h = 2
    · subst htwo
      decide
    · by_cases hf : h = 4
      · subst hf
        decide
      · have hr : forkedStates h = ⟨1, 0⟩ := by
          unfold forkedStates
          rw [if_neg ht, if_neg htwo, if_neg hf]
        exact absurd (congrArg StateData.parent hr) hn

theorem honest_withoutTwo {answer} (ha : ∀ page, answer = .ok page → page = pageOfTwo) :
    Honest forkedStates (withoutTwo answer) := by
  constructor
  · intro h state hr
    simp only [withoutTwo] at hr
    split at hr
    · cases hr
    · cases hr
      rfl
  · intro h page hp
    obtain ⟨htwo, hp⟩ := ite_ok_or_error.mp hp
    subst htwo
    cases ha page hp
    refine ⟨[], pageOfTwo.items, rfl, nofun, cons_ne_nil _ _, ?_, ?_⟩
    · exact .cons (by decide) (.nil _)
    · intro item hi
      rw [mem_singleton.mp hi]

/-- Revision 1 is found below 2, which only the remote holds. -/
theorem findBranchPoint_exact_forked :
    ∃ result, findBranchPoint (fun _ => withoutTwo (.ok pageOfTwo)) 7 3 4 = some result
      ∧ (∀ answer, result = .ok answer → IsBranchPoint forkedStates
          (AnsweredNotFound fun _ => withoutTwo (.ok pageOfTwo)) 3 4 answer)
      ∧ ∃ answer, result = .ok answer := by
  obtain ⟨result, hr, he, ha⟩ :=
    @findBranchPoint_exact forkedStates 3 4 (fun _ => withoutTwo (.ok pageOfTwo))
      forkedStates_descend
      (fun _ => honest_withoutTwo fun page hp => (Except.ok.inj hp).symm) 7 (by decide)
  have hh : ∀ h : Hash, (∃ state, (withoutTwo (.ok pageOfTwo)).store h = .state state)
      ∨ (withoutTwo (.ok pageOfTwo)).store h = .lacks
        ∧ ∃ page, (withoutTwo (.ok pageOfTwo)).revisionList h = .ok page := by
    intro h
    by_cases htwo : h = 2
    · subst htwo
      exact .inr ⟨rfl, pageOfTwo, rfl⟩
    · exact .inl ⟨forkedStates h, if_neg htwo⟩
  exact ⟨result, hr, he, ha (fun _ => ⟨rfl, rfl, fun h _ => hh h⟩)
    (fun _ => ⟨rfl, rfl, fun h _ => hh h⟩) (by decide)⟩

/-- Where the remote answers not found for revision 2, the lines are said to share none; and
two lines without a revision have no branch point. -/
theorem findBranchPoint_not_found :
    (NumbersDescend forkedStates ∧ Honest forkedStates (withoutTwo (.error .notFound)))
    ∧ findBranchPoint (fun _ => withoutTwo (.error .notFound)) 7 3 4
      = some (.ok (0, [3, 2], [4, 1]))
    ∧ (1 ∈ historyLine forkedStates 3 ∧ 1 ∈ historyLine forkedStates 4)
    ∧ findBranchPoint (fun _ => withoutTwo (.ok pageOfTwo)) 7 0 0
      = some (.error .noBranchPoint) :=
  ⟨⟨forkedStates_descend, honest_withoutTwo nofun⟩, by decide, by decide, by decide⟩

end Lore.Revision
