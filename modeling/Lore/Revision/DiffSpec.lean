import Mathlib.Algebra.Order.BigOperators.Group.List
import Mathlib.Algebra.Order.Group.Nat
import Lore.Revision.Diff

/-!
# DiffSpec — what the walk reports at one path

`demandBelow p key` follows the walk of `p` along one key alone. Each child's work stands
at the child's own key and hands on at most one item there, so no key is owed by two
tasks: whatever the schedule, a finished walk has reported at each key what
`demandBelow` says (`Reports.at_key`). Every walk ends (`diffNode_weight`).
-/

namespace Lore.Revision

open Lore.Storage Lore.Lib List Pending

section Keys

variable {σ : Type} (context : DiffContext σ)

/-- The key of the directory an item stands at. -/
def Pending.key : Pending σ → Key
  | .pair fromPath _ _ _ _ _ => fromPath.key context.hashString
  | .whole _ path _ _ => path.key context.hashString

/-- The key a piece of work stands at. -/
def workKey : DiffWork σ → Key
  | .emit change => change.key context.hashString
  | .visit item => item.key context

/-- What a walk meets: the two sides of a pair differ in case only, and no directory has
two children of one name. -/
def Pending.Valid : Pending σ → Prop
  | .pair fromPath toPath _ _ fromNodes toNodes =>
      fromPath.key context.hashString = toPath.key context.hashString ∧
        WellFormed context.hashString fromNodes ∧ WellFormed context.hashString toNodes
  | .whole _ _ _ nodes => WellFormed context.hashString nodes

variable {context}

@[simp] theorem Path.key_append (path : Path) (name : String) :
    Path.key context.hashString (path ++ [name]) =
      Path.key context.hashString path ++ [context.hashString name] := by
  simp [Path.key]

/-! ## The work of one child -/

/-- Work that stands at `key`, handing on at most one item, and only valid ones. -/
structure StandsAt (context : DiffContext σ) (key : Key) (works : List (DiffWork σ)) : Prop where
  key_eq : ∀ w ∈ works, workKey context w = key
  one_visit : works.Pairwise fun w w' => ¬ (w.isVisit = true ∧ w'.isVisit = true)
  valid : ∀ item, .visit item ∈ works → item.Valid context

theorem StandsAt.nil (key : Key) : StandsAt context key [] :=
  ⟨fun _ h => absurd h not_mem_nil, List.Pairwise.nil, fun _ h => absurd h not_mem_nil⟩

variable {key : Key} {item : Pending σ} {children : List Tree}

theorem StandsAt.single {w} (hkey : workKey context w = key)
    (hv : ∀ item, w = .visit item → item.Valid context) : StandsAt context key [w] := by
  refine ⟨?_, pairwise_singleton _ _, fun item hi => hv item (mem_singleton.mp hi).symm⟩
  intro w' hw
  rw [mem_singleton.mp hw]
  exact hkey

theorem StandsAt.emit {change} (h : change.key context.hashString = key) :
    StandsAt context key [.emit change] := .single h fun _ hi => nomatch hi

theorem StandsAt.visit (hkey : item.key context = key) (hv : item.Valid context) :
    StandsAt context key [.visit item] := .single hkey fun _ hi => Work.visit.inj hi ▸ hv

/-- Work that hands nothing on. -/
def Reporting (works : List (DiffWork σ)) : Prop := ∀ w ∈ works, w.isVisit = false

theorem Reporting.emit (change : NodeChange) : Reporting (σ := σ) [.emit change] := by
  intro w hw
  rw [mem_singleton.mp hw]
  rfl

theorem Reporting.append {as bs : List (DiffWork σ)} (ha : Reporting as) (hb : Reporting bs) :
    Reporting (as ++ bs) := fun w hw => (mem_append.mp hw).elim (ha w) (hb w)

theorem Reporting.guard {p : Prop} [Decidable p] {as bs : List (DiffWork σ)} (ha : Reporting as)
    (hb : Reporting bs) : Reporting (if p then as else bs) := by
  split
  · exact ha
  · exact hb

theorem Reporting.nil : Reporting (σ := σ) [] := fun _ hw => nomatch hw

theorem Reporting.presence (presence : Option FileAction) (f : FileAction → NodeChange) :
    Reporting (σ := σ) (presence.map fun action => .emit (f action)).toList := by
  cases presence with
  | none => exact .nil
  | some action => exact .emit _

theorem StandsAt.append {as bs} (has : StandsAt context key as) (hbs : StandsAt context key bs)
    (he : Reporting as ∨ Reporting bs) : StandsAt context key (as ++ bs) where
  key_eq w hw := (mem_append.mp hw).elim (has.key_eq w) (hbs.key_eq w)
  one_visit := by
    refine pairwise_append.mpr ⟨has.one_visit, hbs.one_visit, ?_⟩
    rintro a ha b hb ⟨hva, hvb⟩
    rcases he with h | h
    · simp [h a ha] at hva
    · simp [h b hb] at hvb
  valid item hi := (mem_append.mp hi).elim (has.valid item) (hbs.valid item)

theorem addChange_standsAt {change} {states : σ} {side} (hkey : change.key context.hashString = key)
    (hsi : WellFormed context.hashString side.children) :
    StandsAt context key (addChange change states side) := by
  cases side with
  | file node => exact StandsAt.emit hkey
  | directory node children =>
    exact (StandsAt.emit hkey).append (StandsAt.visit hkey hsi) (.inl (.emit _))

theorem wholeChange_path (action : FileAction) (path : Path) (child : Tree) :
    (wholeChange action path child).path = path := by
  unfold wholeChange NodeChange.path NodeChange.resolvedSide
  split <;> rfl

theorem addHierarchyChild_standsAt (action : FileAction) (path : Path) (states : σ) {child}
    (hc : WellFormed context.hashString child.children) :
    StandsAt context (path.key context.hashString ++ [child.nameHash context.hashString])
      (addHierarchyChild context action path states child) := by
  simp only [addHierarchyChild]
  split
  · exact StandsAt.nil _
  · refine addChange_standsAt ?_ hc
    rw [NodeChange.key, wholeChange_path, Path.key_append]
    rfl

theorem paired_standsAt {fromPath toPath} (fromStates toStates : σ) {fromNode toNode : Tree}
    (hfK : Path.key context.hashString (fromPath ++ [fromNode.node.name]) = key)
    (htK : Path.key context.hashString (toPath ++ [toNode.node.name]) = key)
    (hf : WellFormed context.hashString fromNode.children)
    (hto : WellFormed context.hashString toNode.children) :
    StandsAt context key (paired context fromPath toPath fromStates toStates fromNode toNode) := by
  -- A change of the pair stands at either spelling of the path, which have one key.
  have hc : ∀ action flags, NodeChange.key context.hashString
      ⟨action, flags, .ofChild (fromPath ++ [fromNode.node.name]) fromNode,
        .ofChild (toPath ++ [toNode.node.name]) toNode⟩ = key := by
    intro action flags
    unfold NodeChange.key NodeChange.path NodeChange.resolvedSide
    split
    · exact hfK
    · exact htK
  cases fromNode with
  | file a =>
    cases toNode with
    | file b =>
      simp only [paired]
      split
      · exact StandsAt.emit (hc _ _)
      · exact StandsAt.nil _
    | directory b toNodes =>
      refine (addChange_standsAt (hc _ _) hf).append ?_ (.inl (.emit _))
      split
      · exact StandsAt.nil _
      · exact addChange_standsAt (hc _ _) hto
  | directory a fromNodes =>
    cases toNode with
    | file b =>
      refine (addChange_standsAt (hc _ _) hf).append ?_ (.inr (.guard .nil (.emit _)))
      split
      · exact StandsAt.nil _
      · exact addChange_standsAt (hc _ _) hto
    | directory b toNodes =>
      refine StandsAt.append (StandsAt.append ?_ ?_ (.inl (.presence _ _))) ?_
        (.inl (.append (.presence _ _) (.guard (.emit _) .nil)))
      · cases presenceChange context _ _ _ _ with
        | none => exact StandsAt.nil _
        | some action => exact StandsAt.emit (hc _ _)
      · split
        · exact StandsAt.emit (hc _ _)
        · exact StandsAt.nil _
      · split
        · exact StandsAt.nil _
        · split
          · exact StandsAt.emit (hc _ _)
          · exact StandsAt.visit hfK ⟨hfK.trans htK.symm, hf, hto⟩

theorem walkMeeting_standsAt {fromPath toPath} (fromStates toStates : σ) {fromNodes toNodes}
    {keeps : Tree → Bool} {m} (hp : fromPath.key context.hashString = toPath.key context.hashString)
    (hf : WellFormed context.hashString fromNodes) (hto : WellFormed context.hashString toNodes)
    (hm : m.Of (Tree.nameHash context.hashString) (Tree.nameHash context.hashString) keeps
      fromNodes toNodes) :
    StandsAt context (fromPath.key context.hashString ++
        [m.key (Tree.nameHash context.hashString) (Tree.nameHash context.hashString)])
      (walkMeeting context fromPath toPath fromStates toStates m) := by
  cases m with
  | left a => exact addHierarchyChild_standsAt _ _ _ (hf.child hm.1)
  | right b =>
    rw [hp]
    exact addHierarchyChild_standsAt _ _ _ (hto.child hm.1)
  | both a b =>
    refine paired_standsAt _ _ (Path.key_append _ _) ?_ (hf.child hm.1) (hto.child hm.2.1)
    rw [Path.key_append, ← hp]
    exact congrArg (_ ++ [·]) hm.2.2.2

/-! ## The children in order -/

theorem sortedChildren_perm (children : List Tree) :
    (sortedChildren context children).Perm children := perm_insertionSort _ _

section

variable (h : WellFormed context.hashString children)
include h

theorem sortedChildren_ascending :
    Ascending (Tree.nameHash context.hashString) (sortedChildren context children) := by
  have hso : (sortedChildren context children).Pairwise fun a b =>
      a.nameHash context.hashString ≤ b.nameHash context.hashString :=
    pairwise_insertionSort _ _
  have hd : ((sortedChildren context children).map (Tree.nameHash context.hashString)).Nodup :=
    (((sortedChildren_perm children).map _).nodup_iff).mpr h.distinct
  exact (hso.and (pairwise_map.mp hd)).imp fun ⟨hle, hne⟩ => lt_of_le_of_ne hle hne

theorem WellFormed.sortedChildren :
    WellFormed context.hashString (sortedChildren context children) :=
  .intro ((((sortedChildren_perm children).map _).nodup_iff).mpr h.distinct)
    fun _ hc => h.child ((sortedChildren_perm children).mem_iff.mp hc)

theorem findSubnode_sortedChildren (hash : Nat) :
    findSubnode context.hashString (sortedChildren context children) hash =
      findSubnode context.hashString children hash :=
  findSubnode_perm h (sortedChildren_perm children).symm hash

end

/-! ## Following one key -/

/-- What the walk of an item reports at the key `key` below it. -/
def demandBelow (context : DiffContext σ) : Pending σ → Key → List NodeChange
  | _, [] => []
  | item, hash :: rest =>
      (diffNode context item).flatMap fun
        | .emit change =>
            if change.key context.hashString = item.key context ++ hash :: rest then [change]
            else []
        | .visit below =>
            if below.key context = item.key context ++ [hash] then demandBelow context below rest
            else []

/-- What the walk of an item reports at a key. -/
def demand (context : DiffContext σ) (item : Pending σ) (key : Key) : List NodeChange :=
  if item.key context <+: key then
    demandBelow context item (key.drop (item.key context).length)
  else []

theorem demand_append (item : Pending σ) (key : Key) :
    demand context item (item.key context ++ key) = demandBelow context item key := by
  rw [demand, if_pos (prefix_append _ _), drop_left]

/-- What a piece of work owes lies at its key, and below its key where it hands on. -/
theorem owed_above {w} (h : w.owed (demand context) (NodeChange.key context.hashString) key ≠ []) :
    workKey context w <+: key ∧ (w.isVisit = true → workKey context w ≠ key) ∧
      (w.isVisit = false → workKey context w = key) := by
  cases w with
  | emit change =>
    have hkey : change.key context.hashString = key := by
      by_contra hne
      exact h (if_neg hne)
    exact ⟨hkey ▸ prefix_rfl, fun hv => absurd hv (by simp [Work.isVisit]), fun _ => hkey⟩
  | visit item =>
    have ha : item.key context <+: key := by
      by_contra hne
      exact h (if_neg hne)
    refine ⟨ha, fun _ heq => h ?_, fun hv => absurd hv (by simp [Work.isVisit])⟩
    obtain rfl : item.key context = key := heq
    show demand context item (item.key context) = []
    have hnil := @demand_append _ context item []
    rw [append_nil] at hnil
    rw [hnil]
    rfl

/-- Work at two keys of one length owes no key together, nor does work at one key unless
both hand on. -/
theorem apart_of_key {w w'} (hl : (workKey context w).length = (workKey context w').length)
    (hv : workKey context w = workKey context w' → ¬ (w.isVisit = true ∧ w'.isVisit = true)) :
    Work.Apart (demand context) (NodeChange.key context.hashString) w w' := by
  intro hvi key
  by_contra hb
  push Not at hb
  obtain ⟨ha, hvK, heK⟩ := owed_above hb.1
  obtain ⟨ha', hvK', heK'⟩ := owed_above hb.2
  have hsa : workKey context w = workKey context w' :=
    (prefix_of_prefix_length_le ha ha' hl.le).eq_of_length hl
  have hnot := hv hsa
  cases hw : w.isVisit <;> cases hw' : w'.isVisit
  · simp [hw, hw'] at hvi
  · exact hvK' hw' (hsa ▸ heK hw)
  · exact hvK hw (hsa.trans (heK' hw'))
  · exact hnot ⟨hw, hw'⟩

theorem apart_flatMap {α : Type} {xs : List α} {childHash : α → Nat} {works : α → List (DiffWork σ)}
    (hd : (xs.map childHash).Nodup)
    (hst : ∀ x ∈ xs, StandsAt context (item.key context ++ [childHash x]) (works x)) :
    (xs.flatMap works).Pairwise
      (Work.Apart (demand context) (NodeChange.key context.hashString)) := by
  rw [pairwise_flatMap]
  constructor
  · intro x hx
    have h := hst x hx
    refine List.Pairwise.imp_of_mem ?_ h.one_visit
    intro w w' hw hw' hnot
    refine apart_of_key ?_ fun _ => hnot
    rw [h.key_eq w hw, h.key_eq w' hw']
  · refine List.Pairwise.imp_of_mem ?_ (pairwise_map.mp hd)
    intro x y hx hy hne w hw w' hw'
    have hkey := (hst x hx).key_eq w hw
    have hkey' := (hst y hy).key_eq w' hw'
    refine apart_of_key (by rw [hkey, hkey']; simp) fun heq => ?_
    rw [hkey, hkey'] at heq
    exact absurd (by simpa using heq) hne

/-! ## The expansion of an item -/

/-- An item's work stands one level below it, and hands only valid items on. -/
structure StandsBelow (context : DiffContext σ) (item : Pending σ) (works : List (DiffWork σ)) :
    Prop where
  key_eq : ∀ w ∈ works, ∃ hash, workKey context w = item.key context ++ [hash]
  apart : works.Pairwise (Work.Apart (demand context) (NodeChange.key context.hashString))
  valid : ∀ below, .visit below ∈ works → below.Valid context

theorem standsBelow_flatMap {α : Type} {xs : List α} {childHash : α → Nat}
    {works : α → List (DiffWork σ)} (hd : (xs.map childHash).Nodup)
    (hst : ∀ x ∈ xs, StandsAt context (item.key context ++ [childHash x]) (works x)) :
    StandsBelow context item (xs.flatMap works) where
  key_eq w hw := by
    obtain ⟨x, hx, hw⟩ := mem_flatMap.mp hw
    exact ⟨_, (hst x hx).key_eq w hw⟩
  apart := apart_flatMap hd hst
  valid below hb := by
    obtain ⟨x, hx, hb⟩ := mem_flatMap.mp hb
    exact (hst x hx).valid below hb

theorem diffNode_standsBelow {item} (h : item.Valid context) :
    StandsBelow context item (diffNode context item) := by
  cases item with
  | pair fromPath toPath fromStates toStates fromNodes toNodes =>
    obtain ⟨hp, hf, hto⟩ := h
    refine standsBelow_flatMap
      (mergeJoin_pairwise (sortedChildren_ascending hf) (sortedChildren_ascending hto)).nodup ?_
    intro m hm
    exact walkMeeting_standsAt _ _ hp hf.sortedChildren hto.sortedChildren
      ((mem_mergeJoin (sortedChildren_ascending hf) (sortedChildren_ascending hto) m).mp hm)
  | whole action path states nodes =>
    exact standsBelow_flatMap h.distinct fun child hc =>
      addHierarchyChild_standsAt action path states (WellFormed.child h hc)

theorem demand_eq_flatMap (h : item.Valid context) (key : Key) :
    demand context item key = (diffNode context item).flatMap
      (Work.owed (demand context) (NodeChange.key context.hashString) key) := by
  have hk := (diffNode_standsBelow h).key_eq
  by_cases ha : item.key context <+: key
  · obtain ⟨rest, rfl⟩ := ha
    rw [demand_append]
    cases rest with
    | nil =>
      symm
      rw [demandBelow, flatMap_eq_nil_iff]
      intro w hw
      by_contra ho
      obtain ⟨hash, hkey⟩ := hk w hw
      have hle := (owed_above ho).1.length_le
      rw [hkey, append_nil, length_append, length_singleton] at hle
      omega
    | cons hash rest =>
      refine flatMap_congr fun w hw => ?_
      obtain ⟨hash', hkey⟩ := hk w hw
      cases w with
      | emit change => rfl
      | visit below =>
        have hb : below.key context = item.key context ++ [hash'] := hkey
        show _ = demand context below (item.key context ++ hash :: rest)
        by_cases hh : hash' = hash
        · subst hh
          have hsp : item.key context ++ hash' :: rest = below.key context ++ rest := by
            rw [hb, append_assoc]
            rfl
          rw [hsp, demand_append]
          exact if_pos hb
        · have hne : below.key context ≠ item.key context ++ [hash] := by
            rw [hb]
            simpa using hh
          refine (if_neg hne).trans (Eq.symm (if_neg ?_))
          rw [hb, prefix_append_right_inj, cons_prefix_cons]
          exact fun hbo => hh hbo.1
  · symm
    rw [demand, if_neg ha, flatMap_eq_nil_iff]
    intro w hw
    by_contra ho
    obtain ⟨hash, hkey⟩ := hk w hw
    have hl := (owed_above ho).1
    rw [hkey] at hl
    exact ha ((prefix_append _ _).trans hl)

theorem diffNode_expands : Expands (diffNode context) (demand context)
    (NodeChange.key context.hashString) (Pending.Valid context) where
  demand_eq _ h key := demand_eq_flatMap h key
  apart _ h := (diffNode_standsBelow h).apart
  valid_visit _ h below hb := (diffNode_standsBelow h).valid below hb

/-- Whatever the schedule, the walk of two trees reports at each key what it reports
following that key alone. -/
theorem Reports.at_key {fromNodes toNodes changes} (h : Reports context fromNodes toNodes changes)
    (hfr : WellFormed context.hashString fromNodes) (hto : WellFormed context.hashString toNodes)
    (key : Key) :
    changes.filter (NodeChange.key context.hashString · = key) =
      demandBelow context
        (.pair [] [] context.filter.root context.filter.root fromNodes toNodes) key := by
  obtain ⟨schedule, pool, hrun, hf, rfl⟩ := h
  have hv : Pending.Valid context
      (.pair [] [] context.filter.root context.filter.root fromNodes toNodes) := ⟨rfl, hfr, hto⟩
  rw [Pool.emitted_of_finished diffNode_expands hv hrun hf key]
  exact @demand_append _ context _ key

/-! ## One step along a key -/

/-- What is reported at once, and what is handed on. -/
def emits (works : List (DiffWork σ)) : List NodeChange :=
  works.filterMap fun
    | .emit change => some change
    | .visit _ => none

def visits (works : List (DiffWork σ)) : List (Pending σ) :=
  works.filterMap fun
    | .emit _ => none
    | .visit item => some item

@[simp] theorem emits_append (as bs : List (DiffWork σ)) : emits (as ++ bs) = emits as ++ emits bs :=
  filterMap_append

@[simp] theorem visits_append (as bs : List (DiffWork σ)) :
    visits (as ++ bs) = visits as ++ visits bs := filterMap_append

/-- What a child's work reports: at the child's key what it emits, below it what it hands
on. -/
def reportedBy (context : DiffContext σ) (works : List (DiffWork σ)) (rest : Key) :
    List NodeChange :=
  if rest = [] then emits works else (visits works).flatMap (demandBelow context · rest)

/-- What a piece of work one level below `key` owes to `key` followed by `hash :: rest`. -/
def owedBelow (context : DiffContext σ) (key : Key) (hash : Nat) (rest : Key) :
    DiffWork σ → List NodeChange
  | .emit change =>
      if change.key context.hashString = key ++ hash :: rest then [change] else []
  | .visit below =>
      if below.key context = key ++ [hash] then demandBelow context below rest else []

theorem demandBelow_cons (item : Pending σ) (hash : Nat) (rest : Key) :
    demandBelow context item (hash :: rest) =
      (diffNode context item).flatMap (owedBelow context (item.key context) hash rest) := by
  refine flatMap_congr fun w _ => ?_
  cases w <;> rfl

theorem StandsAt.owedBelow {hash works} (h : StandsAt context (key ++ [hash]) works) (rest : Key) :
    works.flatMap (owedBelow context key hash rest) = reportedBy context works rest := by
  obtain ⟨hkey, -, -⟩ := h
  induction works with
  | nil => by_cases hr : rest = [] <;> simp [reportedBy, emits, visits]
  | cons w works ih =>
    have ht := ih fun w' hw' => hkey w' (mem_cons_of_mem _ hw')
    have hw := hkey w mem_cons_self
    rw [flatMap_cons, ht]
    cases w with
    | emit change =>
      have hc : change.key context.hashString = key ++ [hash] := hw
      by_cases hr : rest = []
      · simp [reportedBy, Revision.owedBelow, hr, hc, emits]
      · simp [reportedBy, Revision.owedBelow, hr, hc, visits]
    | visit below =>
      have hb : below.key context = key ++ [hash] := hw
      by_cases hr : rest = []
      · simp [reportedBy, Revision.owedBelow, hr, emits, demandBelow]
      · simp [reportedBy, Revision.owedBelow, hr, hb, visits]

theorem StandsAt.owedBelow_ne {hash hash' works} (h : StandsAt context (key ++ [hash']) works)
    (hne : hash' ≠ hash) (rest : Key) :
    works.flatMap (Revision.owedBelow context key hash rest) = [] := by
  rw [flatMap_eq_nil_iff]
  intro w hw
  have hkey := h.key_eq w hw
  cases w with
  | emit | visit =>
    refine if_neg fun heq => hne ?_
    exact (cons.inj (append_cancel_left (hkey.symm.trans heq))).1

/-- A pair reports at a key what the walk does where it meets the key's first name. -/
theorem demandBelow_pair {fromPath toPath} (fromStates toStates : σ) {fromNodes toNodes}
    (hv : Pending.Valid context (.pair fromPath toPath fromStates toStates fromNodes toNodes))
    (hash : Nat) (rest : Key) :
    demandBelow context (.pair fromPath toPath fromStates toStates fromNodes toNodes)
        (hash :: rest) =
      ((meetingAt (keepsFrom context fromPath fromStates)
          (findSubnode context.hashString fromNodes hash)
          (findSubnode context.hashString toNodes hash)).map fun m =>
        reportedBy context (walkMeeting context fromPath toPath fromStates toStates m) rest).getD
        [] := by
  obtain ⟨hp, hf, hto⟩ := hv
  have hso := sortedChildren_ascending hf
  have hso' := sortedChildren_ascending hto
  have hst : ∀ m ∈ mergeJoin (Tree.nameHash context.hashString)
      (Tree.nameHash context.hashString) (keepsFrom context fromPath fromStates)
      (sortedChildren context fromNodes) (sortedChildren context toNodes), _ := fun m hm =>
    walkMeeting_standsAt fromStates toStates hp hf.sortedChildren hto.sortedChildren
      ((mem_mergeJoin hso hso' m).mp hm)
  rw [demandBelow_cons, diffNode, key, flatMap_assoc,
    flatMap_of_key (mergeJoin_pairwise hso hso').nodup
      (fun m hm hne => (hst m hm).owedBelow_ne hne rest),
    ← findSubnode_sortedChildren hf, ← findSubnode_sortedChildren hto]
  unfold findSubnode
  rw [← find?_mergeJoin hso hso']
  cases hm : (mergeJoin (Tree.nameHash context.hashString) (Tree.nameHash context.hashString)
      (keepsFrom context fromPath fromStates) (sortedChildren context fromNodes)
      (sortedChildren context toNodes)).find? _ with
  | none => rfl
  | some m =>
    have hkey : m.key (Tree.nameHash context.hashString) (Tree.nameHash context.hashString) =
      hash := by simpa using find?_some hm
    have hat := hst m (mem_of_find?_eq_some hm)
    rw [hkey] at hat
    exact hat.owedBelow rest

theorem demandBelow_whole (action : FileAction) (path : Path) (states : σ) {nodes}
    (hn : WellFormed context.hashString nodes) (hash : Nat) (rest : Key) :
    demandBelow context (.whole action path states nodes) (hash :: rest) =
      ((findSubnode context.hashString nodes hash).map fun child =>
        reportedBy context (addHierarchyChild context action path states child) rest).getD [] := by
  have hst : ∀ child ∈ nodes, _ := fun child hc =>
    @addHierarchyChild_standsAt _ context action path states child (hn.child hc)
  rw [demandBelow_cons, diffNode, key, flatMap_assoc,
    flatMap_of_key hn.distinct (fun child hc hne =>
      (hst child hc).owedBelow_ne hne rest)]
  unfold findSubnode
  cases hc : nodes.find? _ with
  | none => rfl
  | some child =>
    have hkey : child.nameHash context.hashString = hash := by simpa using find?_some hc
    have hat := hst child (mem_of_find?_eq_some hc)
    rw [hkey] at hat
    exact hat.owedBelow rest

/-! ## Every walk ends -/

mutual

/-- A bound on the work a tree makes, on either side. -/
def Tree.weight : Tree → Nat
  | .file _ => 1
  | .directory _ children => 2 + weights children

/-- A bound on the work the trees make together. -/
def weights : List Tree → Nat
  | [] => 0
  | tree :: trees => tree.weight + weights trees

end

theorem weights_eq_sum (trees : List Tree) : weights trees = (trees.map Tree.weight).sum := by
  induction trees with
  | nil => rfl
  | cons tree trees ih => rw [weights, ih, map_cons, sum_cons]

def Pending.weight : Pending σ → Nat
  | .pair _ _ _ _ fromNodes toNodes => 1 + weights fromNodes + weights toNodes
  | .whole _ _ _ nodes => 1 + weights nodes

theorem taskWeight_flatMap {α : Type} (xs : List α) (works : α → List (DiffWork σ)) :
    taskWeight Pending.weight (xs.flatMap works) =
      (xs.map fun x => taskWeight Pending.weight (works x)).sum := by
  induction xs with
  | nil => rfl
  | cons x xs ih =>
    rw [map_cons, sum_cons, ← ih, taskWeight, flatMap_cons, map_append, sum_append]
    rfl

theorem addChange_weight (change : NodeChange) (states : σ) (side : Tree) :
    taskWeight Pending.weight (addChange change states side) ≤ side.weight := by
  cases side with
  | file node => exact Nat.le_refl 1
  | directory node children =>
    simp only [addChange, taskWeight, map_cons, map_nil, sum_cons, sum_nil,
      Work.weight, weight, Tree.weight]
    omega

theorem addHierarchyChild_weight (action : FileAction) (path : Path) (states : σ) (child : Tree) :
    taskWeight Pending.weight (addHierarchyChild context action path states child) ≤
      child.weight := by
  simp only [addHierarchyChild]
  split
  · exact Nat.zero_le _
  · exact addChange_weight _ _ _

theorem taskWeight_append (as bs : List (DiffWork σ)) :
    taskWeight Pending.weight (as ++ bs) =
      taskWeight Pending.weight as + taskWeight Pending.weight bs := by
  simp [taskWeight]

theorem paired_weight (fromPath toPath : Path) (fromStates toStates : σ) (fromNode toNode : Tree) :
    taskWeight Pending.weight
        (paired context fromPath toPath fromStates toStates fromNode toNode) ≤
      fromNode.weight + toNode.weight := by
  have hone : ∀ {p : Prop} [Decidable p] (change : NodeChange),
      taskWeight (γ := NodeChange) (weight (σ := σ))
        (if p then [.emit change] else []) ≤ 1 := by
    intro p _ change
    split
    · exact Nat.le_refl 1
    · exact Nat.zero_le _
  cases fromNode with
  | file a =>
    cases toNode with
    | file b =>
      simp only [Tree.weight]
      exact (hone _).trans (by omega)
    | directory b toNodes =>
      simp only [paired, taskWeight_append]
      refine Nat.add_le_add (addChange_weight _ _ _) ?_
      split
      · exact Nat.zero_le _
      · exact addChange_weight _ _ _
  | directory a fromNodes =>
    cases toNode with
    | file b =>
      simp only [paired, taskWeight_append]
      refine Nat.add_le_add (addChange_weight _ _ _) ?_
      split
      · exact Nat.zero_le _
      · exact addChange_weight _ _ _
    | directory b toNodes =>
      simp only [paired, taskWeight_append, Tree.weight]
      have hp : ∀ (presence : Option FileAction) (f : FileAction → NodeChange),
          taskWeight (weight (σ := σ))
            (presence.map fun action => Work.emit (f action)).toList ≤ 1 := by
        intro presence f
        cases presence with
        | none => exact Nat.zero_le _
        | some action => exact Nat.le_refl 1
      have hd : ∀ (adopted : Bool) (change : NodeChange) (item : Pending σ),
          item.weight = 1 + weights fromNodes + weights toNodes → ∀ hashEqual : Prop,
          ∀ [Decidable hashEqual], taskWeight (weight (σ := σ))
            (if hashEqual then [] else if adopted = true then [.emit change]
            else [.visit item]) ≤ 1 + weights fromNodes + weights toNodes := by
        intro adopted change item hi hashEqual _
        split
        · exact Nat.zero_le _
        · split
          · simp only [taskWeight, map_cons, map_nil, sum_cons, sum_nil, Work.weight]
            omega
          · simp only [taskWeight, map_cons, map_nil, sum_cons, sum_nil, Work.weight]
            omega
      refine (Nat.add_le_add (Nat.add_le_add (hp _ _) (hone _)) (hd _ _ _ rfl _)).trans ?_
      omega

theorem diffNode_weight (item : Pending σ) :
    taskWeight Pending.weight (diffNode context item) < item.weight := by
  cases item with
  | pair fromPath toPath fromStates toStates fromNodes toNodes =>
    have hso : ∀ nodes : List Tree,
        ((sortedChildren context nodes).map Tree.weight).sum = weights nodes := by
      intro nodes
      rw [weights_eq_sum]
      exact ((sortedChildren_perm nodes).map Tree.weight).sum_eq
    rw [diffNode, taskWeight_flatMap, weight, ← hso fromNodes, ← hso toNodes]
    refine Nat.lt_of_le_of_lt (mergeJoin_weight (f := Tree.weight) (g := Tree.weight) ?_ ?_ ?_ _ _)
      (by omega)
    · exact fun a => addHierarchyChild_weight .delete fromPath fromStates a
    · exact fun b => addHierarchyChild_weight .add toPath toStates b
    · exact (paired_weight fromPath toPath fromStates toStates)
  | whole action path states nodes =>
    rw [diffNode, taskWeight_flatMap, weight, weights_eq_sum]
    have hsum : (nodes.map fun child => taskWeight weight
        (addHierarchyChild context action path states child)).sum ≤ (nodes.map Tree.weight).sum :=
      sum_le_sum fun child _ => addHierarchyChild_weight action path states child
    omega

/-- Every walk of two trees can be brought to its end, whatever steps it took before, and no
schedule is longer than its trees allow. -/
theorem diffSubtree_ends (fromNodes toNodes : List Tree) {schedule pool}
    (hrun : run (Pool.step (diffNode context)) (diffSubtree context fromNodes toNodes) schedule =
      some pool) :
    schedule.length ≤ 1 + weights fromNodes + weights toNodes ∧
      ∃ more pool', run (Pool.step (diffNode context)) pool more = some pool' ∧ pool'.Finished := by
  refine ⟨?_, Pool.exists_finished diffNode_weight pool⟩
  have hl := Pool.run_weight diffNode_weight hrun
  have hst : (diffSubtree context fromNodes toNodes).weight weight =
      1 + weights fromNodes + weights toNodes := by
    simp [diffSubtree, Pool.start, Pool.weight, taskWeight, Work.weight, weight]
  omega

end Keys

end Lore.Revision
