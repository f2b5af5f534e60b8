import Lore.Revision.DiffSpec

/-!
# DiffExact — the walk of two trees reports exactly how they differ

Under a filter that excludes nothing, and where equal directory addresses mean equal
content, what a walk reports at a key is what `changeBetween` reads off the two nodes
standing there: nothing where they agree, one change where they differ, and a delete
followed by an add where a file stands against a directory. Applied to the one tree the
reports therefore give the other.
-/

namespace Lore.Revision

open Lore.Storage Lore.Lib List Option

section Filter

variable {σ : Type}

/-- The filter state a walk reaches the directory at `path` with. -/
def Filter.stateAt (filter : Filter σ) (path : Path) : σ :=
  (path.foldl (fun (reached : σ × Path) name =>
    ((filter.childExcludesTree reached.1 (reached.2 ++ [name]) true).1, reached.2 ++ [name]))
    (filter.root, [])).1

theorem Filter.stateAt_append (filter : Filter σ) (path : Path) (name : String) :
    filter.stateAt (path ++ [name]) =
      (filter.childExcludesTree (filter.stateAt path) (path ++ [name]) true).1 := by
  have hp : ∀ (path before : Path) (states : σ),
      (path.foldl (fun (reached : σ × Path) name =>
        ((filter.childExcludesTree reached.1 (reached.2 ++ [name]) true).1, reached.2 ++ [name]))
        (states, before)).2 = before ++ path := by
    intro path
    induction path with
    | nil => simp
    | cons name path ih => simp [ih]
  unfold Filter.stateAt
  rw [foldl_append]
  simp only [foldl_cons]
  rw [hp]
  rfl

/-- No path a walk can come to is dropped, or excluded itself. -/
def Filter.ExcludesNothing (filter : Filter σ) : Prop :=
  ∀ path name isDirectory,
    let verdict := filter.childExcludesTree (filter.stateAt path) (path ++ [name]) isDirectory
    verdict.2 = false ∧ filter.excluded verdict.1 = false

end Filter

/-! ## What two nodes at one key call for -/

/-- The changes from one node to another, with the path each stands at. -/
def changeBetween : Option (Path × Tree) → Option (Path × Tree) → List NodeChange
  | none, none => []
  | some (path, a), none => [⟨.delete, .none, .ofChild path a, .invalid path⟩]
  | none, some (path, b) => [⟨.add, .none, .invalid path, .ofChild path b⟩]
  | some (path, a), some (path', b) =>
      if a.kind ≠ b.kind then
        [⟨.delete, .none, .ofChild path a, .ofChild path' b⟩,
          ⟨.add, .none, .ofChild path a, .ofChild path' b⟩]
      else if a.entry = b.entry then []
      else [⟨if a.node.name ≠ b.node.name then .move else .keep,
        if a.node.address = b.node.address ∧ a.node.mode = b.node.mode then .none else .modify,
        .ofChild path a, .ofChild path' b⟩]

theorem changeBetween_of_entry {x y}
    (h : (x.map fun found => found.2.entry) = y.map fun found => found.2.entry) :
    changeBetween x y = [] := by
  cases x with
  | none =>
    cases y with
    | none => rfl
    | some y => simp at h
  | some x =>
    cases y with
    | none => simp at h
    | some y =>
      obtain ⟨path, a⟩ := x
      obtain ⟨path', b⟩ := y
      have he : a.entry = b.entry := by simpa using h
      have hk : a.kind = b.kind := by
        cases a <;> cases b <;> simp_all [Tree.entry]
      rw [changeBetween, if_neg (not_not.mpr hk), if_pos he]

section Exact

variable {σ : Type} {context : DiffContext σ}

/-- Where the two trees hold directories of one address at one key, they hold the same
below it. -/
def AddressesDecide (context : DiffContext σ) (fromNodes toNodes : List Tree) : Prop :=
  ∀ key path a path' b, locate context.hashString [] fromNodes key = some (path, a) →
    locate context.hashString [] toNodes key = some (path', b) →
    a.kind = .directory → b.kind = .directory → a.node.address = b.node.address →
    ∀ below, entryAt context.hashString a.children below = entryAt context.hashString b.children below

/-- The node at a key of a child, its own key being the empty one. -/
def locateFrom (hashString : String → Nat) (path : Path) (child : Tree) (rest : Key) :
    Option (Path × Tree) :=
  if rest = [] then some (path ++ [child.node.name], child)
  else locate hashString (path ++ [child.node.name]) child.children rest

theorem locateFrom_below {path child} {rest : Key} (hr : rest ≠ []) :
    locateFrom context.hashString path child rest =
      locate context.hashString (path ++ [child.node.name]) child.children rest := if_neg hr

theorem locate_child {nodes hash child}
    (hc : findSubnode context.hashString nodes hash = some child) (path : Path) (rest : Key) :
    locate context.hashString path nodes (hash :: rest) =
      locateFrom context.hashString path child rest := by
  rw [locate_cons, hc]
  rfl

theorem locate_no_child {nodes hash} (hc : findSubnode context.hashString nodes hash = none)
    (path : Path) (rest : Key) : locate context.hashString path nodes (hash :: rest) = none := by
  rw [locate_cons, hc]
  rfl

theorem locate_nil (path : Path) (key : Key) : locate context.hashString path [] key = none := by
  cases key with
  | nil => rfl
  | cons hash rest => exact locate_no_child rfl path rest

theorem AddressesDecide.child {fromNodes toNodes} (h : AddressesDecide context fromNodes toNodes)
    {hash a b} (ha : findSubnode context.hashString fromNodes hash = some a)
    (hb : findSubnode context.hashString toNodes hash = some b) :
    AddressesDecide context a.children b.children := by
  intro key path c path' d hc hd
  cases key with
  | nil => simp [locate] at hc
  | cons hash' rest =>
    have hfr : (locate context.hashString [] fromNodes (hash :: hash' :: rest)).map Prod.snd =
        some c := by
      rw [locate_child ha, locateFrom_below (cons_ne_nil _ _), locate_snd, hc]
      rfl
    have hto : (locate context.hashString [] toNodes (hash :: hash' :: rest)).map Prod.snd =
        some d := by
      rw [locate_child hb, locateFrom_below (cons_ne_nil _ _), locate_snd, hd]
      rfl
    obtain ⟨⟨pc, _⟩, hf, rfl⟩ := map_eq_some_iff.mp hfr
    obtain ⟨⟨pd, _⟩, hf', rfl⟩ := map_eq_some_iff.mp hto
    exact h _ _ _ _ _ hf hf'

/-! ## Directories added or deleted as a whole -/

theorem demandBelow_whole_nil {action path} {states : σ} (key : Key) :
    demandBelow context (.whole action path states []) key = [] := by
  cases key with
  | nil => rfl
  | cons hash rest => simp [demandBelow, diffNode]

theorem reportedBy_addChange {change} {states : σ} (side : Tree) (rest : Key) :
    reportedBy context (addChange change states side) rest =
      if rest = [] then [change]
      else demandBelow context (.whole change.action change.path states side.children) rest := by
  unfold reportedBy
  by_cases hr : rest = []
  · rw [if_pos hr, if_pos hr]
    cases side <;> rfl
  · rw [if_neg hr, if_neg hr]
    cases side with
    | file node => simp [addChange, visits, demandBelow_whole_nil]
    | directory node children => simp [addChange, visits]

theorem wholeChange_action (action : FileAction) (path : Path) (child : Tree) :
    (wholeChange action path child).action = action := by
  unfold wholeChange
  split <;> rfl

/-- The change of a node added or deleted as a whole. -/
def wholeAt (action : FileAction) (found : Option (Path × Tree)) : List NodeChange :=
  (found.map fun found => wholeChange action found.1 found.2).toList

theorem wholeAt_delete (x : Option (Path × Tree)) : wholeAt .delete x = changeBetween x none := by
  cases x <;> rfl

theorem wholeAt_add (y : Option (Path × Tree)) : wholeAt .add y = changeBetween none y := by
  cases y <;> rfl

theorem reportedBy_append (as bs : List (DiffWork σ)) (rest : Key) :
    reportedBy context (as ++ bs) rest = reportedBy context as rest ++ reportedBy context bs rest := by
  unfold reportedBy
  by_cases hr : rest = []
  · simp [if_pos hr]
  · simp [if_neg hr]

theorem reportedBy_nil (rest : Key) : reportedBy context [] rest = [] := by
  unfold reportedBy
  split <;> rfl

theorem reportedBy_emit (change : NodeChange) (rest : Key) :
    reportedBy context [.emit change] rest = if rest = [] then [change] else [] := rfl

theorem reportedBy_visit (item : Pending σ) (rest : Key) :
    reportedBy context [.visit item] rest =
      if rest = [] then [] else demandBelow context item rest := by
  unfold reportedBy
  split
  · rfl
  · simp [visits]

theorem reportedBy_files {fromPath toPath} {fromStates toStates : σ} (a b : Node) (rest : Key) :
    reportedBy context (paired context fromPath toPath fromStates toStates (.file a) (.file b)) rest =
      changeBetween (locateFrom context.hashString fromPath (.file a) rest)
        (locateFrom context.hashString toPath (.file b) rest) := by
  have hsa : (Tree.file a).entry = (Tree.file b).entry ↔
      ¬ (¬ a.address = b.address ∨ ¬ a.mode = b.mode ∨ a.name ≠ b.name) := by
    simp only [Tree.entry, Entry.mk.injEq, some.injEq]
    tauto
  simp only [paired]
  by_cases hr : rest = [] <;>
    by_cases hd : ¬ a.address = b.address ∨ ¬ a.mode = b.mode ∨ ¬ a.name = b.name <;>
    simp [hr, hd, hsa, locateFrom, locate_nil, changeBetween, reportedBy_nil, reportedBy_emit]

theorem paired_replaced {fromPath toPath} {fromStates toStates : σ} {a b} (hki : a.kind ≠ b.kind) :
    paired context fromPath toPath fromStates toStates a b =
      let fromSide := NodeChangeState.ofChild (fromPath ++ [a.node.name]) a
      let toSide := NodeChangeState.ofChild (toPath ++ [b.node.name]) b
      let toVerdict := context.filter.childExcludesTree toStates (toPath ++ [b.node.name])
        b.isDirectory
      addChange ⟨.delete, .none, fromSide, toSide⟩ (context.filter.childExcludesTree fromStates
        (fromPath ++ [a.node.name]) a.isDirectory).1 a ++
      if toVerdict.2 then [] else addChange ⟨.add, .none, fromSide, toSide⟩ toVerdict.1 b := by
  cases a <;> cases b <;> first | rfl | exact absurd rfl hki

variable (hfilter : context.filter.ExcludesNothing)

include hfilter

omit hfilter in
theorem reportedBy_whole {change side rest} {path : Path}
    (hpa : change.path = path ++ [side.node.name])
    (hbe : demandBelow context (.whole change.action change.path
        (context.filter.stateAt change.path) side.children) rest =
      wholeAt change.action (locate context.hashString change.path side.children rest)) :
    reportedBy context (addChange change (context.filter.childExcludesTree
        (context.filter.stateAt path) (path ++ [side.node.name]) side.isDirectory).1 side) rest =
      if rest = [] then [change]
      else wholeAt change.action (locate context.hashString change.path side.children rest) := by
  rw [reportedBy_addChange]
  refine ite_congr rfl (fun _ => rfl) fun _ => ?_
  cases side with
  | file node => simp [demandBelow_whole_nil, locate_nil, wholeAt]
  | directory node children =>
    rw [hpa, Filter.stateAt_append] at hbe
    rw [hpa]
    exact hbe

theorem reportedBy_solo (action : FileAction) (path : Path) {child rest}
    (hbe : demandBelow context (.whole action (path ++ [child.node.name])
        (context.filter.stateAt (path ++ [child.node.name])) child.children) rest =
      wholeAt action (locate context.hashString (path ++ [child.node.name]) child.children rest)) :
    reportedBy context
        (addHierarchyChild context action path (context.filter.stateAt path) child) rest =
      wholeAt action (locateFrom context.hashString path child rest) := by
  simp only [addHierarchyChild, (hfilter path child.node.name child.isDirectory).1,
    if_neg Bool.false_ne_true]
  rw [reportedBy_whole (wholeChange_path _ _ _) (by rwa [wholeChange_action, wholeChange_path]),
    wholeChange_action, wholeChange_path]
  by_cases hr : rest = []
  · rw [hr]
    rfl
  · rw [if_neg hr, locateFrom_below hr]

theorem demandBelow_whole_eq (action : FileAction) (path : Path) {nodes}
    (hn : WellFormed context.hashString nodes) (key : Key) :
    demandBelow context (.whole action path (context.filter.stateAt path) nodes) key =
      wholeAt action (locate context.hashString path nodes key) := by
  induction key generalizing path nodes with
  | nil => rfl
  | cons hash rest ih =>
    rw [demandBelow_whole action path _ hn]
    cases hc : findSubnode context.hashString nodes hash with
    | none => rw [locate_no_child hc]; rfl
    | some child =>
      rw [locate_child hc]
      exact reportedBy_solo hfilter action path (ih _ (hn.child (mem_of_findSubnode hc)))

/-! ## Pairs of directories -/

/-- What two directories of one name report: their own change, and what they hold where
their addresses differ. -/
theorem reportedBy_directories (hg : context.graft = none) (fromPath toPath : Path) (a b : Node)
    (fromNodes toNodes : List Tree) (rest : Key) :
    reportedBy context (paired context fromPath toPath (context.filter.stateAt fromPath)
        (context.filter.stateAt toPath) (.directory a fromNodes) (.directory b toNodes)) rest =
      if rest = [] then
        changeBetween (some (fromPath ++ [a.name], .directory a fromNodes))
          (some (toPath ++ [b.name], .directory b toNodes))
      else if a.address = b.address then []
      else demandBelow context (.pair (fromPath ++ [a.name]) (toPath ++ [b.name])
        (context.filter.stateAt (fromPath ++ [a.name])) (context.filter.stateAt (toPath ++ [b.name]))
        fromNodes toNodes) rest := by
  have hp : presenceChange context (.directory a fromNodes) (.directory b toNodes)
      (context.filter.stateAt (fromPath ++ [a.name]))
      (context.filter.stateAt (toPath ++ [b.name])) = none := by
    have hf := (hfilter fromPath a.name true).2
    have hto := (hfilter toPath b.name true).2
    rw [← Filter.stateAt_append] at hf hto
    simp [presenceChange, hf, hto]
  have hsa : (Tree.directory a fromNodes).entry = (Tree.directory b toNodes).entry ↔
      ¬ (¬ a.mode = b.mode ∨ ¬ a.name = b.name) := by
    simp only [Tree.entry, Entry.mk.injEq]
    tauto
  simp only [paired, Tree.isDirectory, Tree.kind_directory, decide_true, Tree.node_directory,
    ← Filter.stateAt_append, hp,
    hg, reportedBy_append, changeBetween, hsa]
  by_cases hd : ¬ a.mode = b.mode ∨ ¬ a.name = b.name <;>
    by_cases ha : a.address = b.address <;>
    by_cases hr : rest = [] <;>
    simp [hd, ha, hr, reportedBy_nil, reportedBy_emit, reportedBy_visit]

/-- What a file and a directory of one name report: a delete and an add at the name, and
everything the directory holds. -/
theorem reportedBy_replaced {fromPath toPath a b} (hki : a.kind ≠ b.kind)
    (ha : WellFormed context.hashString a.children) (hb : WellFormed context.hashString b.children)
    (rest : Key) :
    reportedBy context (paired context fromPath toPath (context.filter.stateAt fromPath)
        (context.filter.stateAt toPath) a b) rest =
      changeBetween (locateFrom context.hashString fromPath a rest)
        (locateFrom context.hashString toPath b rest) := by
  have hk := (hfilter toPath b.node.name b.isDirectory).1
  simp only [paired_replaced hki, hk, Bool.false_eq_true, if_false]
  rw [reportedBy_append, reportedBy_whole rfl (demandBelow_whole_eq hfilter .delete _ ha rest),
    reportedBy_whole rfl (demandBelow_whole_eq hfilter .add _ hb rest)]
  by_cases hr : rest = []
  · simp [hr, locateFrom, changeBetween, hki]
  · rw [if_neg hr, if_neg hr, locateFrom_below hr, locateFrom_below hr]
    cases a with
    | file n =>
      rw [Tree.children_file, locate_nil, locate_nil, ← wholeAt_add]
      rfl
    | directory n fromNodes =>
      cases b with
      | directory m toNodes => exact absurd rfl hki
      | file m =>
        rw [Tree.children_file, locate_nil, locate_nil, ← wholeAt_delete]
        exact append_nil _

theorem demandBelow_pair_eq {fromPath toPath fromNodes toNodes} (hg : context.graft = none)
    (hp : fromPath.key context.hashString = toPath.key context.hashString)
    (hf : WellFormed context.hashString fromNodes) (hto : WellFormed context.hashString toNodes)
    (hadd : AddressesDecide context fromNodes toNodes) (key : Key) :
    demandBelow context (.pair fromPath toPath (context.filter.stateAt fromPath)
        (context.filter.stateAt toPath) fromNodes toNodes) key =
      changeBetween (locate context.hashString fromPath fromNodes key)
        (locate context.hashString toPath toNodes key) := by
  induction key generalizing fromPath toPath fromNodes toNodes with
  | nil => rfl
  | cons hash rest ih =>
    rw [demandBelow_pair _ _ ⟨hp, hf, hto⟩]
    have hk : ∀ child, keepsFrom context fromPath (context.filter.stateAt fromPath) child =
        true := fun child => by
      simp [keepsFrom, (hfilter fromPath child.node.name child.isDirectory).1]
    cases ha : findSubnode context.hashString fromNodes hash with
    | none =>
      rw [locate_no_child ha]
      cases hb : findSubnode context.hashString toNodes hash with
      | none => rw [locate_no_child hb]; rfl
      | some b =>
        rw [locate_child hb, ← wholeAt_add, ← reportedBy_solo hfilter .add toPath
          (demandBelow_whole_eq hfilter _ _ (hto.child (mem_of_findSubnode hb)) _)]
        rfl
    | some a =>
      have hbe := hf.child (mem_of_findSubnode ha)
      cases hb : findSubnode context.hashString toNodes hash with
      | none =>
        rw [locate_no_child hb, locate_child ha, ← wholeAt_delete,
          ← reportedBy_solo hfilter .delete fromPath (demandBelow_whole_eq hfilter _ _ hbe _)]
        simp only [meetingAt, hk]
        rfl
      | some b =>
        have hbe' := hto.child (mem_of_findSubnode hb)
        have hn : context.hashString a.node.name = context.hashString b.node.name :=
          (nameHash_of_findSubnode ha).trans (nameHash_of_findSubnode hb).symm
        rw [locate_child ha, locate_child hb]
        simp only [meetingAt, hk, if_true, map_some, walkMeeting]
        by_cases hki : a.kind = b.kind
        · cases a with
          | file n =>
            cases b with
            | directory m toNodes' => simp at hki
            | file m => exact reportedBy_files n m rest
          | directory n fromNodes' =>
            cases b with
            | file m => simp at hki
            | directory m toNodes' =>
              rw [reportedBy_directories hfilter hg]
              by_cases hr : rest = []
              · rw [hr]
                rfl
              · rw [if_neg hr, locateFrom_below hr, locateFrom_below hr]
                by_cases had : n.address = m.address
                · -- The walk does not look below equal addresses.
                  rw [if_pos had]
                  refine (changeBetween_of_entry ?_).symm
                  rw [← entryAt_eq, ← entryAt_eq]
                  exact hadd [hash] _ (.directory n fromNodes') _ (.directory m toNodes')
                    (by rw [locate_child ha]; rfl) (by rw [locate_child hb]; rfl) rfl rfl
                    had rest
                · rw [if_neg had]
                  refine ih ?_ hbe hbe' (hadd.child ha hb)
                  rw [Path.key_append, Path.key_append, hp]
                  exact congrArg _ (congrArg (fun h => [h]) hn)
        · exact reportedBy_replaced hfilter hki hbe hbe' rest

theorem Reports.changeBetween {fromNodes toNodes changes}
    (h : Reports context fromNodes toNodes changes) (hg : context.graft = none)
    (hf : WellFormed context.hashString fromNodes) (hto : WellFormed context.hashString toNodes)
    (ha : AddressesDecide context fromNodes toNodes) (key : Key) :
    changes.filter (NodeChange.key context.hashString · = key) =
      Revision.changeBetween (locate context.hashString [] fromNodes key)
        (locate context.hashString [] toNodes key) := by
  rw [h.at_key hf hto key]
  exact demandBelow_pair_eq hfilter hg rfl hf hto ha key

end Exact

/-! ## Children stored in another order -/

/-- The same tree, with the children of any of its directories in another order. -/
inductive Reordered : List Tree → List Tree → Prop where
  | perm {nodes others : List Tree} : nodes.Perm others → Reordered nodes others
  | directory (node : Node) (before after : List Tree) {nodes others : List Tree} :
      Reordered nodes others →
        Reordered (before ++ .directory node nodes :: after)
          (before ++ .directory node others :: after)
  | trans {nodes others more : List Tree} :
      Reordered nodes others → Reordered others more → Reordered nodes more

/-- What a change reads of a node: not the order of what is below it. -/
def shape (found : Path × Tree) : Path × Node × Kind := (found.1, found.2.node, found.2.kind)

section Order

variable {hashString : String → Nat}

theorem Reordered.wellFormed {nodes others} (h : Reordered nodes others)
    (hn : WellFormed hashString nodes) : WellFormed hashString others := by
  induction h with
  | perm hp =>
    exact .intro ((hp.map _).nodup_iff.mp hn.distinct) fun child hc => hn.child (hp.mem_iff.mpr hc)
  | directory node before after _ ih =>
    refine .intro (by simpa [Tree.nameHash] using hn.distinct) ?_
    intro child hc
    rcases mem_append.mp hc with hc | hc
    · exact hn.child (mem_append_left _ hc)
    · rcases mem_cons.mp hc with rfl | hc
      · exact ih (hn.child (mem_append_right _ mem_cons_self))
      · exact hn.child (mem_append_right _ (mem_cons_of_mem _ hc))
  | trans _ _ ih ih' => exact ih' (ih hn)

theorem Reordered.locate {nodes others} (h : Reordered nodes others)
    (hn : WellFormed hashString nodes) (path : Path) (key : Key) :
    (Revision.locate hashString path others key).map shape =
      (Revision.locate hashString path nodes key).map shape := by
  induction h generalizing path key with
  | perm hp =>
    cases key with
    | nil => rfl
    | cons hash rest => rw [locate_cons, locate_cons, findSubnode_perm hn hp]
  | @directory node before after nodes others hi ih =>
    cases key with
    | nil => rfl
    | cons hash rest =>
      have hiW : WellFormed hashString nodes := hn.child (mem_append_right _ mem_cons_self)
      rw [locate_cons, locate_cons]
      unfold findSubnode
      rw [find?_append, find?_append]
      cases before.find? (Tree.nameHash hashString · = hash) with
      | some child => rfl
      | none =>
        by_cases hna : hashString node.name = hash
        · have hf : ∀ below : List Tree,
              (Tree.directory node below).nameHash hashString = hash := fun _ => hna
          rw [find?_cons_of_pos (by simpa using hf others),
            find?_cons_of_pos (by simpa using hf nodes)]
          by_cases hr : rest = []
          · simp [hr, shape]
          · simp only [if_neg hr]
            exact ih hiW _ rest
        · have hf : ∀ below : List Tree,
              ¬ (Tree.directory node below).nameHash hashString = hash := fun _ => hna
          rw [find?_cons_of_neg (by simpa using hf others),
            find?_cons_of_neg (by simpa using hf nodes)]
  | trans hfi _ ih ih' => exact (ih' (hfi.wellFormed hn) path key).trans (ih hn path key)

theorem shape_cases {x x' : Option (Path × Tree)} (h : x'.map shape = x.map shape) :
    (x' = none ∧ x = none) ∨ ∃ path a' a, x' = some (path, a') ∧ x = some (path, a) ∧
      a'.node = a.node ∧ a'.kind = a.kind ∧ a'.entry = a.entry := by
  cases x with
  | none => exact .inl ⟨by simpa using h, rfl⟩
  | some x =>
    obtain ⟨⟨path, a'⟩, rfl, hs⟩ := map_eq_some_iff.mp h
    obtain ⟨path', a⟩ := x
    simp only [shape, Prod.mk.injEq] at hs
    obtain ⟨rfl, hn, hk⟩ := hs
    cases a <;> cases a' <;> simp_all [Tree.entry]

theorem changeBetween_shape {x x' y y'} (hx : x'.map shape = x.map shape)
    (hy : y'.map shape = y.map shape) : changeBetween x' y' = changeBetween x y := by
  obtain ⟨rfl, rfl⟩ | ⟨path, a', a, rfl, rfl, hn, hk, he⟩ := shape_cases hx <;>
    obtain ⟨rfl, rfl⟩ | ⟨path', b', b, rfl, rfl, hn', hk', he'⟩ := shape_cases hy
  · rfl
  · simp only [changeBetween, NodeChangeState.ofChild, hn', hk']
  · simp only [changeBetween, NodeChangeState.ofChild, hn, hk]
  · simp only [changeBetween, NodeChangeState.ofChild, hn, hk, he, hn', hk', he']

theorem locate_below {nodes} {path : Path} {key : Key} {found}
    (h : Revision.locate hashString path nodes key = some found) {below : Key} (hb : below ≠ []) :
    Revision.locate hashString path nodes (key ++ below) =
      Revision.locate hashString found.1 found.2.children below := by
  induction key generalizing path nodes with
  | nil => simp [Revision.locate] at h
  | cons hash rest ih =>
    rw [locate_cons] at h
    obtain ⟨child, hc, h⟩ := bind_eq_some_iff.mp h
    rw [cons_append, locate_cons, hc, bind_some]
    by_cases hr : rest = []
    · rw [if_pos hr] at h
      cases h
      rw [hr, nil_append, if_neg hb]
    · rw [if_neg hr] at h
      rw [if_neg (by simp [hr])]
      exact ih h

theorem Reordered.entryAt {nodes others} (h : Reordered nodes others)
    (hn : WellFormed hashString nodes) {key found found'}
    (hf : Revision.locate hashString [] nodes key = some found)
    (hf' : Revision.locate hashString [] others key = some found') (below : Key) :
    Revision.entryAt hashString found'.2.children below =
      Revision.entryAt hashString found.2.children below := by
  by_cases hb : below = []
  · subst hb
    rfl
  · have hsh := h.locate hn [] (key ++ below)
    rw [locate_below hf hb, locate_below hf' hb] at hsh
    rw [entryAt_eq found'.1, entryAt_eq found.1]
    obtain ⟨hl, hl'⟩ | ⟨_, _, _, hl, hl', -, -, he⟩ := shape_cases hsh
    · rw [hl, hl']
    · rw [hl, hl', map_some, map_some, he]

end Order

theorem AddressesDecide.reordered {σ : Type} {context : DiffContext σ}
    {fromNodes toNodes fromNodes' toNodes' : List Tree}
    (h : AddressesDecide context fromNodes toNodes) (hf : Reordered fromNodes fromNodes')
    (hto : Reordered toNodes toNodes') (hfW : WellFormed context.hashString fromNodes)
    (htW : WellFormed context.hashString toNodes) :
    AddressesDecide context fromNodes' toNodes' := by
  intro key path a path' b ha hb hk hk' had below
  have hfS := hf.locate hfW [] key
  have htS := hto.locate htW [] key
  rw [ha] at hfS
  rw [hb] at htS
  obtain ⟨⟨p, c⟩, hc, hcS⟩ := map_eq_some_iff.mp hfS.symm
  obtain ⟨⟨q, d⟩, hd, hdS⟩ := map_eq_some_iff.mp htS.symm
  simp only [shape, Prod.mk.injEq] at hcS hdS
  rw [hf.entryAt hfW hc ha, hto.entryAt htW hd hb]
  exact h key p c q d hc hd (hcS.2.2.trans hk) (hdS.2.2.trans hk')
    (by rw [hcS.2.1, hdS.2.1]; exact had) below

/-! ## Exactness -/

/-- A file stands on one side and a directory on the other. -/
def Replaced (hashString : String → Nat) (fromNodes toNodes : List Tree) (key : Key) : Prop :=
  ∃ a b, entryAt hashString fromNodes key = some a ∧ entryAt hashString toNodes key = some b ∧
    a.kind ≠ b.kind

section Exact

variable {σ : Type} {context : DiffContext σ}

/-- What the two nodes at a key call for, by how they differ. -/
theorem changeBetween_count {hashString : String → Nat} {fromNodes toNodes key changes}
    (h : changes = changeBetween (locate hashString [] fromNodes key)
      (locate hashString [] toNodes key)) :
    (entryAt hashString fromNodes key = entryAt hashString toNodes key → changes = []) ∧
      (entryAt hashString fromNodes key ≠ entryAt hashString toNodes key →
        ¬ Replaced hashString fromNodes toNodes key → changes.length = 1) ∧
      (Replaced hashString fromNodes toNodes key →
        changes.map NodeChange.action = [.delete, .add]) := by
  subst h
  have hkO : ∀ tree : Tree, tree.entry.kind = tree.kind := by
    intro tree
    cases tree <;> rfl
  refine ⟨changeBetween_of_entry, ?_, ?_⟩
  · intro hne hke
    unfold entryAt at hne
    unfold Replaced entryAt at hke
    cases hx : locate hashString [] fromNodes key with
    | none =>
      cases hy : locate hashString [] toNodes key with
      | none => simp [hx, hy] at hne
      | some y => rfl
    | some x =>
      cases hy : locate hashString [] toNodes key with
      | none => rfl
      | some y =>
        obtain ⟨path, a⟩ := x
        obtain ⟨path', b⟩ := y
        simp only [hx, hy] at hne hke
        have hk : a.kind = b.kind := by
          by_contra hd
          exact hke ⟨_, _, rfl, rfl, by simpa only [hkO] using hd⟩
        have he : a.entry ≠ b.entry := fun heq => hne (congrArg some heq)
        simp [changeBetween, hk, he]
  · rintro ⟨x, y, hx, hy, hk⟩
    obtain ⟨⟨path, a⟩, ha, rfl⟩ := map_eq_some_iff.mp hx
    obtain ⟨⟨path', b⟩, hb, rfl⟩ := map_eq_some_iff.mp hy
    simp only [hkO] at hk
    simp [ha, hb, changeBetween, hk]

theorem applyChanges_changeBetween {hashString : String → Nat} {fromNodes toNodes key} :
    applyChanges hashString (changeBetween (locate hashString [] fromNodes key)
        (locate hashString [] toNodes key)) (entryAt hashString fromNodes) key =
      entryAt hashString toNodes key := by
  -- What a change sets at its key is the node it leaves there.
  have hsi : ∀ {nodes : List Tree} {path : Path} {tree : Tree},
      locate hashString [] nodes key = some (path, tree) →
        path.key hashString = key ∧ (NodeChangeState.ofChild path tree).entry = some tree.entry := by
    intro nodes path tree h
    obtain ⟨parent, hp⟩ := locate_name h
    simp only at hp
    refine ⟨by simpa [Path.key] using locate_key h, ?_⟩
    rw [hp, NodeChangeState.entry_ofChild]
  unfold entryAt
  cases hx : locate hashString [] fromNodes key with
  | none =>
    cases hy : locate hashString [] toNodes key with
    | none => exact congrArg (Option.map _) hx
    | some y =>
      obtain ⟨hkey, he⟩ := hsi hy
      rw [changeBetween, applyChanges, foldl_cons, foldl_nil, applyChange_put]
      · exact he
      · simp
      · exact hkey
  | some x =>
    obtain ⟨path, a⟩ := x
    obtain ⟨hkey, -⟩ := hsi hx
    cases hy : locate hashString [] toNodes key with
    | none =>
      rw [changeBetween, applyChanges, foldl_cons, foldl_nil, applyChange_delete]
      · rfl
      · rfl
      · exact hkey
    | some y =>
      obtain ⟨path', b⟩ := y
      obtain ⟨hkey', he⟩ := hsi hy
      by_cases hk : a.kind = b.kind
      · by_cases hsa : a.entry = b.entry
        · rw [changeBetween, if_neg (not_not.mpr hk), if_pos hsa]
          show Option.map _ (locate hashString [] fromNodes key) = _
          rw [hx]
          exact congrArg some hsa
        · rw [changeBetween, if_neg (not_not.mpr hk), if_neg hsa, applyChanges,
            foldl_cons, foldl_nil, applyChange_put]
          · exact he
          · show (if a.node.name ≠ b.node.name then FileAction.move else .keep) ≠ .delete
            split <;> simp
          · exact hkey'
      · rw [changeBetween, if_pos hk, applyChanges, foldl_cons, foldl_cons,
          foldl_nil, applyChange_put]
        · exact he
        · simp
        · exact hkey'

/-- The walk of two trees is exact. Applying what it reports to the one gives the other; a
key where they agree is not reported, a key where they differ is reported once, and a key
where a file stands against a directory as a delete followed by an add. None of this
depends on the schedule or on the order children are stored in, and every walk ends. -/
theorem diff_exact (hfilter : context.filter.ExcludesNothing) (hgraft : context.graft = none)
    {fromNodes toNodes : List Tree} (hfrom : WellFormed context.hashString fromNodes)
    (hto : WellFormed context.hashString toNodes)
    (haddresses : AddressesDecide context fromNodes toNodes) :
    (∀ changes, Reports context fromNodes toNodes changes →
      applyChanges context.hashString changes (entryAt context.hashString fromNodes) =
          entryAt context.hashString toNodes ∧
        (∀ key, let reported := changes.filter (NodeChange.key context.hashString · = key)
          (entryAt context.hashString fromNodes key = entryAt context.hashString toNodes key →
            reported = []) ∧
          (entryAt context.hashString fromNodes key ≠ entryAt context.hashString toNodes key →
            ¬ Replaced context.hashString fromNodes toNodes key → reported.length = 1) ∧
          (Replaced context.hashString fromNodes toNodes key →
            reported.map NodeChange.action = [.delete, .add])) ∧
        ∀ fromNodes' toNodes' changes', Reordered fromNodes fromNodes' →
          Reordered toNodes toNodes' → Reports context fromNodes' toNodes' changes' →
          ∀ key, changes'.filter (NodeChange.key context.hashString · = key) =
            changes.filter (NodeChange.key context.hashString · = key)) ∧
      ∀ schedule pool, run (Pool.step (diffNode context)) (diffSubtree context fromNodes toNodes)
          schedule = some pool →
        schedule.length ≤ 1 + weights fromNodes + weights toNodes ∧
          ∃ more pool', run (Pool.step (diffNode context)) pool more = some pool' ∧
            pool'.Finished := by
  refine ⟨fun changes hr => ⟨?_, ?_, ?_⟩, fun _ _ hrun => diffSubtree_ends _ _ hrun⟩
  · funext key
    rw [applyChanges_at, hr.changeBetween hfilter hgraft hfrom hto haddresses key,
      applyChanges_changeBetween]
  · intro key
    exact changeBetween_count (hr.changeBetween hfilter hgraft hfrom hto haddresses key)
  · intro fromNodes' toNodes' changes' hfrom' hto' hr' key
    have haddresses' := haddresses.reordered hfrom' hto' hfrom hto
    rw [hr.changeBetween hfilter hgraft hfrom hto haddresses key,
      hr'.changeBetween hfilter hgraft (hfrom'.wellFormed hfrom) (hto'.wellFormed hto)
        haddresses' key]
    exact changeBetween_shape (hfrom'.locate hfrom [] key) (hto'.locate hto [] key)

end Exact

/-! ## Two small walks -/

/-- A walk under no filter, with names told apart by their length. -/
def plainContext : DiffContext Unit where
  hashString := String.length
  filter := ⟨(), fun _ _ _ => ((), false), fun _ => false⟩
  graft := none

theorem plainContext_excludesNothing : plainContext.filter.ExcludesNothing :=
  fun _ _ _ => ⟨rfl, rfl⟩

/-- A directory that holds a file. -/
def smallBefore : List Tree := [.directory ⟨1, "d", ⟨1, 1⟩, 0⟩ [.file ⟨2, "f", ⟨2, 2⟩, 0⟩]]

/-- The same directory, its file edited and another added. -/
def smallAfter : List Tree :=
  [.directory ⟨1, "d", ⟨3, 1⟩, 0⟩ [.file ⟨3, "ff", ⟨4, 3⟩, 0⟩, .file ⟨2, "f", ⟨5, 2⟩, 0⟩]]

/-- What the walk from the one to the other reports. -/
def smallChanges : List NodeChange :=
  [⟨.keep, .modify, .ofChild ["d", "f"] (.file ⟨2, "f", ⟨2, 2⟩, 0⟩),
      .ofChild ["d", "f"] (.file ⟨2, "f", ⟨5, 2⟩, 0⟩)⟩,
    ⟨.add, .none, .invalid ["d", "ff"], .ofChild ["d", "ff"] (.file ⟨3, "ff", ⟨4, 3⟩, 0⟩)⟩]

theorem wellFormed_files {hashString : String → Nat} {nodes : List Node}
    (h : (nodes.map fun node => hashString node.name).Nodup) :
    WellFormed hashString (nodes.map Tree.file) := by
  refine .intro (by simpa [Function.comp_def, Tree.nameHash] using h) ?_
  intro child hc
  obtain ⟨node, -, rfl⟩ := mem_map.mp hc
  exact .intro nodup_nil fun _ h => absurd h not_mem_nil

theorem wellFormed_directory {hashString : String → Nat} {node nodes}
    (h : WellFormed hashString nodes) : WellFormed hashString [.directory node nodes] := by
  refine .intro (nodup_singleton _) ?_
  intro child hc
  obtain rfl := mem_singleton.mp hc
  exact h

theorem addressesDecide_directory {σ : Type} {context : DiffContext σ} {n m fromNodes toNodes}
    (hfi : ∀ child ∈ fromNodes, child.kind = .file) (h : n.address = m.address → ∀ below,
      entryAt context.hashString fromNodes below = entryAt context.hashString toNodes below) :
    AddressesDecide context [.directory n fromNodes] [.directory m toNodes] := by
  intro key path a path' b ha hb hk hk' had
  obtain ⟨rest, rfl, ⟨rfl, hfa⟩ | hfa⟩ := locate_singleton ha
  · obtain ⟨rest, heq, ⟨-, hfb⟩ | hfb⟩ := locate_singleton hb
    · cases hfa
      cases hfb
      exact h had
    · obtain ⟨-, rfl⟩ := cons.inj heq
      cases hfb
  · -- below the directory are files alone
    cases rest with
    | nil => cases hfa
    | cons hash rest =>
      rw [locate_cons] at hfa
      obtain ⟨c, hc, hf⟩ := bind_eq_some_iff.mp hfa
      cases c with
      | directory node nodes => cases hfi _ (mem_of_findSubnode hc)
      | file node =>
        split at hf
        · cases hf
          cases hk
        · rw [Tree.children_file, @locate_nil _ _] at hf
          cases hf

theorem small_addressesDecide : AddressesDecide plainContext smallBefore smallAfter :=
  addressesDecide_directory (by simp) fun had => absurd had (by decide)

theorem diff_exact_small :
    Reports plainContext smallBefore smallAfter smallChanges ∧
      applyChanges plainContext.hashString smallChanges
          (entryAt plainContext.hashString smallBefore) =
        entryAt plainContext.hashString smallAfter := by
  have hr : Reports plainContext smallBefore smallAfter smallChanges :=
    ⟨[0, 1, 2, 2], _, rfl, by decide, rfl⟩
  have hf : WellFormed plainContext.hashString smallBefore :=
    wellFormed_directory (@wellFormed_files _ [⟨2, "f", ⟨2, 2⟩, 0⟩] (by decide))
  have hto : WellFormed plainContext.hashString smallAfter :=
    wellFormed_directory (@wellFormed_files _
      [⟨3, "ff", ⟨4, 3⟩, 0⟩, ⟨2, "f", ⟨5, 2⟩, 0⟩] (by decide))
  exact ⟨hr, ((diff_exact plainContext_excludesNothing rfl hf hto
    small_addressesDecide).1 smallChanges hr).1⟩

/-- A file replaced by an empty directory is reported twice. -/
theorem diff_replacement_twice : ∃ changes,
    Reports plainContext [.file ⟨1, "d", ⟨1, 1⟩, 0⟩] [.directory ⟨1, "d", ⟨2, 2⟩, 0⟩ []] changes ∧
      (changes.filter (NodeChange.key plainContext.hashString · = [1])).length = 2 := by
  refine ⟨_, ⟨[0, 1, 1, 1], _, rfl, by decide, rfl⟩, by decide⟩

end Lore.Revision
