import WikiMarkup.Proofs.Forest.Keeping
import WikiMarkup.Proofs.Forest.Linking
import WikiMarkup.Proofs.Forest.Reading
import WikiMarkup.Proofs.Generic.Group
import WikiMarkup.Proofs.Visits

/-!
# What flattening groups comes to

The pass goes over a forest whose links it changes: a group is dissolved into its parent, and the
groups among its children, which have come up with it, are dissolved into that parent in turn.
`ParseTree.flattened` says what should come out by recursion on the tree below the root.

**How it is shown.** To dissolve a group does not change what the tree is flattened to
(`Dissolved.parseTree?_flattened`), so no visit does. At the end no group is left to dissolve, so
the tree is what it is flattened to (`GroupsFlat.flattened_eq`).

**Key result.** `flattenGroups_flattens`: the pass comes to its end, and the tree below the root is
then the flattened one. The nodes of it are the same as before, in the same order.
-/

namespace WikiMarkup

/-! ### Trees -/

namespace ParseTree

mutual

/-- What stands in the place of a tree once groups are flattened: what stands in the places of its
children if it is a group, else the tree with its children flattened. -/
def pieces : ParseTree → List ParseTree
  | node kind caption children headingLevel inlineHint =>
    if kind = .group then piecesAll children
    else [node kind caption (piecesAll children) headingLevel inlineHint]

/-- What stands in the places of several trees, one after the other. -/
def piecesAll : List ParseTree → List ParseTree
  | [] => []
  | tree :: trees => pieces tree ++ piecesAll trees

end

/-- A tree with all groups below its top flattened. A group at the top stays. -/
def flattened : ParseTree → ParseTree
  | node kind caption children headingLevel inlineHint =>
    node kind caption (piecesAll children) headingLevel inlineHint

end ParseTree

namespace Forest

open ParseTree (pieces piecesAll)

variable {forest after : Forest} {id parent child : NodeId} {label : Node}

/-- What stands in the place of a node once groups are flattened. -/
def pieces (forest : Forest) (id : NodeId) : List ParseTree :=
  ((forest.parseTree? id).map ParseTree.pieces).getD []

/-! ### Reading flattened trees -/

theorem piecesAll_eq_flatMap {ids : List NodeId} {trees : List ParseTree}
    (h : List.Forall₂ (fun id tree => forest.parseTree? id = some tree) ids trees) :
    piecesAll trees = ids.flatMap forest.pieces := by
  induction h with
  | nil => rfl
  | cons hTree _ ih =>
    rw [piecesAll, List.flatMap_cons, ih, Forest.pieces, hTree, Option.map_some, Option.getD_some]

namespace Arboreal

variable (arboreal : forest.Arboreal)

include arboreal

/-- The tree of a node is its label and the trees of its children, and so is what it is flattened
to. -/
theorem exists_parseTree?_of_label? (h : forest.Reaches .root id)
    (hLabel : forest.label? id = some label) :
    ∃ trees, List.Forall₂ (fun child tree => forest.parseTree? child = some tree)
        (forest.children id) trees ∧
      forest.parseTree? id =
        some (.node label.kind label.caption trees label.headingLevel label.inlineHint) := by
  obtain ⟨node, hNode, rfl⟩ := Option.map_eq_some_iff.mp hLabel
  rw [children_of_get? hNode]
  exact arboreal.exists_parseTree?_eq h hNode

theorem map_flattened (h : forest.Reaches .root id) (hLabel : forest.label? id = some label) :
    (forest.parseTree? id).map ParseTree.flattened =
      some (.node label.kind label.caption ((forest.children id).flatMap forest.pieces)
        label.headingLevel label.inlineHint) := by
  obtain ⟨trees, hTrees, hTree⟩ := arboreal.exists_parseTree?_of_label? h hLabel
  rw [hTree, Option.map_some, ParseTree.flattened, piecesAll_eq_flatMap hTrees]

theorem pieces_eq (h : forest.Reaches .root id) (hLabel : forest.label? id = some label) :
    forest.pieces id =
      if label.kind = .group then (forest.children id).flatMap forest.pieces
      else [.node label.kind label.caption ((forest.children id).flatMap forest.pieces)
        label.headingLevel label.inlineHint] := by
  obtain ⟨trees, hTrees, hTree⟩ := arboreal.exists_parseTree?_of_label? h hLabel
  rw [Forest.pieces, hTree, Option.map_some, Option.getD_some, ParseTree.pieces,
    piecesAll_eq_flatMap hTrees]

end Arboreal

theorem flatMap_eq_of_forall₂ {ids : List NodeId} {trees : List ParseTree}
    {standsFor : NodeId → List ParseTree}
    (hTrees : List.Forall₂ (fun id tree => forest.parseTree? id = some tree) ids trees)
    (h : ∀ id ∈ ids, ∀ tree, forest.parseTree? id = some tree → standsFor id = [tree]) :
    ids.flatMap standsFor = trees := by
  induction hTrees with
  | nil => rfl
  | cons hTree _ ih =>
    obtain ⟨hHead, hTail⟩ := List.forall_mem_cons.mp h
    rw [List.flatMap_cons, hHead _ hTree, ih hTail, List.singleton_append]

/-- Where no group is left a tree is flat. -/
theorem GroupsFlat.flattened_eq (hGroups : forest.GroupsFlat) (arboreal : forest.Arboreal)
    (h : forest.Reaches .root id) :
    (forest.parseTree? id).map ParseTree.flattened = forest.parseTree? id := by
  refine arboreal.descend (motive := fun id =>
    (forest.parseTree? id).map ParseTree.flattened = forest.parseTree? id) (fun id h ih => ?_) h
  obtain ⟨label, hLabel⟩ := exists_label?_of_mem (arboreal.mem h)
  obtain ⟨trees, hTrees, hTree⟩ := arboreal.exists_parseTree?_of_label? h hLabel
  have hFlat : (forest.children id).flatMap forest.pieces = trees := by
    refine flatMap_eq_of_forall₂ hTrees fun child hChild tree hBelow => ?_
    have hReached := h.trans (Reaches.of_mem_children hChild)
    obtain ⟨inner, hInner⟩ := exists_label?_of_mem (arboreal.mem hReached)
    -- the child is no group, since the root is not among the children
    have hKind : inner.kind ≠ .group := by
      intro hGroup
      rw [hGroups child hReached inner hInner hGroup] at hChild
      exact arboreal.root_notMem h hChild
    have hSame := ih child hChild
    rw [arboreal.map_flattened hReached hInner, hBelow, Option.some_inj] at hSame
    rw [arboreal.pieces_eq hReached hInner, if_neg hKind, hSame]
  rw [arboreal.map_flattened h hLabel, hTree, hFlat]

/-! ### Dissolving -/

namespace Dissolved

variable (dissolved : forest.Dissolved after parent id) (wellFormed : forest.WellFormed)
  (hParent : forest.parent? id = some parent)

include dissolved wellFormed hParent

/-- Wherever the node was listed its children are listed now. -/
theorem children_eq_flatMap {other : NodeId} (hOther : other ≠ id) :
    after.children other = (forest.children other).flatMap fun child =>
      if child = id then forest.children id else [child] := by
  have linked := wellFormed.linked
  have hSame : ∀ {ids : List NodeId}, id ∉ ids →
      (ids.flatMap fun child => if child = id then forest.children id else [child]) = ids := by
    intro ids hIds
    have hEach : ∀ child ∈ ids, (if child = id then forest.children id else [child]) = [child] :=
      fun child hChild => if_neg (ne_of_mem_of_not_mem hChild hIds)
    rw [List.flatMap_congr hEach, List.flatMap_singleton']
  by_cases hAbove : parent = other
  · subst hAbove
    obtain ⟨front, back, hChildren, hAfter⟩ := dissolved.children_parent
    have hOnce := linked.notMem_of_children hChildren
    rw [List.mem_append, not_or] at hOnce
    rw [hAfter, hChildren, List.flatMap_append, List.flatMap_cons, hSame hOnce.1, hSame hOnce.2,
      if_pos rfl, List.append_assoc]
  · rw [dissolved.children_of_ne other hAbove hOther.symm,
      hSame (linked.notMem_children_of_ne hParent hAbove)]

variable (hGroup : forest.kind? id = some .group)

include hGroup

/-- What has come into the place of a node is flattened to the same as the node. -/
theorem flatMap_pieces_eq {other : NodeId} (h : forest.Reaches .root other) :
    (if other = id then forest.children id else [other]).flatMap after.pieces =
      forest.pieces other := by
  have arboreal := wellFormed.arboreal
  have keeps := dissolved.keeps wellFormed hParent
  refine arboreal.descend (motive := fun other =>
    (if other = id then forest.children id else [other]).flatMap after.pieces =
      forest.pieces other) (fun other h ih => ?_) h
  obtain ⟨label, hLabel⟩ := exists_label?_of_mem (arboreal.mem h)
  rw [arboreal.pieces_eq h hLabel]
  by_cases hOther : other = id
  · subst hOther
    have hKind : label.kind = .group := by
      rwa [kind?_eq_map_label?, hLabel, Option.map_some, Option.some_inj] at hGroup
    rw [if_pos rfl, if_pos hKind]
    refine List.flatMap_congr fun child hChild => ?_
    have hNe : child ≠ other := by
      rintro rfl
      exact wellFormed.not_reaches_of_mem_children hChild (Reaches.refl forest child)
    rw [← ih child hChild, if_neg hNe, List.flatMap_singleton]
  · have hAfter := (keeps.root_reaches_iff (arboreal.mem h)).mpr ⟨h, hOther⟩
    rw [if_neg hOther, List.flatMap_singleton, dissolved.wellFormed.arboreal.pieces_eq hAfter
      ((dissolved.label?_eq other).trans hLabel),
      dissolved.children_eq_flatMap wellFormed hParent hOther, List.flatMap_assoc,
      List.flatMap_congr ih]

/-- **To dissolve a group** does not change what the tree below the root is flattened to. -/
theorem parseTree?_flattened :
    (after.parseTree? .root).map ParseTree.flattened =
      (forest.parseTree? .root).map ParseTree.flattened := by
  have arboreal := wellFormed.arboreal
  have hRoot := (wellFormed.linked.ne_root hParent).symm
  have hReached := Reaches.refl forest .root
  obtain ⟨label, hLabel⟩ := exists_label?_of_mem forest.root_mem
  rw [arboreal.map_flattened hReached hLabel,
    dissolved.wellFormed.arboreal.map_flattened (Reaches.refl after .root)
      ((dissolved.label?_eq .root).trans hLabel),
    dissolved.children_eq_flatMap wellFormed hParent hRoot, List.flatMap_assoc,
    List.flatMap_congr fun child hChild => dissolved.flatMap_pieces_eq wellFormed hParent hGroup
      (hReached.trans (Reaches.of_mem_children hChild))]

end Dissolved

/-! ### Any number of groups -/

/-- Some of the groups below the root have been dissolved, one after the other. -/
structure PartlyFlattened (forest after : Forest) : Prop where
  /-- The forest stays well-formed. -/
  wellFormed : after.WellFormed
  /-- No node comes or goes. -/
  mem_iff : ∀ {id : NodeId}, id ∈ after ↔ id ∈ forest
  /-- Only links change. -/
  label?_eq : ∀ id : NodeId, after.label? id = forest.label? id
  /-- Nothing comes to be below the root. -/
  reaches_back : ∀ id : NodeId, after.Reaches .root id → forest.Reaches .root id
  /-- What is not below the root any more is a group, and has neither a parent nor children. -/
  dissolved : ∀ id : NodeId, forest.Reaches .root id → ¬ after.Reaches .root id →
    forest.kind? id = some .group ∧ after.parent? id = none ∧ after.children id = []
  /-- The rest stays in reading order. -/
  before : ∀ first second : NodeId, after.Reaches .root first → after.Reaches .root second →
    forest.Before first second → after.Before first second
  /-- What the tree below the root is flattened to does not change. -/
  parseTree?_flattened : (after.parseTree? .root).map ParseTree.flattened =
    (forest.parseTree? .root).map ParseTree.flattened

theorem PartlyFlattened.refl (wellFormed : forest.WellFormed) : forest.PartlyFlattened forest where
  wellFormed := wellFormed
  mem_iff := Iff.rfl
  label?_eq _ := rfl
  reaches_back _ h := h
  dissolved _ h hNot := absurd h hNot
  before _ _ _ _ h := h
  parseTree?_flattened := rfl

/-- Another group may be dissolved. -/
theorem PartlyFlattened.dissolve {state : Forest} (partly : forest.PartlyFlattened state)
    (hGroup : state.kind? id = some .group) (hParent : state.parent? id = some parent)
    (dissolved : state.Dissolved after parent id) : forest.PartlyFlattened after := by
  have linked := partly.wellFormed.linked
  have keeps := dissolved.keeps partly.wellFormed hParent
  have hReaches : ∀ {other}, after.Reaches .root other ↔
      state.Reaches .root other ∧ other ≠ id := by
    intro other
    by_cases hOther : other ∈ state
    · exact keeps.root_reaches_iff hOther
    · refine iff_of_false (fun h => hOther ?_) fun h => hOther ?_
      · exact dissolved.mem_iff.mp (dissolved.wellFormed.linked.mem_of_reaches after.root_mem h)
      · exact linked.mem_of_reaches state.root_mem h.1
  refine ⟨dissolved.wellFormed, dissolved.mem_iff.trans partly.mem_iff,
    fun other => (dissolved.label?_eq other).trans (partly.label?_eq other),
    fun other h => partly.reaches_back other (hReaches.mp h).1, fun other h hNot => ?_,
    fun first second hFirst hSecond h => ?_, ?_⟩
  · by_cases hOther : other = id
    · subst hOther
      exact ⟨(kind?_congr (partly.label?_eq other)).symm.trans hGroup,
        dissolved.parent?_self partly.wellFormed, dissolved.children_self⟩
    · -- a group that has been dissolved before is neither a child nor the parent of this one
      obtain ⟨hKind, hAbove, hBelow⟩ := partly.dissolved other h fun hState =>
        hNot (hReaches.mpr ⟨hState, hOther⟩)
      have hChild : other ∉ state.children id := linked.notMem_children hAbove
      have hParentNe : parent ≠ other := by
        rintro rfl
        rw [linked.parent_iff, hBelow] at hParent
        cases hParent
      refine ⟨hKind, ?_, ?_⟩
      · rw [dissolved.parent?_eq, if_neg hChild, if_neg (Ne.symm hOther), hAbove]
      · rw [dissolved.children_of_ne other hParentNe (Ne.symm hOther), hBelow]
  · obtain ⟨hFirst, hFirstNe⟩ := hReaches.mp hFirst
    obtain ⟨hSecond, hSecondNe⟩ := hReaches.mp hSecond
    exact dissolved.before partly.wellFormed hParent hFirstNe hSecondNe
      (partly.before first second hFirst hSecond h)
  · exact (dissolved.parseTree?_flattened partly.wellFormed hParent hGroup).trans
      partly.parseTree?_flattened

/-- A forest has been flattened: the tree below the root is what recursion makes of it, and it is
made of the nodes that were there, in the order in which they were, groups apart. -/
structure Flattened (forest after : Forest) : Prop where
  /-- The tree below the root has been flattened. -/
  tree : ∃ tree, forest.parseTree? .root = some tree ∧
    after.parseTree? .root = some tree.flattened
  /-- Its nodes are those that were there, but for the groups; the root stays even if it is one. -/
  reachable_eq : after.reachable =
    forest.reachable.filter fun id => id = .root ∨ forest.kind? id ≠ some .group
  /-- No node comes or goes. -/
  mem_iff : ∀ {id : NodeId}, id ∈ after ↔ id ∈ forest
  /-- Nodes change nothing but their links. -/
  label?_eq : ∀ id : NodeId, after.label? id = forest.label? id
  /-- The groups have neither a parent nor children. -/
  groups : ∀ id : NodeId, forest.Reaches .root id → id ≠ .root →
    forest.kind? id = some .group → after.parent? id = none ∧ after.children id = []

/-- To dissolve groups until none is left is to flatten the forest. -/
theorem PartlyFlattened.flattened (partly : forest.PartlyFlattened after)
    (wellFormed : forest.WellFormed) (hGroups : after.GroupsFlat) : forest.Flattened after := by
  have arboreal := partly.wellFormed.arboreal
  have hGone : ∀ id, id ≠ .root → forest.kind? id = some .group → ¬ after.Reaches .root id := by
    intro id hRoot hKind hReaches
    rw [kind?_eq_map_label?, ← partly.label?_eq, Option.map_eq_some_iff] at hKind
    obtain ⟨label, hLabel, hGroup⟩ := hKind
    exact hRoot (hGroups id hReaches label hLabel hGroup)
  have hStays : ∀ id, id = .root ∨ forest.kind? id ≠ some .group →
      forest.Reaches .root id → after.Reaches .root id := by
    intro id hId h
    by_contra hNot
    rcases hId with rfl | hKind
    · exact hNot (Reaches.refl after .root)
    · exact hKind (partly.dissolved id h hNot).1
  refine ⟨?_, ?_, partly.mem_iff, partly.label?_eq, fun id h hRoot hKind =>
    (partly.dissolved id h (hGone id hRoot hKind)).2⟩
  · obtain ⟨tree, hTree⟩ := wellFormed.arboreal.exists_parseTree? (Reaches.refl forest .root)
    refine ⟨tree, hTree, ?_⟩
    rw [← hGroups.flattened_eq arboreal (Reaches.refl after .root), partly.parseTree?_flattened,
      hTree, Option.map_some]
  · have hAll : ∀ id ∈ after.reachable,
        decide (id = .root ∨ forest.kind? id ≠ some .group) = true := by
      intro id h
      rw [decide_eq_true_iff, or_iff_not_imp_left]
      exact fun hRoot hKind => hGone id hRoot hKind (reaches_of_mem_below h)
    rw [← List.filter_eq_self.mpr hAll]
    refine filter_selfAndDescendants_eq wellFormed partly.wellFormed (fun id hId => ?_) ?_
    · exact ⟨partly.reaches_back id, hStays id (of_decide_eq_true hId)⟩
    · intro first second hFirst hSecond hOne hTwo
      exact partly.before first second (hStays first (of_decide_eq_true hFirst) hOne)
        (hStays second (of_decide_eq_true hSecond) hTwo)

end Forest

namespace Edit

open Relation (ReflTransGen)

variable {forest after : Forest}

/-- Whatever is visited, and in whatever order, groups are dissolved and nothing else happens. -/
theorem partlyFlattened_of_visits (wellFormed : forest.WellFormed)
    (h : Visits flattenGroup forest after) : forest.PartlyFlattened after := by
  induction h with
  | refl => exact .refl wellFormed
  | tail _ hVisit partly =>
    obtain ⟨id, hRun⟩ := hVisit
    rcases flattenGroup_cases partly.wellFormed id with
      ⟨hSame, -⟩ | ⟨parent, last, hGroup, hParent, hLast, dissolved⟩
    · rw [hSame] at hRun
      cases hRun
      exact partly
    · rw [hLast] at hRun
      cases hRun
      exact partly.dissolve hGroup hParent dissolved

/-- **Flattening groups** one by one comes to the same as flattening the tree below the root by
recursion. -/
theorem flattenGroups_flattens (wellFormed : forest.WellFormed) :
    ∃ after, flattenGroups.run forest = .ok () after ∧ after.WellFormed ∧
      forest.Flattened after := by
  obtain ⟨after, hRun, hAfter, -, hGroups⟩ := flattenGroups_run wellFormed
  have partly := partlyFlattened_of_visits wellFormed (visits_of_flattenGroups hRun)
  exact ⟨after, hRun, hAfter, partly.flattened wellFormed hGroups⟩

/-- A group at the top that holds text, and between the text groups in groups. -/
def bundles : ParseTree :=
  .node .group "" [.node .text "a" [] none none,
    .node .group "" [.node .group "" [.node .text "b" [] none none] none none,
      .node .paragraph "" [.node .group "" [.node .text "c" [] none none] none none] none none]
      none none, .leaf .group] none none

/-- The group at the top stays, and the groups below it go, whatever they are in. -/
theorem flattenGroups_flattens_bundles :
    ∃ forest after, linkUpwards.run (.ofParseTree bundles) = .ok () forest ∧ forest.WellFormed ∧
      flattenGroups.run forest = .ok () after ∧ forest.Flattened after ∧
      after.parseTree? .root = some (.node .group "" [.node .text "a" [] none none,
        .node .text "b" [] none none,
        .node .paragraph "" [.node .text "c" [] none none] none none] none none) ∧
      after.reachable = [⟨0⟩, ⟨1⟩, ⟨4⟩, ⟨5⟩, ⟨7⟩] := by
  obtain ⟨forest, hLink, wellFormed, same⟩ := linkUpwards_run bundles
  obtain ⟨after, hRun, -, flattened⟩ := flattenGroups_flattens wellFormed
  refine ⟨forest, after, hLink, wellFormed, hRun, flattened, ?_, ?_⟩
  · obtain ⟨tree, hTree, hAfter⟩ := flattened.tree
    rw [same.parseTree?_eq, Forest.parseTree?_ofParseTree, Option.some_inj] at hTree
    rw [hAfter, ← hTree]
    rfl
  · have hKind : ∀ id, forest.kind? id = (Forest.ofParseTree bundles).kind? id :=
      fun id => Forest.kind?_congr (same.label?_eq id)
    rw [flattened.reachable_eq]
    simp only [Forest.reachable, same.selfAndDescendants_eq, hKind]
    decide +kernel

end Edit

end WikiMarkup
