import WikiMarkup.Proofs.Copies
import WikiMarkup.Proofs.Forest.Enumeration
import WikiMarkup.Proofs.Warnings

/-!
# Only the tree matters

A forest says more than its tree: where in the table a node stands, what the links upwards are
before they are derived, which nodes are not below the root, how often links have been changed. None
of that makes a difference to normalization.

**Key result.** `normalize_renumbered`: two forests that hold the same finite tree below their roots
are normalized in the same number of rounds to forests that again hold the same tree. The warnings
are the same, each about the node at the same place (`Forest.SamePlace`).

Neither of the two forests need be a copy of the other. Both are copies of a third, the forest
of their common tree, and whatever is done to that one is done to both.
-/

namespace WikiMarkup

namespace Forest

/-- Two nodes are found at the same place, counting children on the way down from the root. -/
inductive SamePlace (first second : Forest) : NodeId → NodeId → Prop
  /-- The roots are. -/
  | root : SamePlace first second .root .root
  /-- Children are if their parents are and they are listed at the same position. -/
  | child {parent other child found : NodeId} {position : Nat}
      (above : SamePlace first second parent other)
      (hChild : (first.children parent)[position]? = some child)
      (hFound : (second.children other)[position]? = some found) :
      SamePlace first second child found

/-- Two warnings about the same literal at the same place. -/
inductive SameWarning (first second : Forest) : Warning → Warning → Prop
  /-- Both are about a tag. -/
  | unknownTag {node other : NodeId} (h : SamePlace first second node other) (tagName : String) :
      SameWarning first second (.unknownTag node tagName) (.unknownTag other tagName)
  /-- Both are about a style. -/
  | unknownStyle {node other : NodeId} (h : SamePlace first second node other) (token : String) :
      SameWarning first second (.unknownStyle node token) (.unknownStyle other token)

end Forest

/-! ### Copies read -/

namespace Numbering

open Forest (Reaches)

variable {numbering : Numbering} {forest copy : Forest} {found : NodeId}

namespace Copies

variable (copies : numbering.Copies forest copy)

include copies

theorem mem_of_mem {id : NodeId} (h : id ∈ forest) : numbering id ∈ copy := by
  obtain ⟨node, hNode⟩ := Forest.mem_iff_exists_get?.mp h
  exact Forest.mem_iff_exists_get?.mpr ⟨_, by rw [copies.get?_eq, hNode, Option.map_some]⟩

/-- Going down from the root of a copy leads to copied nodes only. -/
theorem exists_of_reaches (h : copy.Reaches .root found) :
    ∃ id, numbering id = found ∧ forest.Reaches .root id := by
  induction h with
  | refl => exact ⟨.root, numbering.root, Reaches.refl forest .root⟩
  | tail _ hChild ih =>
    obtain ⟨parent, rfl, hReaches⟩ := ih
    rw [copies.children_eq] at hChild
    obtain ⟨child, hListed, rfl⟩ := List.mem_map.mp hChild
    exact ⟨child, rfl, hReaches.trans (Reaches.of_mem_children hListed)⟩

theorem arboreal (arboreal : forest.Arboreal) : copy.Arboreal where
  mem h := by
    obtain ⟨id, rfl, hReaches⟩ := copies.exists_of_reaches h
    exact copies.mem_of_mem (arboreal.mem hReaches)
  root_notMem h := by
    obtain ⟨parent, rfl, hReaches⟩ := copies.exists_of_reaches h
    rw [copies.children_eq, ← numbering.root, mem_map_iff]
    exact arboreal.root_notMem hReaches
  nodup h := by
    obtain ⟨parent, rfl, hReaches⟩ := copies.exists_of_reaches h
    rw [copies.children_eq]
    exact (arboreal.nodup hReaches).map numbering.injective
  unique h hOther hChild hFound := by
    obtain ⟨parent, rfl, hReaches⟩ := copies.exists_of_reaches h
    obtain ⟨other, rfl, hReached⟩ := copies.exists_of_reaches hOther
    rw [copies.children_eq] at hChild hFound
    obtain ⟨child, hListed, rfl⟩ := List.mem_map.mp hChild
    exact congrArg numbering
      (arboreal.unique hReaches hReached hListed (mem_map_iff.mp hFound))

theorem readAt_eq (depth : Nat) (id : NodeId) :
    copy.readAt depth (numbering id) = forest.readAt depth id := by
  induction depth generalizing id with
  | zero => rfl
  | succ depth ih =>
    rw [Forest.readAt, Forest.readAt, copies.get?_eq, Option.map_map]
    refine congrArg (Option.map · (forest.get? id)) (funext fun node => ?_)
    have hBelow : copy.readAt depth ∘ numbering = forest.readAt depth := funext ih
    dsimp only [Function.comp_apply, Node.renumbered]
    rw [List.filterMap_map, hBelow]

/-- A copy holds the same tree. -/
theorem parseTree?_root_eq (arboreal : forest.Arboreal) :
    copy.parseTree? .root = forest.parseTree? .root := by
  have hSize := copies.size_le
  have hRead := copies.readAt_eq (copy.size + 1) .root
  rw [numbering.root] at hRead
  rw [Forest.parseTree?, hRead, Forest.parseTree?]
  exact arboreal.readAt_eq_readAt (Reaches.refl forest .root) (by omega) (by omega)

end Copies

/-- Two copies of a forest have each node at the same place. -/
theorem CopiesDownwards.samePlace {other : Numbering} {first second : Forest} {id : NodeId}
    (copies : numbering.CopiesDownwards forest first)
    (others : other.CopiesDownwards forest second) (h : forest.Reaches .root id) :
    Forest.SamePlace first second (numbering id) (other id) := by
  induction h with
  | refl =>
    rw [numbering.root, other.root]
    exact .root
  | @tail parent child _ hChild ih =>
    obtain ⟨position, hPosition⟩ := List.mem_iff_getElem?.mp hChild
    have hLeft : (first.children (numbering parent))[position]? = some (numbering child) := by
      rw [copies.children_eq, List.getElem?_map, hPosition, Option.map_some]
    have hRight : (second.children (other parent))[position]? = some (other child) := by
      rw [others.children_eq, List.getElem?_map, hPosition, Option.map_some]
    exact .child ih hLeft hRight

/-- So they have each warning that is about a node below the root. -/
theorem CopiesDownwards.sameWarning {other : Numbering} {first second : Forest} {warning : Warning}
    (copies : numbering.CopiesDownwards forest first)
    (others : other.CopiesDownwards forest second) (h : forest.Reaches .root warning.node) :
    Forest.SameWarning first second (warning.renumbered numbering) (warning.renumbered other) := by
  have hPlace := copies.samePlace others h
  cases warning with
  | unknownTag node tagName => exact .unknownTag hPlace tagName
  | unknownStyle node token => exact .unknownStyle hPlace token

end Numbering

/-! ### Two runs -/

namespace Forest

variable {forest first second : Forest} {tree : ParseTree} {report : NodeId → Node → Option Warning}

/-- Reports are about nodes of the forest. -/
theorem node_mem_of_mem_reports (reportsUnresolved : Node.ReportsUnresolved report) {id : NodeId}
    {warning : Warning} (h : warning ∈ forest.reports report id) : warning.node ∈ forest := by
  obtain ⟨other, -, hReport⟩ := List.mem_filterMap.mp h
  obtain ⟨label, hLabel, hWarning⟩ := report?_eq_some_iff.mp hReport
  rw [reportsUnresolved.node_eq hWarning]
  exact mem_of_label? hLabel

/-- The forest of a tree is normalized, with warnings about its nodes only. -/
theorem exists_normalize_ofParseTree (tree : ParseTree) (settings : Settings) :
    ∃ rounds draft, (ofParseTree tree).normalize settings = .ok rounds draft ∧
      draft.forest.WellFormed ∧ ∀ warning ∈ draft.warnings, warning.node ∈ ofParseTree tree := by
  obtain ⟨linked, tidied, after, rounds, same, course⟩ := Pass.exists_course tree settings
  have hEarly : linked.Preserves tidied :=
    Visit.Steps.preserves course.early course.linked_wellFormed
  refine ⟨rounds, _, course.run, course.normalized.wellFormed, fun warning hWarning => ?_⟩
  rw [List.nil_append, List.mem_append] at hWarning
  rw [← same.mem_iff]
  rcases hWarning with hTag | hStyle
  · exact node_mem_of_mem_reports Node.reportsUnresolved_tagReport? hTag
  · -- a style that is warned about is one from the start
    obtain ⟨id, -, hReport⟩ := List.mem_filterMap.mp hStyle
    rw [hEarly.report?_eq Node.reportsUnresolved_styleReport?] at hReport
    obtain ⟨label, hLabel, hWarning⟩ := report?_eq_some_iff.mp hReport
    rw [Node.reportsUnresolved_styleReport?.node_eq hWarning]
    exact mem_of_label? hLabel

/-- An arboreal forest is normalized as the forest of its tree is. -/
theorem Arboreal.normalize_follows (arboreal : forest.Arboreal)
    (hTree : forest.parseTree? .root = some tree) {settings : Settings} {rounds : Nat}
    {draft : Draft} (hRun : (ofParseTree tree).normalize settings = .ok rounds draft) :
    ∃ copy, forest.normalize settings = .ok rounds copy ∧
      arboreal.numbering.Drafts arboreal.numbering.Tracks draft copy := by
  have hLink := Edit.linkUpwards_follows (arboreal.copiesDownwards hTree)
  obtain ⟨_, copy, hCopy, rfl, hDrafts⟩ := Pass.normalize_follows settings hLink rounds draft hRun
  exact ⟨copy, hCopy, hDrafts⟩

/-- **Only the tree matters.** Two forests that hold the same finite tree below their roots are both
normalized, in the same number of rounds and to the same tree, and with the same warnings about
nodes at the same place. How they number nodes, what stands in their links upwards, what else they
hold and how often their links have been changed makes no difference. -/
theorem normalize_renumbered (hFirst : first.Arboreal) (hSecond : second.Arboreal)
    (hTree : first.parseTree? .root = second.parseTree? .root) (settings : Settings) :
    ∃ rounds draft other, first.normalize settings = .ok rounds draft ∧
      second.normalize settings = .ok rounds other ∧
      draft.forest.Arboreal ∧ other.forest.Arboreal ∧
      (∃ tree, draft.forest.parseTree? .root = some tree ∧
        other.forest.parseTree? .root = some tree) ∧
      List.Forall₂ (SameWarning first second) draft.warnings other.warnings := by
  obtain ⟨tree, hFirstTree⟩ := hFirst.exists_parseTree? (Reaches.refl first .root)
  have hSecondTree := hTree.symm.trans hFirstTree
  obtain ⟨rounds, draft, hRun, wellFormed, hNodes⟩ := exists_normalize_ofParseTree tree settings
  obtain ⟨left, hLeft, hLeftDrafts⟩ := hFirst.normalize_follows hFirstTree hRun
  obtain ⟨right, hRight, hRightDrafts⟩ := hSecond.normalize_follows hSecondTree hRun
  have hLeftCopies := hLeftDrafts.forest.copies
  have hRightCopies := hRightDrafts.forest.copies
  obtain ⟨last, hLast⟩ := wellFormed.arboreal.exists_parseTree? (Reaches.refl draft.forest .root)
  refine ⟨rounds, left, right, hLeft, hRight, hLeftCopies.arboreal wellFormed.arboreal,
    hRightCopies.arboreal wellFormed.arboreal, ⟨last, ?_, ?_⟩, ?_⟩
  · rw [hLeftCopies.parseTree?_root_eq wellFormed.arboreal, hLast]
  · rw [hRightCopies.parseTree?_root_eq wellFormed.arboreal, hLast]
  · rw [hLeftDrafts.warnings_eq, hRightDrafts.warnings_eq, List.forall₂_map_left_iff,
      List.forall₂_map_right_iff, List.forall₂_same]
    intro warning hWarning
    exact (hFirst.copiesDownwards hFirstTree).sameWarning (hSecond.copiesDownwards hSecondTree)
      (reaches_ofParseTree (hNodes warning hWarning))

/-- The page with unknown literals in a table that is not in order: its nodes are in other places,
two more are listed by nobody or by themselves, and the links upwards contradict all others. -/
def tangledLiterals : Forest where
  nodes := #[
    { kind := .article, children := [⟨4⟩, ⟨2⟩], parent := some ⟨1⟩ },
    { kind := .paragraph, children := [⟨0⟩, ⟨2⟩, ⟨9⟩], parent := some ⟨1⟩ },
    { kind := .tag, caption := "zz", children := [⟨3⟩] },
    { kind := .text, caption := "a", parent := some ⟨5⟩ },
    { kind := .style, caption := "~~", parent := some ⟨9⟩ },
    { kind := .group, children := [⟨5⟩], parent := some ⟨4⟩ }]
  revision := 7
  nonempty := by decide

/-- The style is warned about as node 1 of the one forest and as node 4 of the other. -/
theorem normalize_tangledLiterals :
    (ofParseTree unknownLiterals).Arboreal ∧ tangledLiterals.Arboreal ∧
      (ofParseTree unknownLiterals).parseTree? .root = tangledLiterals.parseTree? .root ∧
      ∃ rounds draft other, (ofParseTree unknownLiterals).normalize {} = .ok rounds draft ∧
        tangledLiterals.normalize {} = .ok rounds other ∧
        draft.warnings = [.unknownTag ⟨2⟩ "zz", .unknownStyle ⟨1⟩ "~~"] ∧
        other.warnings = [.unknownTag ⟨2⟩ "zz", .unknownStyle ⟨4⟩ "~~"] ∧
        draft.forest.parseTree? .root = other.forest.parseTree? .root ∧
        List.Forall₂ (SameWarning (ofParseTree unknownLiterals) tangledLiterals)
          draft.warnings other.warnings := by
  have hFirst := arboreal_ofParseTree unknownLiterals
  have hSecond : tangledLiterals.Arboreal :=
    @arboreal_of_nodup tangledLiterals [⟨0⟩, ⟨4⟩, ⟨2⟩, ⟨3⟩] (by decide) (by decide) (by decide)
      (by decide)
  have hTree : (ofParseTree unknownLiterals).parseTree? .root =
      tangledLiterals.parseTree? .root := by
    rw [parseTree?_ofParseTree]
    rfl
  obtain ⟨rounds, draft, other, hLeft, hRight, -, -, ⟨tree, hDraft, hOther⟩, hWarnings⟩ :=
    normalize_renumbered hFirst hSecond hTree {}
  have hDraftObserved : observed (fun _ draft => draft.warnings)
      ((ofParseTree unknownLiterals).normalize {}) =
        some [.unknownTag ⟨2⟩ "zz", .unknownStyle ⟨1⟩ "~~"] := by decide +kernel
  have hOtherObserved : observed (fun _ draft => draft.warnings) (tangledLiterals.normalize {}) =
      some [.unknownTag ⟨2⟩ "zz", .unknownStyle ⟨4⟩ "~~"] := by decide +kernel
  have hDraftWarnings := observe_eq hDraftObserved hLeft
  have hOtherWarnings := observe_eq hOtherObserved hRight
  exact ⟨hFirst, hSecond, hTree, rounds, draft, other, hLeft, hRight, hDraftWarnings,
    hOtherWarnings, hDraft.trans hOther.symm, hWarnings⟩

end Forest

end WikiMarkup
