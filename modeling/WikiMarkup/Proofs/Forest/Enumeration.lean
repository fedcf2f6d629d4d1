import WikiMarkup.Proofs.Forest.LinkedCopies
import WikiMarkup.Proofs.Forest.Reading

/-!
# The nodes of a tree, one after the other

What is below the root of an arboreal forest is listed in reading order and nothing twice
(`Arboreal.nodup_selfAndDescendants`). The forest of its parse tree counts the same nodes in the
same order, so the listing says where each of them is found (`Arboreal.numbering`).

**Key result.** `Arboreal.copiesDownwards`: an arboreal forest copies the forest of its tree
downwards, wherever its nodes stand and whatever else it holds.
-/

namespace WikiMarkup

namespace Forest

open ParseTree (layOut layOutAll topIds sizeAll)

/-- What stands in a table is a node of a forest under other identifiers, links upwards apart. -/
def StandsFor (forest : Forest) (number : NodeId → NodeId) (node : Node) (id : NodeId) : Prop :=
  forest.label? id = some node.unlinked ∧ forest.children id = node.children.map number

/-- As many nodes are listed below several nodes as their trees have. -/
theorem length_flatMap_selfAndDescendants {forest : Forest} {ids : List NodeId}
    {trees : List ParseTree}
    (hTrees : List.Forall₂ (fun id tree => forest.parseTree? id = some tree) ids trees)
    (h : ∀ id ∈ ids, ∀ tree, forest.parseTree? id = some tree →
      (forest.selfAndDescendants id).length = tree.size) :
    (ids.flatMap forest.selfAndDescendants).length = sizeAll trees := by
  induction hTrees with
  | nil => rfl
  | @cons child tree ids trees hChild _ ih =>
    obtain ⟨hHead, hTail⟩ := List.forall_mem_cons.mp h
    rw [List.flatMap_cons, List.length_append, hHead tree hChild, ih hTail, sizeAll]

namespace Arboreal

variable {forest : Forest} {id first second : NodeId} (arboreal : forest.Arboreal)

include arboreal

/-! ### Nothing is listed twice -/

/-- A child does not reach the children beside it. -/
theorem not_reaches_sibling (h : forest.Reaches .root id) (hFirst : first ∈ forest.children id)
    (hSecond : second ∈ forest.children id) (hNe : first ≠ second) :
    ¬ forest.Reaches first second := by
  intro hReaches
  rcases Relation.ReflTransGen.cases_tail hReaches with hSame | ⟨above, hAbove, hChild⟩
  · exact hNe hSame.symm
  · have hReached := (h.trans (Reaches.of_mem_children hFirst)).trans hAbove
    have hSame := arboreal.unique hReached h hChild hSecond
    exact arboreal.not_reaches_of_mem_children h hFirst (hSame ▸ hAbove)

/-- **Nothing is listed twice.** -/
theorem nodup_selfAndDescendants (h : forest.Reaches .root id) :
    (forest.selfAndDescendants id).Nodup := by
  refine arboreal.descend (motive := fun id => (forest.selfAndDescendants id).Nodup)
    (fun id h ih => ?_) h
  rw [arboreal.selfAndDescendants_eq h, List.nodup_cons, descendants, List.nodup_flatMap]
  refine ⟨fun hMem => ?_, ih, ?_⟩
  · obtain ⟨child, hChild, hBelow⟩ := List.mem_flatMap.mp hMem
    exact arboreal.not_reaches_of_mem_children h hChild (reaches_of_mem_below hBelow)
  · refine (arboreal.nodup h).imp_of_mem fun {first second} hFirst hSecond hNe => ?_
    intro common hLeft hRight
    have hOne := h.trans (Reaches.of_mem_children hFirst)
    have hTwo := h.trans (Reaches.of_mem_children hSecond)
    -- the children would reach one another
    rcases (reaches_of_mem_below hLeft).total (reaches_of_mem_below hRight)
      (fun _ _ _ hAbove hBeside => arboreal.unique (hOne.trans hAbove) (hTwo.trans hBeside))
      with hReaches | hReaches
    · exact arboreal.not_reaches_sibling h hFirst hSecond hNe hReaches
    · exact arboreal.not_reaches_sibling h hSecond hFirst hNe.symm hReaches

theorem mem_of_mem_reachable (h : id ∈ forest.reachable) : id ∈ forest :=
  arboreal.mem (reaches_of_mem_below h)

theorem nodup_reachable : forest.reachable.Nodup :=
  arboreal.nodup_selfAndDescendants (Reaches.refl forest .root)

theorem length_reachable_le : forest.reachable.length ≤ forest.size := by
  have hSubset : forest.reachable ⊆ forest.ids := fun id h =>
    mem_ids.mpr (arboreal.mem_of_mem_reachable h)
  have hLength := (arboreal.nodup_reachable.subperm hSubset).length_le
  rwa [ids, List.length_map, List.length_range] at hLength

/-- As many nodes are listed as the tree has. -/
theorem length_selfAndDescendants (h : forest.Reaches .root id) :
    ∀ tree, forest.parseTree? id = some tree →
      (forest.selfAndDescendants id).length = tree.size := by
  refine arboreal.descend (motive := fun id => ∀ tree, forest.parseTree? id = some tree →
    (forest.selfAndDescendants id).length = tree.size) (fun id h ih tree hTree => ?_) h
  obtain ⟨node, hNode⟩ := arboreal.exists_get? h
  obtain ⟨trees, hTrees, hRead⟩ := arboreal.exists_parseTree?_eq h hNode
  rw [hTree, Option.some_inj] at hRead
  rw [← children_of_get? hNode] at hTrees
  rw [arboreal.selfAndDescendants_eq h, hRead, ParseTree.size, List.length_cons, descendants,
    length_flatMap_selfAndDescendants hTrees ih]

end Arboreal

/-! ### Numbers -/

/-- The node that comes at a given place in reading order. Further places are for nodes that the
forest does not have yet. -/
def nodeAt (forest : Forest) (place : NodeId) : NodeId :=
  forest.reachable[place.index]?.getD
    ⟨place.index + (forest.size - forest.reachable.length)⟩

theorem nodeAt_of_getElem? {forest : Forest} {index : Nat} {id : NodeId}
    (h : forest.reachable[index]? = some id) : forest.nodeAt ⟨index⟩ = id := by
  rw [nodeAt, h, Option.getD_some]

theorem nodeAt_of_length_le {forest : Forest} {index : Nat}
    (h : forest.reachable.length ≤ index) :
    forest.nodeAt ⟨index⟩ = ⟨index + (forest.size - forest.reachable.length)⟩ := by
  rw [nodeAt, List.getElem?_eq_none h, Option.getD_none]

namespace Arboreal

variable {forest : Forest} {id : NodeId} {tree : ParseTree} (arboreal : forest.Arboreal)

include arboreal

/-- What is listed has a smaller number than what is not there yet. -/
theorem nodeAt_ne {index other : Nat} (hFirst : index < forest.reachable.length)
    (hSecond : forest.reachable.length ≤ other) :
    forest.nodeAt ⟨index⟩ ≠ forest.nodeAt ⟨other⟩ := by
  have hLength := arboreal.length_reachable_le
  have hMem := mem_def.mp (arboreal.mem_of_mem_reachable (List.getElem_mem hFirst))
  rw [nodeAt_of_getElem? (List.getElem?_eq_getElem hFirst), nodeAt_of_length_le hSecond]
  intro hSame
  rw [hSame] at hMem
  dsimp only at hMem
  omega

theorem nodeAt_injective : Function.Injective forest.nodeAt := by
  rintro ⟨first⟩ ⟨second⟩ h
  rcases Nat.lt_or_ge first forest.reachable.length with hFirst | hFirst <;>
    rcases Nat.lt_or_ge second forest.reachable.length with hSecond | hSecond
  · rw [nodeAt_of_getElem? (List.getElem?_eq_getElem hFirst),
      nodeAt_of_getElem? (List.getElem?_eq_getElem hSecond)] at h
    rw [arboreal.nodup_reachable.getElem_inj_iff.mp h]
  · exact absurd h (arboreal.nodeAt_ne hFirst hSecond)
  · exact absurd h.symm (arboreal.nodeAt_ne hSecond hFirst)
  · rw [nodeAt_of_length_le hFirst, nodeAt_of_length_le hSecond, NodeId.mk.injEq] at h
    rw [Nat.add_right_cancel h]

theorem nodeAt_root : forest.nodeAt .root = .root := by
  refine nodeAt_of_getElem? ?_
  rw [reachable, arboreal.selfAndDescendants_eq (Reaches.refl forest .root)]
  rfl

/-- Where the nodes of the tree of an arboreal forest are found. -/
def numbering : Numbering where
  number := forest.nodeAt
  injective := arboreal.nodeAt_injective
  root := arboreal.nodeAt_root
  spare := forest.size - forest.reachable.length
  ahead := forest.revision

/-- The nodes of trees that are laid out one after the other, if those of each tree are. -/
theorem standsFor_layOutAll {number : NodeId → NodeId} {ids : List NodeId} {trees : List ParseTree}
    (hTrees : List.Forall₂ (fun id tree => forest.parseTree? id = some tree) ids trees)
    (hReaches : ∀ id ∈ ids, forest.Reaches .root id)
    (h : ∀ id ∈ ids, ∀ start tree, forest.parseTree? id = some tree →
      (List.range' start tree.size).map (number ⟨·⟩) = forest.selfAndDescendants id →
        List.Forall₂ (forest.StandsFor number) (layOut start tree) (forest.selfAndDescendants id))
    (start : Nat) (hNumber : (List.range' start (sizeAll trees)).map (number ⟨·⟩) =
      ids.flatMap forest.selfAndDescendants) :
    (topIds start trees).map number = ids ∧
      List.Forall₂ (forest.StandsFor number) (layOutAll start trees)
        (ids.flatMap forest.selfAndDescendants) := by
  induction hTrees generalizing start with
  | nil => exact ⟨rfl, .nil⟩
  | @cons child tree ids trees hChild _ ih =>
    obtain ⟨hReached, hReaches⟩ := List.forall_mem_cons.mp hReaches
    obtain ⟨hHead, hTail⟩ := List.forall_mem_cons.mp h
    rw [sizeAll, ← List.range'_append_1, List.map_append, List.flatMap_cons] at hNumber
    have hLength := arboreal.length_selfAndDescendants hReached tree hChild
    obtain ⟨hFirst, hRest⟩ := List.append_inj hNumber
      (by rw [List.length_map, List.length_range', hLength])
    obtain ⟨hIds, hBelow⟩ := ih hReaches hTail (start + tree.size) hRest
    have hTop : number ⟨start⟩ = child := by
      obtain ⟨kind, caption, children, level, hint⟩ := tree
      rw [ParseTree.size, List.range'_succ, List.map_cons,
        arboreal.selfAndDescendants_eq hReached] at hFirst
      exact (List.cons.inj hFirst).1
    rw [topIds, List.map_cons, hTop, hIds, layOutAll, List.flatMap_cons]
    exact ⟨rfl, List.rel_append (hHead start tree hChild hFirst) hBelow⟩

/-- **A tree that is laid out** has the nodes that are listed, in the same order. -/
theorem standsFor_layOut {number : NodeId → NodeId} (h : forest.Reaches .root id) :
    ∀ start tree, forest.parseTree? id = some tree →
      (List.range' start tree.size).map (number ⟨·⟩) = forest.selfAndDescendants id →
        List.Forall₂ (forest.StandsFor number) (layOut start tree)
          (forest.selfAndDescendants id) := by
  refine arboreal.descend (motive := fun id => ∀ start tree, forest.parseTree? id = some tree →
    (List.range' start tree.size).map (number ⟨·⟩) = forest.selfAndDescendants id →
      List.Forall₂ (forest.StandsFor number) (layOut start tree) (forest.selfAndDescendants id))
    (fun id h ih start tree hTree hNumber => ?_) h
  obtain ⟨node, hNode⟩ := arboreal.exists_get? h
  obtain ⟨trees, hTrees, hRead⟩ := arboreal.exists_parseTree?_eq h hNode
  rw [hTree, Option.some_inj] at hRead
  have hLabel := label?_of_get? hNode
  rw [← children_of_get? hNode] at hTrees
  rw [hRead, ParseTree.size, List.range'_succ, List.map_cons,
    arboreal.selfAndDescendants_eq h] at hNumber
  obtain ⟨-, hBelow⟩ := List.cons.inj hNumber
  have hReaches : ∀ child ∈ forest.children id, forest.Reaches .root child :=
    fun child hChild => h.trans (Reaches.of_mem_children hChild)
  obtain ⟨hIds, hAll⟩ := arboreal.standsFor_layOutAll hTrees hReaches ih (start + 1) hBelow
  rw [arboreal.selfAndDescendants_eq h, hRead, layOut]
  exact .cons ⟨hLabel, hIds.symm⟩ hAll

/-- What stands in the table of the tree is what is listed, and what does not is not there. -/
theorem standsFor_or_notMem (hTree : forest.parseTree? .root = some tree) (id : NodeId) :
    (∃ node, (ofParseTree tree).get? id = some node ∧
      forest.StandsFor forest.nodeAt node (forest.nodeAt id)) ∨
    (id ∉ ofParseTree tree ∧ forest.nodeAt id ∉ forest) := by
  have hRoot := Reaches.refl forest .root
  have hLength : forest.reachable.length = tree.size :=
    arboreal.length_selfAndDescendants hRoot tree hTree
  have hLess := arboreal.length_reachable_le
  have hNumber : (List.range' 0 tree.size).map (forest.nodeAt ⟨·⟩) = forest.reachable := by
    refine List.ext_getElem (by rw [List.length_map, List.length_range', hLength]) ?_
    intro index hIndex hListed
    rw [List.getElem_map, List.getElem_range', Nat.zero_add, Nat.one_mul]
    exact nodeAt_of_getElem? (List.getElem?_eq_getElem hListed)
  obtain ⟨-, hStands⟩ := List.forall₂_iff_get.mp
    (arboreal.standsFor_layOut hRoot 0 tree hTree hNumber)
  rw [mem_def, mem_def, size_ofParseTree]
  rcases Nat.lt_or_ge id.index tree.size with hIndex | hIndex
  · have hListed : id.index < forest.reachable.length := by omega
    have hTable : id.index < (layOut 0 tree).length := by rwa [ParseTree.length_layOut]
    refine .inl ⟨_, List.getElem?_toArray.trans (List.getElem?_eq_getElem hTable), ?_⟩
    rw [nodeAt_of_getElem? (List.getElem?_eq_getElem hListed)]
    exact hStands id.index hTable hListed
  · rw [nodeAt_of_length_le (by omega)]
    exact .inr ⟨by omega, by dsimp only; omega⟩

/-- **An arboreal forest copies the forest of its tree.** -/
theorem copiesDownwards (hTree : forest.parseTree? .root = some tree) :
    arboreal.numbering.CopiesDownwards (ofParseTree tree) forest := by
  have hLength : forest.reachable.length = tree.size :=
    arboreal.length_selfAndDescendants (Reaches.refl forest .root) tree hTree
  refine ⟨fun id => ?_, fun id => ?_, ?_, (Nat.zero_add _).symm, fun index hIndex => ?_⟩
  · rcases arboreal.standsFor_or_notMem hTree id with ⟨node, hNode, hLabel, -⟩ | ⟨hId, hOther⟩
    · rw [label?_of_get? hNode]
      exact hLabel
    · rw [label?, label?, get?_eq_none_iff_notMem.mpr hId]
      exact congrArg (Option.map Node.unlinked) (get?_eq_none_iff_notMem.mpr hOther)
  · rcases arboreal.standsFor_or_notMem hTree id with ⟨node, hNode, -, hChildren⟩ | ⟨hId, hOther⟩
    · rw [children_of_get? hNode]
      exact hChildren
    · rw [children_eq_nil hId, List.map_nil]
      exact children_eq_nil hOther
  · rw [size_ofParseTree, ← hLength]
    exact (Nat.add_sub_of_le arboreal.length_reachable_le).symm
  · rw [size_ofParseTree, ← hLength] at hIndex
    exact nodeAt_of_length_le hIndex

end Arboreal

end Forest

end WikiMarkup
