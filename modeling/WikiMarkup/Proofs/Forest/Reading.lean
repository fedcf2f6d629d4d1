import WikiMarkup.Proofs.Forest.Document
import WikiMarkup.Proofs.Forest.ReadingOrder
import Mathlib.Data.List.Forall2

/-!
# Reading back what is below the root

The links of a forest need not agree for what is below its root to be a tree. A forest is
`Arboreal` if going down from the root meets only nodes that exist, and meets each of them in one
way only. Parents play no part in this, nor do nodes that are not met.

**Key results.** Below the root of an arboreal forest there is no cycle
(`Arboreal.not_reaches_of_mem_children`), so listings and trees are settled by those of the children
(`Arboreal.selfAndDescendants_eq`, `Arboreal.exists_parseTree?_eq`). Forests whose links agree are
arboreal, and so are those of parse trees, which are read back as they were
(`parseTree?_ofParseTree`).
-/

namespace WikiMarkup

namespace Forest

/-- What can be reached from the root is a finite tree: all of it exists, and nothing is reached in
two ways. -/
structure Arboreal (forest : Forest) : Prop where
  /-- What is reached exists. -/
  mem : ∀ {id : NodeId}, forest.Reaches .root id → id ∈ forest
  /-- The root is not reached again. -/
  root_notMem : ∀ {parent : NodeId}, forest.Reaches .root parent →
    .root ∉ forest.children parent
  /-- Nothing is listed twice by one node. -/
  nodup : ∀ {parent : NodeId}, forest.Reaches .root parent → (forest.children parent).Nodup
  /-- Nothing is listed by two nodes. -/
  unique : ∀ {parent other child : NodeId}, forest.Reaches .root parent →
    forest.Reaches .root other → child ∈ forest.children parent → child ∈ forest.children other →
    parent = other

variable {forest : Forest} {id parent child : NodeId} {node : Node}

/-! ### Which forests are arboreal -/

/-- Links that agree are enough: cycles of parents may be elsewhere, but not below the root. -/
theorem Linked.arboreal (linked : forest.Linked) : forest.Arboreal where
  mem := linked.mem_of_reaches forest.root_mem
  root_notMem _ := linked.notMem_children_root
  nodup _ := linked.nodup _
  unique _ _ h hOther := linked.eq_of_mem_children h hOther

theorem WellFormed.arboreal (wellFormed : forest.WellFormed) : forest.Arboreal :=
  wellFormed.linked.arboreal

/-- A list of nodes that holds the root and what each of its nodes lists, and in which nothing but
the root goes unlisted or is listed twice, makes a tree. -/
theorem arboreal_of_nodup {ids : List NodeId} (hRoot : .root ∈ ids) (hMem : ∀ id ∈ ids, id ∈ forest)
    (hBelow : ids.flatMap forest.children ⊆ ids)
    (hNodup : (.root :: ids.flatMap forest.children).Nodup) : forest.Arboreal := by
  obtain ⟨hUnlisted, hNodup⟩ := List.nodup_cons.mp hNodup
  obtain ⟨hEach, hPairs⟩ := List.nodup_flatMap.mp hNodup
  have hListed : ∀ {id}, forest.Reaches .root id → id ∈ ids := by
    intro id h
    induction h with
    | refl => exact hRoot
    | tail _ hChild ih => exact hBelow (List.mem_flatMap.mpr ⟨_, ih, hChild⟩)
  refine ⟨fun h => hMem _ (hListed h),
    fun h hChild => hUnlisted (List.mem_flatMap.mpr ⟨_, hListed h, hChild⟩),
    fun h => hEach _ (hListed h), fun h hOther hChild hFound => ?_⟩
  by_contra hNe
  have hSymmetric : Std.Symm (Function.onFun List.Disjoint forest.children) :=
    ⟨fun _ _ hDisjoint _ hFirst hSecond => hDisjoint hSecond hFirst⟩
  exact hPairs.forall (hListed h) (hListed hOther) hNe hChild hFound

theorem arboreal_ofParseTree (tree : ParseTree) : (ofParseTree tree).Arboreal := by
  have hNodup := (listed_ofParseTree tree).nodup_iff.mpr (nodup_ids _)
  have hBelow : (ofParseTree tree).listed ⊆ (ofParseTree tree).ids := fun id h =>
    mem_ids.mpr (mem_listed_ofParseTree.mp h).1
  rw [listed_eq_flatMap] at hNodup hBelow
  exact arboreal_of_nodup (mem_ids.mpr (root_mem _)) (fun _ => mem_ids.mp) hBelow hNodup

namespace Arboreal

variable (arboreal : forest.Arboreal)

include arboreal

/-- What is reached from the root exists. -/
theorem exists_get? (h : forest.Reaches .root id) : ∃ node, forest.get? id = some node :=
  mem_iff_exists_get?.mp (arboreal.mem h)

/-! ### There are no cycles -/

/-- Going down from the root never comes back to where it was. -/
theorem not_reaches_of_mem_children (h : forest.Reaches .root parent)
    (hChild : child ∈ forest.children parent) : ¬ forest.Reaches child parent := by
  -- no node on the way down lies on a cycle, since a cycle has no entrance
  induction h generalizing child with
  | refl =>
    intro hBack
    rcases Relation.ReflTransGen.cases_tail hBack with h | ⟨last, hLast, hRoot⟩
    · exact arboreal.root_notMem (Reaches.refl forest .root) (h ▸ hChild)
    · exact arboreal.root_notMem ((Reaches.of_mem_children hChild).trans hLast) hRoot
  | @tail above parent hAbove hParent ih =>
    intro hBack
    have hReached := hAbove.trans (Reaches.of_mem_children hParent)
    obtain ⟨last, hLast, hCloses⟩ : ∃ last, forest.Reaches parent last ∧
        parent ∈ forest.children last := by
      rcases Relation.ReflTransGen.cases_tail hBack with h | ⟨last, hLast, hCloses⟩
      · exact ⟨parent, Reaches.refl forest parent, h ▸ hChild⟩
      · exact ⟨last, (Reaches.of_mem_children hChild).trans hLast, hCloses⟩
    have hSame := arboreal.unique hAbove (hReached.trans hLast) hParent hCloses
    exact ih hParent (hSame ▸ hLast)

/-- A child has more nodes above it. -/
theorem height_lt (h : forest.Reaches .root parent) (hChild : child ∈ forest.children parent) :
    forest.height parent < forest.height child := by
  have hReaches := Reaches.of_mem_children hChild
  exact height_lt_of_not_reaches (arboreal.mem (h.trans hReaches)) hReaches
    (arboreal.not_reaches_of_mem_children h hChild)

/-- Reaching from the root goes down. -/
theorem deepens : forest.Deepens (forest.Reaches .root) := fun _ _ h hChild =>
  ⟨h.trans (Reaches.of_mem_children hChild), arboreal.height_lt h hChild⟩

/-- What holds of a node below the root if it holds of its children holds of every such node. -/
theorem descend {motive : NodeId → Prop}
    (step : ∀ id, forest.Reaches .root id → (∀ child ∈ forest.children id, motive child) →
      motive id) (h : forest.Reaches .root id) : motive id :=
  arboreal.deepens.descend step h

theorem selfAndDescendants_eq (h : forest.Reaches .root id) :
    forest.selfAndDescendants id = id :: forest.descendants id :=
  arboreal.deepens.selfAndDescendants_eq h

/-- What is listed below the root is what is reached from it. -/
theorem mem_reachable_iff : id ∈ forest.reachable ↔ forest.Reaches .root id :=
  arboreal.deepens.mem_selfAndDescendants_iff (Reaches.refl forest .root)

/-! ### Trees -/

/-- Two readings that go deep enough give the same tree. -/
theorem readAt_eq_readAt {depth deeper : Nat} (h : forest.Reaches .root id)
    (hDepth : forest.size < depth + forest.height id)
    (hDeeper : forest.size < deeper + forest.height id) :
    forest.readAt depth id = forest.readAt deeper id := by
  have hHeight := forest.height_le_size id
  induction depth generalizing deeper id with
  | zero => omega
  | succ depth ih =>
    cases deeper with
    | zero => omega
    | succ deeper =>
      obtain ⟨node, hNode⟩ := arboreal.exists_get? h
      rw [readAt, readAt, hNode, Option.map_some, Option.map_some]
      have hChildren : node.children.filterMap (forest.readAt depth) =
          node.children.filterMap (forest.readAt deeper) := by
        refine List.filterMap_congr fun child hChild => ?_
        rw [← children_of_get? hNode] at hChild
        have hLower := arboreal.height_lt h hChild
        exact ih (h.trans (Reaches.of_mem_children hChild)) (by omega) (by omega)
          (forest.height_le_size child)
      rw [hChildren]

/-- **The tree of a node** is made of the node and the trees of its children. -/
theorem exists_parseTree?_eq (h : forest.Reaches .root id) (hNode : forest.get? id = some node) :
    ∃ trees, List.Forall₂ (fun child tree => forest.parseTree? child = some tree)
        node.children trees ∧
      forest.parseTree? id =
        some (.node node.kind node.caption trees node.headingLevel node.inlineHint) := by
  have hChildren : ∀ child ∈ node.children,
      ∃ tree, forest.parseTree? child = some tree ∧
        forest.readAt forest.size child = some tree := by
    intro child hChild
    rw [← children_of_get? hNode] at hChild
    have hReached := h.trans (Reaches.of_mem_children hChild)
    obtain ⟨other, hOther⟩ := arboreal.exists_get? hReached
    have hLower := arboreal.height_lt h hChild
    have hSame : forest.readAt forest.size child = forest.parseTree? child :=
      arboreal.readAt_eq_readAt hReached (by omega) (by omega)
    rw [hSame, parseTree?, readAt, hOther]
    exact ⟨_, rfl, rfl⟩
  suffices h : ∃ trees, List.Forall₂ (fun child tree => forest.parseTree? child = some tree)
      node.children trees ∧ node.children.filterMap (forest.readAt forest.size) = trees by
    obtain ⟨trees, hTrees, hRead⟩ := h
    refine ⟨trees, hTrees, ?_⟩
    rw [parseTree?, readAt, hNode, Option.map_some, hRead]
  generalize node.children = ids at hChildren
  induction ids with
  | nil => exact ⟨[], .nil, rfl⟩
  | cons child ids ih =>
    obtain ⟨⟨tree, hTree, hRead⟩, hIds⟩ := List.forall_mem_cons.mp hChildren
    obtain ⟨trees, hTrees, hReads⟩ := ih hIds
    exact ⟨tree :: trees, .cons hTree hTrees, by rw [List.filterMap_cons, hRead, hReads]⟩

/-- A tree is read at every node that is reached from the root. -/
theorem exists_parseTree? (h : forest.Reaches .root id) :
    ∃ tree, forest.parseTree? id = some tree := by
  obtain ⟨node, hNode⟩ := arboreal.exists_get? h
  obtain ⟨trees, -, hTree⟩ := arboreal.exists_parseTree?_eq h hNode
  exact ⟨_, hTree⟩

end Arboreal

/-! ### The forest of a parse tree -/

/-- Nodes stand in the table one after the other from a given number on. -/
def HoldsAt (forest : Forest) (start : Nat) (nodes : List Node) : Prop :=
  ∀ (index : Nat) (node : Node), nodes[index]? = some node →
    forest.get? ⟨start + index⟩ = some node

theorem HoldsAt.head {start : Nat} {nodes : List Node}
    (h : forest.HoldsAt start (node :: nodes)) : forest.get? ⟨start⟩ = some node :=
  h 0 node rfl

theorem HoldsAt.tail {start : Nat} {nodes : List Node}
    (h : forest.HoldsAt start (node :: nodes)) : forest.HoldsAt (start + 1) nodes := by
  intro index other hOther
  rw [Nat.add_assoc, Nat.add_comm 1]
  exact h (index + 1) other hOther

theorem HoldsAt.left {start : Nat} {nodes more : List Node}
    (h : forest.HoldsAt start (nodes ++ more)) : forest.HoldsAt start nodes := by
  intro index other hOther
  refine h index other ?_
  rw [List.getElem?_append_left (List.getElem?_eq_some_iff.mp hOther).1, hOther]

theorem HoldsAt.right {start : Nat} {nodes more : List Node}
    (h : forest.HoldsAt start (nodes ++ more)) :
    forest.HoldsAt (start + nodes.length) more := by
  intro index other hOther
  rw [Nat.add_assoc]
  refine h (nodes.length + index) other ?_
  rw [List.getElem?_append_right (Nat.le_add_right _ _), Nat.add_sub_cancel_left, hOther]

open ParseTree

mutual

/-- A tree is read back from where its layout stands. -/
theorem readAt_of_holdsAt {forest : Forest} {depth start : Nat} : ∀ tree : ParseTree,
    forest.HoldsAt start (layOut start tree) → tree.size ≤ depth →
      forest.readAt depth ⟨start⟩ = some tree
  | node _ _ children _ _, hHolds, hDepth => by
    rw [layOut] at hHolds
    rw [ParseTree.size] at hDepth
    obtain ⟨depth, rfl⟩ := Nat.exists_eq_add_of_lt (Nat.lt_of_lt_of_le (Nat.zero_lt_succ _) hDepth)
    rw [readAt, hHolds.head, Option.map_some]
    dsimp only
    rw [filterMap_readAt_of_holdsAt children hHolds.tail (by omega)]

theorem filterMap_readAt_of_holdsAt {forest : Forest} {depth start : Nat} :
    ∀ trees : List ParseTree, forest.HoldsAt start (layOutAll start trees) →
      sizeAll trees ≤ depth →
      (topIds start trees).filterMap (forest.readAt depth) = trees
  | [], _, _ => rfl
  | tree :: trees, hHolds, hDepth => by
    rw [layOutAll] at hHolds
    rw [sizeAll] at hDepth
    have hTrees := length_layOut start tree ▸ hHolds.right
    rw [topIds, List.filterMap_cons, readAt_of_holdsAt tree hHolds.left (by omega)]
    dsimp only
    rw [filterMap_readAt_of_holdsAt trees hTrees (by omega)]

end

/-- The forest of a tree holds its layout from the start. -/
theorem holdsAt_ofParseTree (tree : ParseTree) : (ofParseTree tree).HoldsAt 0 (layOut 0 tree) := by
  intro index node hNode
  rw [Nat.zero_add, get?, ofParseTree, List.getElem?_toArray]
  exact hNode

/-- **A parse tree is read back** from its forest. -/
theorem parseTree?_ofParseTree (tree : ParseTree) :
    (ofParseTree tree).parseTree? .root = some tree := by
  refine readAt_of_holdsAt tree (holdsAt_ofParseTree tree) ?_
  rw [size_ofParseTree]
  omega

end Forest

end WikiMarkup
