import WikiMarkup.Forest.Document
import WikiMarkup.Proofs.Forest.Ancestry
import Mathlib.Data.List.Perm.Basic

/-!
# The forest of a parse tree

Laying out a tree numbers its nodes in reading order. So every number but the first is listed
exactly once (`listings_layOut`), and by a node with a smaller one (`lt_of_mem_children_layOut`).
In the forest of the tree all nodes are therefore below the root (`reaches_ofParseTree`).
-/

namespace WikiMarkup

namespace ParseTree

/-! ### Layouts -/

mutual

/-- A tree is laid out as one node for each of its own. -/
theorem length_layOut (start : Nat) :
    ∀ tree : ParseTree, (layOut start tree).length = tree.size
  | node _ _ children _ _ => by
    rw [layOut, List.length_cons, length_layOutAll, size]

theorem length_layOutAll (start : Nat) :
    ∀ trees : List ParseTree, (layOutAll start trees).length = sizeAll trees
  | [] => rfl
  | tree :: trees => by
    rw [layOutAll, List.length_append, length_layOut, length_layOutAll, sizeAll]

end

mutual

/-- The number of the top node and the listings make up all numbers of a tree. -/
theorem listings_layOut (start : Nat) :
    ∀ tree : ParseTree, (⟨start⟩ :: (layOut start tree).flatMap Node.children).Perm
      ((List.range' start tree.size).map NodeId.mk)
  | node _ _ children _ _ => by
    rw [layOut, List.flatMap_cons, size, List.range'_succ, List.map_cons]
    exact (listings_layOutAll (start + 1) children).cons ⟨start⟩

/-- The numbers of the top nodes and the listings make up all numbers of several trees. -/
theorem listings_layOutAll (start : Nat) :
    ∀ trees : List ParseTree,
      (topIds start trees ++ (layOutAll start trees).flatMap Node.children).Perm
        ((List.range' start (sizeAll trees)).map NodeId.mk)
  | [] => .nil
  | tree :: trees => by
    rw [topIds, layOutAll, List.flatMap_append, sizeAll, ← List.range'_append_1, List.map_append,
      List.cons_append]
    refine (List.Perm.cons _ (List.perm_append_comm_assoc _ _ _)).trans ?_
    exact (listings_layOut start tree).append (listings_layOutAll (start + tree.size) trees)

end

mutual

/-- A layout has no links upwards. -/
theorem parent_of_mem_layOut (start : Nat) :
    ∀ (tree : ParseTree) {found : Node}, found ∈ layOut start tree → found.parent = none
  | node _ _ children _ _, found, h => by
    rw [layOut, List.mem_cons] at h
    rcases h with rfl | h
    · rfl
    · exact parent_of_mem_layOutAll (start + 1) children h

theorem parent_of_mem_layOutAll (start : Nat) :
    ∀ (trees : List ParseTree) {found : Node}, found ∈ layOutAll start trees → found.parent = none
  | [], found, h => by
    cases h
  | tree :: trees, found, h => by
    rw [layOutAll, List.mem_append] at h
    rcases h with h | h
    · exact parent_of_mem_layOut start tree h
    · exact parent_of_mem_layOutAll (start + tree.size) trees h

end

/-- The top nodes of trees are numbered from the start. -/
theorem le_of_mem_topIds {start : Nat} {id : NodeId} {trees : List ParseTree}
    (h : id ∈ topIds start trees) : start ≤ id.index := by
  induction trees generalizing start with
  | nil => cases h
  | cons tree trees ih =>
    rw [topIds, List.mem_cons] at h
    rcases h with rfl | h
    · exact Nat.le_refl start
    · exact (Nat.le_add_right start tree.size).trans (ih h)

mutual

/-- A node lists only nodes with greater numbers. -/
theorem lt_of_mem_children_layOut (start : Nat) :
    ∀ (tree : ParseTree) {index : Nat} {node : Node} {child : NodeId},
      (layOut start tree)[index]? = some node → child ∈ node.children →
        start + index < child.index
  | node kind caption children headingLevel inlineHint, index, found, child, hFound, hChild => by
    rw [layOut] at hFound
    cases index with
    | zero =>
      rw [List.getElem?_cons_zero, Option.some_inj] at hFound
      rw [← hFound] at hChild
      exact le_of_mem_topIds hChild
    | succ index =>
      rw [List.getElem?_cons_succ] at hFound
      have hLess := lt_of_mem_children_layOutAll (start + 1) children hFound hChild
      omega

theorem lt_of_mem_children_layOutAll (start : Nat) :
    ∀ (trees : List ParseTree) {index : Nat} {node : Node} {child : NodeId},
      (layOutAll start trees)[index]? = some node → child ∈ node.children →
        start + index < child.index
  | [], index, found, child, hFound, hChild => by
    cases hFound
  | tree :: trees, index, found, child, hFound, hChild => by
    rw [layOutAll, List.getElem?_append, length_layOut] at hFound
    split at hFound
    next => exact lt_of_mem_children_layOut start tree hFound hChild
    next =>
      have hLess := lt_of_mem_children_layOutAll (start + tree.size) trees hFound hChild
      omega

end

end ParseTree

namespace Forest

open ParseTree

variable {tree : ParseTree} {id parent other child : NodeId}

/-! ### Forests -/

theorem size_ofParseTree (tree : ParseTree) : (ofParseTree tree).size = tree.size := by
  rw [size, ofParseTree, List.size_toArray, length_layOut]

/-- A forest that comes from a tree has no links upwards. -/
theorem parent?_ofParseTree (tree : ParseTree) (id : NodeId) :
    (ofParseTree tree).parent? id = none := by
  rw [parent?, get?, ofParseTree, List.getElem?_toArray, Option.bind_eq_none_iff]
  exact fun found h => parent_of_mem_layOut 0 tree (List.mem_of_getElem? h)

/-- Children have greater numbers than their parents. -/
theorem lt_of_mem_children_ofParseTree (h : child ∈ (ofParseTree tree).children parent) :
    parent.index < child.index := by
  obtain ⟨node, hNode⟩ := mem_iff_exists_get?.mp (mem_of_mem_children h)
  rw [children_of_get? hNode] at h
  rw [get?, ofParseTree, List.getElem?_toArray] at hNode
  have hLess := lt_of_mem_children_layOut 0 tree hNode h
  omega

/-- The root and the listings make up all nodes. -/
theorem listed_ofParseTree (tree : ParseTree) :
    (.root :: (ofParseTree tree).listed).Perm (ofParseTree tree).ids := by
  rw [ids, size_ofParseTree, List.range_eq_range']
  exact listings_layOut 0 tree

/-- Every node of a tree but its top is listed. -/
theorem mem_listed_ofParseTree :
    id ∈ (ofParseTree tree).listed ↔ id ∈ ofParseTree tree ∧ id ≠ .root := by
  have hNodup := (listed_ofParseTree tree).nodup_iff.mpr (nodup_ids _)
  rw [List.nodup_cons] at hNodup
  rw [← mem_ids, ← (listed_ofParseTree tree).mem_iff, List.mem_cons]
  constructor
  · exact fun h => ⟨.inr h, fun hRoot => hNodup.1 (hRoot ▸ h)⟩
  · exact fun h => h.1.resolve_left h.2

/-- Everything is below the root. -/
theorem reaches_ofParseTree (h : id ∈ ofParseTree tree) : (ofParseTree tree).Reaches .root id := by
  induction hIndex : id.index using Nat.strongRec generalizing id with
  | _ index ih =>
    by_cases hRoot : id = .root
    · rw [hRoot]
    · obtain ⟨parent, hParent⟩ := mem_listed_iff.mp (mem_listed_ofParseTree.mpr ⟨h, hRoot⟩)
      -- the parent has a smaller number
      have hLess := lt_of_mem_children_ofParseTree hParent
      exact (ih parent.index (hIndex ▸ hLess) (mem_of_mem_children hParent) rfl).trans
        (Reaches.of_mem_children hParent)

end Forest

end WikiMarkup
