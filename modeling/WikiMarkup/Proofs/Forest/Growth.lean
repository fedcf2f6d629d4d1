import WikiMarkup.Proofs.Forest.Traversal
import WikiMarkup.Proofs.Forest.Linking

/-!
# Growing a forest node by node

A parser may hand over its tree one node at a time: a node is put at the end of the table, its
children are handed over one after the other, and each of them is entered in the list of the node
once everything below it stands in the table (`ParseTree.grow`). While the children are handed over
the node therefore lists only some of them.

In the end this is the layout of the tree (`ParseTree.grow_eq`), because the nodes of a tree take up
numbers that follow one another, and the only entry changed afterwards is that of the node above.

**Key result.** `ofParseTree_lossless`: the forest of a tree is the one that is grown. It has as
many nodes as the tree, a search from the root meets them in the order of their numbers, and the
tree is read back from them. Nothing has a parent until all are linked, and then the forest passes
the check.
-/

namespace WikiMarkup

namespace ParseTree

/-! ### Node by node -/

/-- The table with an identifier entered last in the list of a node. -/
def enter (parent child : NodeId) (nodes : Array Node) : Array Node :=
  nodes.modify parent.index fun node => { node with children := node.children ++ [child] }

mutual

/-- Puts a tree at the end of a table, and says where its top node stands. -/
def grow : ParseTree → Array Node → NodeId × Array Node
  | node kind caption children headingLevel inlineHint, nodes =>
    (⟨nodes.size⟩, growAll ⟨nodes.size⟩ children (nodes.push
      { kind := kind, caption := caption, headingLevel := headingLevel, inlineHint := inlineHint }))

/-- Puts trees at the end of a table, one after the other, and enters each in the list of a
parent. -/
def growAll (parent : NodeId) : List ParseTree → Array Node → Array Node
  | [], nodes => nodes
  | tree :: trees, nodes =>
    growAll parent trees (enter parent (tree.grow nodes).1 (tree.grow nodes).2)

end

/-- Changing a node of a table does not depend on what comes after the table. -/
theorem modify_append {nodes more : Array Node} {index : Nat} (h : index < nodes.size)
    (change : Node → Node) :
    (nodes ++ more).modify index change = nodes.modify index change ++ more := by
  refine Array.ext_getElem? fun other => ?_
  rw [Array.getElem?_modify, Array.getElem?_append, Array.getElem?_append, Array.size_modify,
    Array.getElem?_modify]
  by_cases hOther : other < nodes.size
  · rw [if_pos hOther, if_pos hOther]
  · rw [if_neg hOther, if_neg hOther, if_neg (by omega)]

/-- The node that has just been put at the end is the one that stands at the old size. -/
theorem modify_push (nodes : Array Node) (last : Node) (change : Node → Node) :
    (nodes.push last).modify nodes.size change = nodes.push (change last) := by
  refine Array.ext_getElem? fun other => ?_
  rw [Array.getElem?_modify, Array.getElem?_push, Array.getElem?_push]
  split
  next h => rw [if_pos h.symm, if_pos h.symm, Option.map_some]
  next h => rw [if_neg (Ne.symm h), if_neg (Ne.symm h)]

/-- To enter two lists of identifiers one after the other is to enter both. -/
theorem modify_children_modify_children (nodes : Array Node) (index : Nat)
    (first second : List NodeId) :
    (nodes.modify index fun node => { node with children := node.children ++ first }).modify index
        (fun node => { node with children := node.children ++ second }) =
      nodes.modify index fun node =>
        { node with children := node.children ++ (first ++ second) } := by
  refine Array.ext_getElem? fun other => ?_
  rw [Array.getElem?_modify, Array.getElem?_modify, Array.getElem?_modify]
  split
  · rw [Option.map_map]
    simp only [Function.comp_def, List.append_assoc]
  · rfl

/-- To enter no identifier changes nothing. -/
theorem modify_children_nil (nodes : Array Node) (index : Nat) :
    (nodes.modify index fun node => { node with children := node.children ++ [] }) = nodes := by
  refine Array.ext_getElem? fun other => ?_
  rw [Array.getElem?_modify]
  split
  · simp only [List.append_nil, Option.map_id']
  · rfl

mutual

/-- **Growing a tree lays it out** at the end of the table. -/
theorem grow_eq : ∀ (tree : ParseTree) (nodes : Array Node),
    tree.grow nodes = (⟨nodes.size⟩, nodes ++ (layOut nodes.size tree).toArray)
  | node kind caption children headingLevel inlineHint, nodes => by
    rw [grow, growAll_eq children _ (by rw [Array.size_push]; exact Nat.lt_succ_self _),
      modify_push, Array.size_push, layOut, List.nil_append, List.toArray_cons,
      Array.push_eq_append, Array.append_assoc]

/-- Growing several trees lays them out, and enters their top nodes. -/
theorem growAll_eq {parent : NodeId} : ∀ (trees : List ParseTree) (nodes : Array Node),
    parent.index < nodes.size →
      growAll parent trees nodes =
        (nodes.modify parent.index fun node =>
          { node with children := node.children ++ topIds nodes.size trees }) ++
            (layOutAll nodes.size trees).toArray
  | [], nodes, _ => by
    rw [growAll, topIds, layOutAll, modify_children_nil, Array.append_empty]
  | tree :: trees, nodes, hParent => by
    have hSize : (enter parent (tree.grow nodes).1 (tree.grow nodes).2).size =
        nodes.size + tree.size := by
      rw [grow_eq, enter, Array.size_modify, Array.size_append, ← Array.length_toList,
        ← Array.length_toList, List.toList_toArray, length_layOut]
    rw [growAll, growAll_eq trees _ (by omega), hSize, grow_eq, enter, modify_append hParent,
      modify_append (by rwa [Array.size_modify]), modify_children_modify_children, topIds,
      layOutAll, ← List.append_toArray, Array.append_assoc, List.singleton_append]

end

end ParseTree

namespace Forest

open ParseTree (layOut layOutAll topIds sizeAll)

/-! ### The search -/

mutual

/-- A search of a tree that stands in the table meets its nodes in the order of their numbers. -/
theorem search_of_holdsAt {forest : Forest} {start : Nat} {stack found : List NodeId} :
    ∀ tree : ParseTree, forest.HoldsAt start (layOut start tree) → forest.Search stack found →
      forest.Search (⟨start⟩ :: stack) ((List.range' start tree.size).map NodeId.mk ++ found)
  | .node _ _ children _ _, hHolds, hStack => by
    rw [layOut] at hHolds
    have hChildren := search_topIds_of_holdsAt children hHolds.tail hStack
    rw [ParseTree.size, List.range'_succ, List.map_cons, List.cons_append]
    refine .visit ?_
    rw [children_of_get? hHolds.head]
    exact hChildren

theorem search_topIds_of_holdsAt {forest : Forest} {start : Nat} {stack found : List NodeId} :
    ∀ trees : List ParseTree, forest.HoldsAt start (layOutAll start trees) →
      forest.Search stack found →
      forest.Search (topIds start trees ++ stack)
        ((List.range' start (sizeAll trees)).map NodeId.mk ++ found)
  | [], _, hStack => hStack
  | tree :: trees, hHolds, hStack => by
    rw [layOutAll] at hHolds
    have hTrees := ParseTree.length_layOut start tree ▸ hHolds.right
    rw [topIds, sizeAll, ← List.range'_append_1, List.map_append, List.append_assoc,
      List.cons_append]
    exact search_of_holdsAt tree hHolds.left (search_topIds_of_holdsAt trees hTrees hStack)

end

/-- A search of the forest of a tree meets all nodes in the order of their numbers. -/
theorem search_ofParseTree (tree : ParseTree) :
    (ofParseTree tree).Search [.root] ((List.range tree.size).map NodeId.mk) := by
  rw [List.range_eq_range', ← List.append_nil (List.map _ _)]
  exact search_of_holdsAt tree (holdsAt_ofParseTree tree) .done

/-- So does the listing of what is below the root. -/
theorem reachable_ofParseTree (tree : ParseTree) :
    (ofParseTree tree).reachable = (List.range tree.size).map NodeId.mk := by
  refine (search_ofParseTree tree).unique ?_
  rw [← List.append_nil (ofParseTree tree).reachable]
  exact (arboreal_ofParseTree tree).deepens.search (Reaches.refl _ .root) [] [] .done

/-- **Nothing is lost when a forest is made from a tree**, and its nodes are numbered in reading
order. -/
theorem ofParseTree_lossless (tree : ParseTree) :
    (ofParseTree tree).nodes = (tree.grow #[]).2 ∧
      (ofParseTree tree).size = tree.size ∧
      (∀ found, (ofParseTree tree).Search [.root] found ↔
        found = (List.range tree.size).map NodeId.mk) ∧
      (ofParseTree tree).reachable = (List.range tree.size).map NodeId.mk ∧
      (ofParseTree tree).parseTree? .root = some tree ∧
      (∀ id, (ofParseTree tree).parent? id = none) ∧
      ∃ linked, Edit.linkUpwards.run (ofParseTree tree) = .ok () linked ∧
        linked.check = .ok () := by
  have hSearch := search_ofParseTree tree
  obtain ⟨linked, hRun, hLinked, -⟩ := Edit.linkUpwards_run tree
  refine ⟨?_, size_ofParseTree tree, fun found => ⟨hSearch.unique, fun h => h ▸ hSearch⟩,
    reachable_ofParseTree tree, parseTree?_ofParseTree tree, parent?_ofParseTree tree, linked, hRun,
    hLinked.check_eq_ok⟩
  rw [ParseTree.grow_eq, Array.empty_append, ofParseTree, List.size_toArray, List.length_nil]

end Forest

end WikiMarkup
