import WikiMarkup.Proofs.Forest.Enumeration

/-!
# Going through a checked forest

Searching a forest and printing it do not look out for cycles. A search keeps a stack of nodes: the
one on top comes out, and its children take its place (`Forest.Search`). Printing goes down from
each node to its children, one level further in (`Forest.Prints`). Neither has a bound, so each may
go on for ever in a forest with arbitrary links.

**Key result.** `check_decides_and_traversal_ends`: checking decides whether the links are as they
should be, and if they are both come to their end. There may still be a cycle in what is not below
the root; below it there is none, because the root has no parent and no node has two.
-/

namespace WikiMarkup

namespace Forest

open ParseTree (heading indent outlineAll)

/-! ### Without a bound -/

/-- A search of what is on a stack comes to its end with a list of nodes. -/
inductive Search (forest : Forest) : List NodeId → List NodeId → Prop
  /-- The stack is empty. -/
  | done : Search forest [] []
  /-- The children of the node on top take its place. -/
  | visit {id : NodeId} {stack found : List NodeId}
      (h : Search forest (forest.children id ++ stack) found) :
      Search forest (id :: stack) (id :: found)

/-- Printing nodes at some depth, each with what is below it, comes to its end with a text. -/
inductive Prints (forest : Forest) : Nat → List NodeId → String → Prop
  /-- There is nothing to print. -/
  | nil {depth : Nat} : Prints forest depth [] ""
  /-- A node that does not exist is passed over. -/
  | missing {depth : Nat} {id : NodeId} {ids : List NodeId} {text : String}
      (hNone : forest.get? id = none) (hRest : Prints forest depth ids text) :
      Prints forest depth (id :: ids) text
  /-- The line of a node comes before what is below it. -/
  | node {depth : Nat} {id : NodeId} {ids : List NodeId} {node : Node} {below text : String}
      (hNode : forest.get? id = some node)
      (hBelow : Prints forest (depth + 1) node.children below)
      (hRest : Prints forest depth ids text) :
      Prints forest depth (id :: ids)
        (indent depth ++ heading node.kind node.caption node.headingLevel ++ "\n" ++ below ++ text)

variable {forest : Forest} {id : NodeId} {ids stack found : List NodeId} {depth : Nat}
  {text : String}

/-- There is only one way to search. -/
theorem Search.unique (h : forest.Search stack found) {others : List NodeId}
    (hOther : forest.Search stack others) : others = found := by
  induction h generalizing others with
  | done =>
    cases hOther
    rfl
  | visit _ ih =>
    cases hOther with
    | visit hOther => rw [ih hOther]

/-- There is only one way to print. -/
theorem Prints.unique (h : forest.Prints depth ids text) {others : String}
    (hOther : forest.Prints depth ids others) : others = text := by
  induction h generalizing others with
  | nil =>
    cases hOther
    rfl
  | missing hNone _ ih =>
    cases hOther with
    | missing _ hOther => exact ih hOther
    | node hNode => cases hNone.symm.trans hNode
  | node hNode _ _ ihBelow ihRest =>
    cases hOther with
    | missing hNone => cases hNone.symm.trans hNode
    | node hOther hBelow hRest =>
      obtain rfl := Option.some.inj (hOther.symm.trans hNode)
      rw [ihBelow hBelow, ihRest hRest]

/-! ### They come to their end -/

/-- Nodes whose searches come to their end may be searched one after the other. -/
theorem search_flatMap
    (h : ∀ id ∈ ids, ∀ stack found, forest.Search stack found →
      forest.Search (id :: stack) (forest.selfAndDescendants id ++ found))
    (hStack : forest.Search stack found) :
    forest.Search (ids ++ stack) (ids.flatMap forest.selfAndDescendants ++ found) := by
  induction ids with
  | nil => exact hStack
  | cons id ids ih =>
    obtain ⟨hHead, hTail⟩ := List.forall_mem_cons.mp h
    rw [List.flatMap_cons, List.append_assoc]
    exact hHead _ _ (ih hTail)

/-- So may nodes whose trees are printed. -/
theorem prints_outlineAll {trees : List ParseTree}
    (hTrees : List.Forall₂ (fun id tree => forest.parseTree? id = some tree) ids trees)
    (h : ∀ id ∈ ids, ∀ tree, forest.parseTree? id = some tree → ∀ rest text,
      forest.Prints depth rest text →
        forest.Prints depth (id :: rest) (tree.outlineAt depth ++ text)) :
    forest.Prints depth ids (outlineAll depth trees) := by
  induction hTrees with
  | nil => exact .nil
  | cons hTree _ ih =>
    obtain ⟨hHead, hTail⟩ := List.forall_mem_cons.mp h
    exact hHead _ hTree _ _ (ih hTail)

/-- **A search comes to its end** with what is listed. -/
theorem Deepens.search {Met : NodeId → Prop} (deepens : forest.Deepens Met) (h : Met id) :
    ∀ stack found, forest.Search stack found →
      forest.Search (id :: stack) (forest.selfAndDescendants id ++ found) := by
  refine deepens.descend (motive := fun id => ∀ stack found, forest.Search stack found →
    forest.Search (id :: stack) (forest.selfAndDescendants id ++ found))
    (fun id h ih stack found hStack => ?_) h
  rw [deepens.selfAndDescendants_eq h]
  exact .visit (search_flatMap ih hStack)

namespace Arboreal

variable (arboreal : forest.Arboreal)

include arboreal

/-- **Printing comes to its end** with the outline of the tree. -/
theorem prints (h : forest.Reaches .root id) :
    ∀ depth tree, forest.parseTree? id = some tree → ∀ rest text,
      forest.Prints depth rest text →
        forest.Prints depth (id :: rest) (tree.outlineAt depth ++ text) := by
  refine arboreal.descend (motive := fun id => ∀ depth tree, forest.parseTree? id = some tree →
    ∀ rest text, forest.Prints depth rest text →
      forest.Prints depth (id :: rest) (tree.outlineAt depth ++ text))
    (fun id h ih depth tree hTree rest text hRest => ?_) h
  obtain ⟨node, hNode⟩ := arboreal.exists_get? h
  obtain ⟨trees, hTrees, hRead⟩ := arboreal.exists_parseTree?_eq h hNode
  rw [hTree, Option.some_inj] at hRead
  rw [hRead, ParseTree.outlineAt]
  rw [children_of_get? hNode] at ih
  exact .node hNode (prints_outlineAll hTrees fun child hChild => ih child hChild (depth + 1)) hRest

end Arboreal

/-! ### Checked forests -/

/-- The links of a forest are as they should be. -/
structure Consistent (forest : Forest) : Prop where
  /-- The root has no parent. -/
  root_parent : forest.parent? .root = none
  /-- What is listed exists. -/
  child_mem : ∀ parent child : NodeId, child ∈ forest.children parent → child ∈ forest
  /-- What is a parent exists. -/
  parent_mem : ∀ child parent : NodeId, forest.parent? child = some parent → parent ∈ forest
  /-- A node has a parent exactly if the parent lists it. -/
  parent_iff : ∀ parent ∈ forest, ∀ child ∈ forest,
    forest.parent? child = some parent ↔ child ∈ forest.children parent
  /-- Nothing is listed twice by one node. -/
  nodup : ∀ parent : NodeId, (forest.children parent).Nodup

/-- What is found by going through a forest. -/
structure Traversed (forest : Forest) : Prop where
  /-- A search from the root comes to its end, with the nodes that are listed. -/
  search_iff : ∀ found, forest.Search [.root] found ↔ found = forest.reachable
  /-- It finds nothing twice. -/
  nodup : forest.reachable.Nodup
  /-- It finds what going down along children leads to. -/
  mem_iff_reaches : ∀ id : NodeId, id ∈ forest.reachable ↔ forest.Reaches .root id
  /-- This is what climbing along parents leads from to the root. -/
  mem_iff_ancestor : ∀ id : NodeId,
    id ∈ forest.reachable ↔ id = .root ∨ forest.Ancestor .root id
  /-- Printing comes to its end, with the outline. -/
  prints_iff : ∀ text, forest.Prints 0 [.root] text ↔ text = forest.outline

theorem consistent_iff_linked : forest.Consistent ↔ forest.Linked := by
  refine ⟨fun consistent => ⟨consistent.root_parent, ⟨fun h => ?_, fun h => ?_⟩,
    consistent.nodup⟩, fun linked => ⟨linked.root_parent, fun _ _ => linked.mem_children_right,
    fun _ _ => linked.mem_of_parent?_right, fun _ _ _ _ => linked.parent_iff, linked.nodup⟩⟩
  · exact (consistent.parent_iff _ (consistent.parent_mem _ _ h) _ (mem_of_parent? h)).mp h
  · exact (consistent.parent_iff _ (mem_of_mem_children h) _ (consistent.child_mem _ _ h)).mpr h

theorem Linked.traversed (linked : forest.Linked) : forest.Traversed := by
  have arboreal := linked.arboreal
  have hRoot := Reaches.refl forest .root
  have hSearch : forest.Search [.root] forest.reachable := by
    simpa [reachable] using arboreal.deepens.search hRoot [] [] .done
  obtain ⟨tree, hTree⟩ := arboreal.exists_parseTree? hRoot
  have hPrints : forest.Prints 0 [.root] forest.outline := by
    rw [outline, hTree, Option.map_some, Option.getD_some, ParseTree.outline]
    simpa using arboreal.prints hRoot 0 tree hTree [] "" .nil
  refine ⟨fun found => ⟨hSearch.unique, fun h => h ▸ hSearch⟩, arboreal.nodup_reachable,
    fun id => arboreal.mem_reachable_iff, fun id => ?_,
    fun text => ⟨hPrints.unique, fun h => h ▸ hPrints⟩⟩
  rw [arboreal.mem_reachable_iff, linked.reaches_iff_eq_or_ancestor, eq_comm]

/-- **Checking decides whether the links are as they should be**, whatever has been written into the
table. If they are, searching and printing come to their end without looking out for cycles: a
search finds every node below the root once, and nothing else, and these are the nodes from which
climbing along parents leads to the root. -/
theorem check_decides_and_traversal_ends (forest : Forest) :
    (forest.check = .ok () ↔ forest.Consistent) ∧
      (forest.check = .ok () → forest.Traversed) :=
  ⟨check_eq_ok_iff.trans consistent_iff_linked.symm, fun h => (check_eq_ok_iff.mp h).traversed⟩

/-- A page with one text, and two groups off the page that are parents of each other. -/
def pageWithRing : Forest where
  nodes := #[{ kind := .article, children := [⟨1⟩] },
    { kind := .text, caption := "a", parent := some .root },
    { kind := .group, children := [⟨3⟩], parent := some ⟨3⟩ },
    { kind := .group, children := [⟨2⟩], parent := some ⟨2⟩ }]
  nonempty := by decide

/-- The cycle passes the check, and is not met below the root. -/
theorem check_decides_and_traversal_ends_pageWithRing :
    pageWithRing.check = .ok () ∧ pageWithRing.Consistent ∧ ¬ pageWithRing.WellFormed ∧
      pageWithRing.Search [.root] [⟨0⟩, ⟨1⟩] ∧
      pageWithRing.Prints 0 [.root] "Article\n  Text \"a\"\n" := by
  have hCheck : pageWithRing.check = .ok () := rfl
  obtain ⟨hDecides, hEnds⟩ := check_decides_and_traversal_ends pageWithRing
  have traversed := hEnds hCheck
  refine ⟨hCheck, hDecides.mp hCheck, fun wellFormed => ?_,
    (traversed.search_iff _).mpr (by decide +kernel),
    (traversed.prints_iff _).mpr (by decide +kernel)⟩
  have hRing : pageWithRing.Ancestor ⟨2⟩ ⟨2⟩ := .head (.refl _) (.single rfl)
  exact wellFormed.not_ancestor_self hRing

end Forest

end WikiMarkup
