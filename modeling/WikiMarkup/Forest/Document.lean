import WikiMarkup.Forest.Navigation
import WikiMarkup.ParseTree

/-!
# Forests and parse trees

**From tree to forest.** `Forest.ofParseTree` numbers the nodes of a parse tree in reading order.
A tree whose top node gets the number `start` takes up the numbers from there on, so the children
of that node get `start + 1`, then `start + 1` plus the size of the first child, and so on. Only
the links downwards are filled in; `Edit.linkUpwards` derives the others. Numbers never wrap around,
so where they are kept in 32 bits the tree may have 2 ^ 32 nodes at most.

**From forest to tree.** `Forest.parseTree?` reads back what is below a node. Listed children that
do not exist are passed over. The outline of a forest is the outline of the tree below its root.
-/

namespace WikiMarkup

namespace ParseTree

/-- The numbers of the top nodes of trees that are laid out one after the other. -/
def topIds (start : Nat) : List ParseTree → List NodeId
  | [] => []
  | tree :: trees => ⟨start⟩ :: topIds (start + tree.size) trees

mutual

/-- The nodes of a tree in reading order, the first of which gets a given number. -/
def layOut (start : Nat) : ParseTree → List Node
  | node kind caption children headingLevel inlineHint =>
    { kind := kind
      caption := caption
      children := topIds (start + 1) children
      headingLevel := headingLevel
      inlineHint := inlineHint } :: layOutAll (start + 1) children

/-- The nodes of trees that are laid out one after the other. -/
def layOutAll (start : Nat) : List ParseTree → List Node
  | [] => []
  | tree :: trees => layOut start tree ++ layOutAll (start + tree.size) trees

end

theorem layOut_ne_nil (start : Nat) (tree : ParseTree) : layOut start tree ≠ [] := by
  cases tree
  simp [layOut]

end ParseTree

namespace Forest

/-- The forest of a parse tree, numbered in reading order, with no links upwards. -/
def ofParseTree (tree : ParseTree) : Forest where
  nodes := (tree.layOut 0).toArray
  nonempty := by
    simpa using List.length_pos_iff.mpr (ParseTree.layOut_ne_nil 0 tree)

/-- The tree of a node and what is below it, down to a given depth. -/
def readAt (forest : Forest) : (depth : Nat) → NodeId → Option ParseTree
  | 0, _ => none
  | depth + 1, id =>
    (forest.get? id).map fun node =>
      .node node.kind node.caption (node.children.filterMap (forest.readAt depth))
        node.headingLevel node.inlineHint

/-- The tree of a node and everything below it. -/
def parseTree? (forest : Forest) (id : NodeId) : Option ParseTree :=
  forest.readAt (forest.size + 1) id

/-- The outline of everything below the root, one node a line. -/
def outline (forest : Forest) : String :=
  ((forest.parseTree? .root).map ParseTree.outline).getD ""

end Forest

end WikiMarkup
