import WikiMarkup.Kind
import WikiMarkup.Text.Quoted

/-!
# Parse trees

What the markup parser hands over: a finite ordered tree in which each node holds its children.
A forest is built from such a tree (`Forest.ofParseTree`) and can be read back into one
(`Forest.parseTree`).

**Key definitions.** `ParseTree.size` counts nodes. `ParseTree.outline` prints one node a line,
indented by its depth: the kind, the heading level if there is one, and the quoted caption if it
is not empty.
-/

namespace WikiMarkup

/-- A tree of markup as the parser builds it. -/
inductive ParseTree
  | node (kind : Kind) (caption : String) (children : List ParseTree)
      (headingLevel : Option UInt8) (inlineHint : Option Bool)

namespace ParseTree

/-- A tree of one node with an empty caption and no further detail. -/
def leaf (kind : Kind) : ParseTree := node kind "" [] none none

instance : Inhabited ParseTree := ⟨leaf default⟩

mutual

/-- The number of nodes of a tree. -/
def size : ParseTree → Nat
  | node _ _ children _ _ => sizeAll children + 1

/-- The number of nodes of several trees. -/
def sizeAll : List ParseTree → Nat
  | [] => 0
  | tree :: trees => tree.size + sizeAll trees

end

/-! ### Outlines -/

/-- The text of one node in an outline. -/
def heading (kind : Kind) (caption : String) (headingLevel : Option UInt8) : String :=
  let level := match headingLevel with
    | some level => s!" h{level.toNat}"
    | none => ""
  let quoted := if caption.isEmpty then "" else " " ++ quote caption
  kind.name ++ level ++ quoted

/-- The blanks in front of a line at a given depth. -/
def indent (depth : Nat) : String := "".pushn ' ' (2 * depth)

mutual

/-- The outline of a tree whose top node stands at a given depth. -/
def outlineAt (depth : Nat) : ParseTree → String
  | node kind caption children headingLevel _ =>
    indent depth ++ heading kind caption headingLevel ++ "\n" ++ outlineAll (depth + 1) children

/-- The outlines of several trees at a given depth, one below the other. -/
def outlineAll (depth : Nat) : List ParseTree → String
  | [] => ""
  | tree :: trees => outlineAt depth tree ++ outlineAll depth trees

end

/-- The outline of a tree, one node a line. -/
def outline (tree : ParseTree) : String := tree.outlineAt 0

end ParseTree

end WikiMarkup
