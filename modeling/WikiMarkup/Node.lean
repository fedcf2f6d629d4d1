import WikiMarkup.Kind

/-!
# Nodes

A **node identifier** is a place in the table of a forest; it owns nothing. A **node** carries its
kind, its caption, and its links in both directions: the identifiers of its children in reading
order, and the identifier of its parent.

**Range.** An identifier is any natural number. Where identifiers are kept in 32 bits there are
2 ^ 32 of them, and what is said here holds there of forests with no more nodes than that.
-/

namespace WikiMarkup

/-- The place of a node in the table of its forest. -/
@[ext]
structure NodeId where
  /-- The position in the table. -/
  index : Nat
  deriving DecidableEq, Inhabited

namespace NodeId

/-- The identifier of the root. -/
def root : NodeId := ⟨0⟩

/-- An identifier as it appears in messages. -/
def render (id : NodeId) : String := s!"NodeId({id.index})"

/-- An optional identifier as it appears in messages. -/
def renderOption : Option NodeId → String
  | some id => s!"Some({id.render})"
  | none => "None"

end NodeId

/-- A node of a forest. -/
@[ext]
structure Node where
  /-- What the node means. -/
  kind : Kind := default
  /-- The literal token of a generic node, the content of a text. -/
  caption : String := ""
  /-- The children in reading order. -/
  children : List NodeId := []
  /-- The parent; roots and detached nodes have none. -/
  parent : Option NodeId := none
  /-- The level of a heading that came from a heading tag. -/
  headingLevel : Option UInt8 := none
  /-- What the parser says about the layout of an image. -/
  inlineHint : Option Bool := none
  deriving DecidableEq, Inhabited

end WikiMarkup
