import WikiMarkup.Forest.Navigation
import WikiMarkup.Text.Whitespace

/-!
# The flow of a paragraph

**Settings.** What a host may choose about normalization: which formulas are **displayed**, that is,
stand on lines of their own, and whether the lines of running text are folded.

**Layout.** A node either takes part in the flow of a paragraph or interrupts it. `Kind.layout`
answers from the kind alone. Images and formulas differ from one node to the next; for them it gives
the usual case, and `Node.layout` looks at the node itself.

**Boundaries.** Where running text touches a block, the block already ends the line. `touchesBlock`
finds such places. It looks for a neighbour on each side: before, the previous sibling or else the
parent; after, the next sibling or else the next sibling of the parent. A side with no neighbour, or
with one that is not inline, is a boundary.
-/

namespace WikiMarkup

/-! ### Settings -/

/-- The environments whose formulas are displayed unless something else is said. -/
def defaultOpenings : List String := ["\\begin\x7balign\x7d", "\\begin\x7balignat\x7d"]

/-- The choices that normalization leaves to its host. -/
structure Settings where
  /-- How the source of a displayed formula begins. -/
  displayOpenings : List String := defaultOpenings
  /-- Whether the lines of running text are folded. -/
  foldLines : Bool := true
  deriving DecidableEq

namespace Settings

instance : Inhabited Settings := ⟨{}⟩

/-- Whether the source of a formula begins, after any spaces, like that of a displayed one. -/
def isDisplay (settings : Settings) (source : String) : Bool :=
  settings.displayOpenings.any fun opening => opening.toList.isPrefixOf (trim source.toList)

end Settings

/-! ### Layout -/

/-- Whether a node takes part in the flow of a paragraph or interrupts it. -/
inductive Layout
  | inline
  | block
  deriving DecidableEq, Inhabited

/-- The usual layout of a kind. Kinds with no fixed place in the flow count as blocks. -/
def Kind.layout : Kind → Layout
  | .url | .namedUrl | .link | .categoryLink | .specialLink => .inline
  | .style | .text | .index | .teletyped | .breakingReturn | .reference => .inline
  | .strong | .emphasized | .sub | .sup | .small | .underline | .overline => .inline
  | .strike | .span | .big | .imageLink | .math => .inline
  | .book | .chapter | .article | .docSection | .paragraph | .preFormatted => .block
  | .cell | .row | .table | .item | .itemList | .timeline | .cite | .horizontalRule => .block
  | .gallery | .indented | .definitionList | .definitionTerm | .definitionDescription => .block
  | .referenceList => .block
  | .magic | .tag | .group | .code | .center | .div | .imageMap => .block

/-- The layout of a node. An image is inline only if the parser says so, a formula unless it is
displayed; the kind decides for all other nodes. -/
def Node.layout (settings : Settings) (node : Node) : Layout :=
  match node.kind with
  | .imageLink => if node.inlineHint = some true then .inline else .block
  | .math => if settings.isDisplay node.caption then .block else .inline
  | kind => kind.layout

namespace Forest

/-- The layout of the node with a given identifier. -/
def layout? (forest : Forest) (settings : Settings) (id : NodeId) : Option Layout :=
  (forest.get? id).map (·.layout settings)

/-- Whether a neighbour ends the flow: there is none, or it is not inline. -/
def endsFlow (forest : Forest) (settings : Settings) : Option NodeId → Bool
  | none => true
  | some neighbour => forest.layout? settings neighbour ≠ some .inline

/-- The neighbour before a node: the previous sibling, or else the parent. -/
def neighbourBefore? (forest : Forest) (id : NodeId) : Option NodeId :=
  forest.previous? id <|> forest.parent? id

/-- The neighbour after a node: the next sibling, or else the next sibling of the parent. -/
def neighbourAfter? (forest : Forest) (id : NodeId) : Option NodeId :=
  forest.next? id <|> (forest.parent? id).bind forest.next?

/-- Whether a node touches a block, or the edge of one, on either side. -/
def touchesBlock (forest : Forest) (settings : Settings) (id : NodeId) : Bool :=
  forest.endsFlow settings (forest.neighbourBefore? id) ||
    forest.endsFlow settings (forest.neighbourAfter? id)

end Forest

end WikiMarkup
