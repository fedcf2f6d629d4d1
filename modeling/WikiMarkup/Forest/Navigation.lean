import WikiMarkup.Forest.Basic

/-!
# Moving around in a forest

**Upwards** goes along parents: `ancestors` lists them from the top down. **Sideways** goes along
the children of the parent: `previous`, `next`, `siblings`. **Downwards** goes along children:
`descendants` and `reachable` list nodes in reading order, each before what is below it.

A chain of parents in a forest without cycles has fewer links than the forest has nodes, and so
has a chain of children. The size of the forest therefore bounds the depth of both searches.
-/

namespace WikiMarkup

namespace Forest

/-! ### Upwards -/

/-- The parent of a node, its parent, and so on, up to a given number of steps. -/
def parentChain (forest : Forest) : (steps : Nat) → NodeId → List NodeId
  | 0, _ => []
  | steps + 1, id =>
    match forest.parent? id with
    | none => []
    | some parent => parent :: forest.parentChain steps parent

/-- The ancestors of a node from the nearest up. -/
def ancestorsUp (forest : Forest) (id : NodeId) : List NodeId :=
  forest.parentChain (forest.size + 1) id

/-- The ancestors of a node from the top down. -/
def ancestors (forest : Forest) (id : NodeId) : List NodeId := (forest.ancestorsUp id).reverse

/-- The ancestors of a given kind, from the top down. -/
def ancestorsOfKind (forest : Forest) (id : NodeId) (kind : Kind) : List NodeId :=
  (forest.ancestors id).filter fun ancestor => forest.kind? ancestor = some kind

/-- Whether some ancestor has a given kind. -/
def hasAncestorOfKind (forest : Forest) (id : NodeId) (kind : Kind) : Bool :=
  (forest.ancestorsUp id).any fun ancestor => forest.kind? ancestor = some kind

/-- The number of ancestors that share the kind of a node. -/
def level (forest : Forest) (id : NodeId) : Nat :=
  match forest.kind? id with
  | some kind => (forest.ancestorsOfKind id kind).length
  | none => 0

/-- How deep a section is nested in sections; an outermost one is at level 1. -/
def sectionLevel (forest : Forest) (id : NodeId) : Nat := 1 + forest.level id

/-! ### Sideways -/

/-- The children of the parent of a node, the node itself included. -/
def siblingsAndSelf (forest : Forest) (id : NodeId) : List NodeId :=
  match forest.parent? id with
  | some parent => forest.children parent
  | none => []

/-- The other children of the parent of a node. -/
def siblings (forest : Forest) (id : NodeId) : List NodeId :=
  (forest.siblingsAndSelf id).filter (· ≠ id)

/-- The entry of a list just before the first occurrence of another. -/
def entryBefore? (id : NodeId) : List NodeId → Option NodeId
  | first :: second :: rest =>
    if first = id then none
    else if second = id then some first
    else entryBefore? id (second :: rest)
  | _ => none

/-- The entry of a list just after the first occurrence of another. -/
def entryAfter? (id : NodeId) (ids : List NodeId) : Option NodeId :=
  ((ids.dropWhile (· ≠ id)).drop 1).head?

/-- The sibling just before a node; first children and detached nodes have none. -/
def previous? (forest : Forest) (id : NodeId) : Option NodeId :=
  entryBefore? id (forest.siblingsAndSelf id)

/-- The sibling just after a node; last children and detached nodes have none. -/
def next? (forest : Forest) (id : NodeId) : Option NodeId :=
  entryAfter? id (forest.siblingsAndSelf id)

/-- The first child of the parent of a node. -/
def firstSibling? (forest : Forest) (id : NodeId) : Option NodeId :=
  (forest.siblingsAndSelf id).head?

/-- The last child of the parent of a node. -/
def lastSibling? (forest : Forest) (id : NodeId) : Option NodeId :=
  (forest.siblingsAndSelf id).getLast?

/-- The first child of a node. -/
def firstChild? (forest : Forest) (id : NodeId) : Option NodeId := (forest.children id).head?

/-- The last child of a node. -/
def lastChild? (forest : Forest) (id : NodeId) : Option NodeId := (forest.children id).getLast?

/-! ### Downwards -/

/-- A node and what is below it, in reading order, down to a given depth. -/
def below (forest : Forest) : (depth : Nat) → NodeId → List NodeId
  | 0, _ => []
  | depth + 1, id => id :: (forest.children id).flatMap (forest.below depth)

/-- A node and everything below it in reading order. -/
def selfAndDescendants (forest : Forest) (id : NodeId) : List NodeId :=
  forest.below (forest.size + 1) id

/-- Everything below a node in reading order. -/
def descendants (forest : Forest) (id : NodeId) : List NodeId :=
  (forest.children id).flatMap forest.selfAndDescendants

/-- The root and everything below it in reading order. -/
def reachable (forest : Forest) : List NodeId := forest.selfAndDescendants .root

/-- The descendants of a given kind in reading order. -/
def descendantsOfKind (forest : Forest) (id : NodeId) (kind : Kind) : List NodeId :=
  (forest.descendants id).filter fun descendant => forest.kind? descendant = some kind

end Forest

end WikiMarkup
