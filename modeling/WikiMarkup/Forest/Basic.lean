import WikiMarkup.Error

/-!
# Forests

A forest is a table of nodes. The node at position 0 is the **root** of the document; the other
trees of the forest are what has been detached from it or not yet attached. Nodes are never
erased, so an identifier stays good for as long as the forest lives.

**Links.** Each link is stored twice, in the children of the parent and in the parent of the
child. The operations of `Forest.Edit` keep the two in step; `Forest.modify` is below that level
and lets a caller write anything.

**Revision.** A counter that grows with every insertion and every removal of a child, and with
nothing else.

**Size.** `Forest.add` never runs out of identifiers. Where these are kept in 32 bits, a forest has
room for 2 ^ 32 nodes, and it is to forests within this bound that the development applies.
-/

namespace WikiMarkup

/-- A table of nodes, the first of which is the root, with a counter of structural changes. -/
@[ext]
structure Forest where
  /-- The nodes by position. -/
  nodes : Array Node
  /-- The number of structural changes so far. -/
  revision : Nat := 0
  /-- There is a root. -/
  nonempty : 0 < nodes.size

namespace Forest

/-- A forest of one node, the root. -/
def singleton (kind : Kind) : Forest where
  nodes := #[{ kind := kind }]
  nonempty := Nat.zero_lt_one

instance : Inhabited Forest := ⟨singleton default⟩

/-- The number of nodes, detached ones included. -/
def size (forest : Forest) : Nat := forest.nodes.size

/-- The node with a given identifier. -/
def get? (forest : Forest) (id : NodeId) : Option Node := forest.nodes[id.index]?

/-- The kind of a node. -/
def kind? (forest : Forest) (id : NodeId) : Option Kind := (forest.get? id).map Node.kind

/-- The caption of a node, empty if there is no such node. -/
def caption (forest : Forest) (id : NodeId) : String :=
  ((forest.get? id).map Node.caption).getD ""

/-- The children of a node, none if there is no such node. -/
def children (forest : Forest) (id : NodeId) : List NodeId :=
  ((forest.get? id).map Node.children).getD []

/-- The parent of a node. -/
def parent? (forest : Forest) (id : NodeId) : Option NodeId := (forest.get? id).bind Node.parent

/-- The first position at which a node is listed under another. -/
def position? (forest : Forest) (parent child : NodeId) : Option Nat :=
  (forest.children parent).idxOf? child

/-- All identifiers of nodes, in the order of the table. -/
def ids (forest : Forest) : List NodeId := (List.range forest.size).map NodeId.mk

/-- The children listed anywhere, once for each listing. -/
def listed (forest : Forest) : List NodeId := forest.nodes.toList.flatMap Node.children

/-! ### Writing -/

/-- The forest with one node changed; all is left as it is if there is no such node. -/
def modify (forest : Forest) (id : NodeId) (change : Node → Node) : Forest :=
  { forest with
    nodes := forest.nodes.modify id.index change
    nonempty := by simpa using forest.nonempty }

/-- The forest with a new detached node that has no children, and its identifier. -/
def add (forest : Forest) (node : Node) : NodeId × Forest :=
  (⟨forest.size⟩,
    { forest with
      nodes := forest.nodes.push { node with children := [], parent := none }
      nonempty := by simp })

/-- The forest with its revision counted up. -/
def touch (forest : Forest) : Forest := { forest with revision := forest.revision + 1 }

/-- The forest in which a parent no longer lists its child at a position, and the child has no
parent. -/
def unlink (forest : Forest) (parent : NodeId) (position : Nat) (child : NodeId) : Forest :=
  ((forest.modify parent fun node => { node with children := node.children.eraseIdx position })
    |>.modify child fun node => { node with parent := none }).touch

/-- The forest in which a parent lists a child at a position, and the child has that parent. -/
def link (forest : Forest) (parent : NodeId) (position : Nat) (child : NodeId) : Forest :=
  ((forest.modify parent fun node =>
      { node with children := node.children.insertIdx position child })
    |>.modify child fun node => { node with parent := some parent }).touch

/-! ### What writing does to reading -/

@[simp] theorem size_modify (forest : Forest) (id : NodeId) (change : Node → Node) :
    (forest.modify id change).size = forest.size := by
  simp [size, modify]

@[simp] theorem revision_modify (forest : Forest) (id : NodeId) (change : Node → Node) :
    (forest.modify id change).revision = forest.revision := rfl

@[simp] theorem revision_touch (forest : Forest) :
    forest.touch.revision = forest.revision + 1 := rfl

@[simp] theorem size_touch (forest : Forest) : forest.touch.size = forest.size := rfl

@[simp] theorem get?_touch (forest : Forest) (id : NodeId) :
    forest.touch.get? id = forest.get? id := rfl

theorem get?_modify (forest : Forest) (id other : NodeId) (change : Node → Node) :
    (forest.modify id change).get? other =
      if id = other then (forest.get? other).map change else forest.get? other := by
  obtain ⟨i⟩ := id
  obtain ⟨j⟩ := other
  simp [get?, modify, Array.getElem?_modify]

theorem get?_add (forest : Forest) (node : Node) (id : NodeId) :
    (forest.add node).2.get? id =
      if id.index = forest.size then some { node with children := [], parent := none }
      else forest.get? id := by
  simp only [get?, add, size, Array.getElem?_push]
  rfl

@[simp] theorem size_add (forest : Forest) (node : Node) :
    (forest.add node).2.size = forest.size + 1 := by
  simp [size, add]

theorem get?_eq_none_iff {forest : Forest} {id : NodeId} :
    forest.get? id = none ↔ forest.size ≤ id.index := by
  simp [get?, size]

end Forest

end WikiMarkup
