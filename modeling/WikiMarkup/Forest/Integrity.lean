import WikiMarkup.Forest.Basic

/-!
# Checking the links of a forest

`Forest.check` looks at every node of the table, detached ones included: each listed child has to
point back, and each parent has to list its child exactly once. The first contradiction is
reported, in the order of the table, children before the parent.
-/

namespace WikiMarkup

namespace Forest

/-- The number of places at which one node lists another. -/
def count (forest : Forest) (parent child : NodeId) : Nat := (forest.children parent).count child

/-- Fails unless a listed child exists and has the node that lists it for a parent. -/
def checkChild (forest : Forest) (id child : NodeId) : Except Error Unit :=
  match forest.get? child with
  | none => throw (.unknownNode child)
  | some node =>
    if node.parent = some id then pure ()
    else throw (.integrity (.strayChild child id node.parent))

/-- Fails unless a node has no parent, or one that exists and lists it exactly once. -/
def checkParent (forest : Forest) (id : NodeId) : Option NodeId → Except Error Unit
  | none => pure ()
  | some parent =>
    match forest.get? parent with
    | none => throw (.unknownNode parent)
    | some _ =>
      if forest.count parent id = 1 then pure ()
      else throw (.integrity (.miscounted id (forest.count parent id) parent))

/-- Fails unless the links of a node agree with those of its children and its parent. -/
def checkNode (forest : Forest) (id : NodeId) : Except Error Unit := do
  (forest.children id).forM (forest.checkChild id)
  forest.checkParent id (forest.parent? id)

/-- Fails unless the root has no parent and the links of every node agree. -/
def check (forest : Forest) : Except Error Unit := do
  match forest.parent? .root with
  | some parent => throw (.integrity (.rootHasParent parent))
  | none => forest.ids.forM forest.checkNode

end Forest

end WikiMarkup
