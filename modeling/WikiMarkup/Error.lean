import WikiMarkup.Node

/-!
# What can go wrong in a forest

**Errors** are reasons to refuse an operation on a forest; an **integrity fault** says how the
links of a forest contradict each other. Both are data. `Error.message` and `Fault.message` hold
the wording. An unknown tag or style is not an error but a warning.
-/

namespace WikiMarkup

/-- A contradiction between the links of a forest, or in the arguments of an operation. -/
inductive Fault
  /-- The root has a parent. -/
  | rootHasParent (parent : NodeId)
  /-- A listed child has another parent, or none. -/
  | strayChild (child listedUnder : NodeId) (parent : Option NodeId)
  /-- The parent of a node does not list it exactly once. -/
  | miscounted (node : NodeId) (count : Nat) (parent : NodeId)
  /-- A node occurs twice among the nodes that are to replace another. -/
  | repeatedReplacement (node : NodeId)
  /-- The parent of a node that is to be detached does not list it. -/
  | unlistedChild (node parent : NodeId)
  /-- The parent of a node that another is to be placed beside does not list it. -/
  | unlistedTarget (target : NodeId)
  /-- A chain of links that never ends passes through a node. -/
  | endlessChain (node : NodeId)
  /-- Rounds of cleaning up go on changing links after every child could have been detached. -/
  | unsettled
  deriving DecidableEq

/-- The wording of a fault. -/
def Fault.message : Fault → String
  | .rootHasParent parent => s!"root has parent {parent.render}"
  | .strayChild child listedUnder parent =>
    child.render ++ " is listed under " ++ listedUnder.render ++ " but points at " ++
      NodeId.renderOption parent
  | .miscounted node count parent =>
    s!"{node.render} appears {count} times under its parent {parent.render}"
  | .repeatedReplacement node => s!"{node.render} appears twice in a replacement list"
  | .unlistedChild node parent =>
    s!"{node.render} points at {parent.render} but is not its child"
  | .unlistedTarget target => s!"{target.render} is not listed under its parent"
  | .endlessChain node => s!"links from {node.render} never end"
  | .unsettled => "cleanup rounds never end"

/-- A reason to refuse an operation on a forest. -/
inductive Error
  /-- No node has this identifier. -/
  | unknownNode (id : NodeId)
  /-- The second node is not listed under the first. -/
  | notAChild (parent child : NodeId)
  /-- The node has no parent, so nothing can be placed beside it. -/
  | detached (id : NodeId)
  /-- The node would become its own ancestor below the target. -/
  | cycle (node target : NodeId)
  /-- The root is to be given a parent. -/
  | rootMove
  /-- The links contradict each other. -/
  | integrity (fault : Fault)
  deriving DecidableEq

/-- The wording of an error. -/
def Error.message : Error → String
  | .unknownNode id => s!"node {id.render} does not exist in this tree"
  | .notAChild parent child => s!"node {child.render} is not a child of {parent.render}"
  | .detached id => s!"node {id.render} has no parent to position relative to"
  | .cycle node target =>
    s!"moving {node.render} under {target.render} would make it its own ancestor"
  | .rootMove => "the root node cannot be given a parent"
  | .integrity fault => s!"tree integrity violated: {fault.message}"

end WikiMarkup
