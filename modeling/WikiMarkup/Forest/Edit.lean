import WikiMarkup.Forest.Basic

/-!
# Editing a forest

The structural operations: append, remove, replace, move. Each one first checks that it may go
ahead, then sets the links on both sides.

**Edits.** An `Edit` is a computation on a forest that may fail. A failed edit still says which
forest it left behind. On a forest whose links agree, that is the forest it started from; where
the links contradict each other, a fault may come to light half-way.

**Key operations.** `append` puts a node last under another, `replace` puts a list of nodes in the
place of a child, `remove` is replacement by nothing, and `moveBeside` puts a node next to
another. All of them detach what they place, so a node never has two parents.

**Linking.** A parser records the children of a node and leaves parents out. `linkUpwards` points
every node below the root at the node that lists it. Whatever stood in those links before does not
matter.

**Walking.** A walk calls a visitor at a node, then walks each child the node has **after** the
visit. The visitor may therefore wrap the children of the node, move the node elsewhere or detach
it, and the walk still reaches the current children. The state of a walk is any type from which a
forest can be seen, so that a visitor may keep notes.

**Depth.** A visitor may do anything, so a walk need not end by itself: a visitor that hangs a new
child below every node goes down for ever. `Forest.walkDepth` is where a walk gives up. It lies
above twice the number of nodes, which is as deep as a walk gets in a forest without cycles if it
wraps each node at most once. To that it adds `spareDepth`, which is room for visitors that move
nodes around below themselves, and for nodes listed many times over.
-/

namespace WikiMarkup

/-- A computation on a forest that may fail. -/
abbrev Edit := EStateM Error Forest

namespace Edit

/-- The node with a given identifier, or failure. -/
def node (id : NodeId) : Edit Node := do
  match (← get).get? id with
  | some node => pure node
  | none => throw (.unknownNode id)

/-- Changes a node that has to exist. -/
def modifyNode (id : NodeId) (change : Node → Node) : Edit Unit := do
  let _ ← node id
  modify (·.modify id change)

/-- Adds a detached node. -/
def add (new : Node) : Edit NodeId := modifyGet (·.add new)

/-- Fails with a fault. -/
def fault {α : Type} (found : Fault) : Edit α := throw (.integrity found)

/-! ### Checks -/

/-- Climbs from `current` and fails at `node`, which may not come to lie below `target`. -/
def checkAbove (node target : NodeId) : (steps : Nat) → (current : NodeId) → Edit Unit
  | 0, current => fault (.endlessChain current)
  | steps + 1, current => do
    if current = node then throw (.cycle node target)
    match (← Edit.node current).parent with
    | none => pure ()
    | some parent => checkAbove node target steps parent

/-- Fails unless a node may be placed under a target: the root may not be placed anywhere, and no
node below itself. -/
def checkPlacement (node target : NodeId) : Edit Unit := do
  if node = .root then throw .rootMove
  checkAbove node target ((← get).size + 1) target

/-- Fails unless each of the given nodes exists, may be placed under the target, and differs from
those before it. -/
def checkReplacements (target : NodeId) : (before : List NodeId) → List NodeId → Edit Unit
  | _, [] => pure ()
  | before, id :: rest => do
    let _ ← node id
    checkPlacement id target
    if id ∈ before then fault (.repeatedReplacement id)
    checkReplacements target (id :: before) rest

/-! ### Steps -/

/-- Takes a node away from its parent, and says from where. -/
def detach (id : NodeId) : Edit (Option (NodeId × Nat)) := do
  match (← node id).parent with
  | none => pure none
  | some parent =>
    match (← get).position? parent id with
    | none => fault (.unlistedChild id parent)
    | some position =>
      modify (·.unlink parent position id)
      pure (some (parent, position))

/-- Where an insertion point among the children of `target` lies once a child of `target` that
stood at a position before it has been taken away. -/
def shifted (target : NodeId) (point : Nat) : Option (NodeId × Nat) → Nat
  | some (parent, position) => if parent = target ∧ position < point then point - 1 else point
  | none => point

/-- Moves nodes one after the other to an insertion point under a target. -/
def placeAt (target : NodeId) : (point : Nat) → List NodeId → Edit Unit
  | _, [] => pure ()
  | point, id :: rest => do
    let point := shifted target point (← detach id)
    modify (·.link target point id)
    placeAt target (point + 1) rest

/-! ### Operations -/

/-- Makes a node the last child of a parent. -/
def append (parent child : NodeId) : Edit Unit := do
  let _ ← node child
  checkPlacement child parent
  let _ ← detach child
  let last ← node parent
  modify (·.link parent last.children.length child)

/-- Adds a node as the last child of a parent. -/
def push (parent : NodeId) (new : Node) : Edit NodeId := do
  let _ ← node parent
  let id ← add new
  append parent id
  pure id

/-- Puts a list of nodes, in order, in the place of a child. -/
def replace (parent child : NodeId) (replacements : List NodeId) : Edit Unit := do
  match (← get).position? parent child with
  | none => throw (.notAChild parent child)
  | some position =>
    checkReplacements parent [] replacements
    modify (·.modify parent fun node =>
      { node with children := node.children.eraseIdx position })
    modifyNode child fun node => { node with parent := none }
    modify (·.touch)
    placeAt parent position replacements

/-- Takes a child away from its parent. -/
def remove (parent child : NodeId) : Edit Unit := replace parent child []

/-- Puts a node right before or right after a target. -/
def moveBeside (id target : NodeId) (before : Bool) : Edit Unit := do
  let _ ← node id
  match (← node target).parent with
  | none => throw (.detached target)
  | some parent =>
    if id = target then throw (.cycle id target)
    checkPlacement id parent
    let _ ← detach id
    match (← get).position? parent target with
    | none => fault (.unlistedTarget target)
    | some position =>
      modify (·.link parent (if before then position else position + 1) id)

/-! ### Linking -/

/-- Points the children of a node at it, then does the same below each of them. -/
def linkBelow : (depth : Nat) → NodeId → Edit Unit
  | 0, id => fault (.endlessChain id)
  | depth + 1, id => do
    let children := (← get).children id
    children.forM fun child => do
      modifyNode child fun node => { node with parent := some id }
      linkBelow depth child

/-- Points every node below the root at the node that lists it. -/
def linkUpwards : Edit Unit := do
  modify (·.modify .root fun node => { node with parent := none })
  linkBelow ((← get).size + 1) .root

end Edit

/-! ### Walking -/

/-- How many levels beyond twice the number of nodes a walk may go down. -/
def spareDepth : Nat := 1000000000

/-- The depth at which a walk gives up. -/
def Forest.walkDepth (forest : Forest) : Nat := 2 * forest.size + spareDepth

section

variable {σ : Type} (view : σ → Forest) (visit : NodeId → EStateM Error σ Unit)

/-- Visits a node, then walks the children it has after the visit. -/
def walkFrom : (depth : Nat) → NodeId → EStateM Error σ Unit
  | 0, id => throw (.integrity (.endlessChain id))
  | depth + 1, id => do
    visit id
    let children := (view (← get)).children id
    children.forM (walkFrom depth)

/-- Visits every node from the root down, each before its children. -/
def walk : EStateM Error σ Unit := do
  let depth := (view (← get)).walkDepth
  walkFrom view visit depth .root

end

/-- Visits every node from the root down with an edit. -/
def Edit.walk (visit : NodeId → Edit Unit) : Edit Unit := WikiMarkup.walk id visit

end WikiMarkup
