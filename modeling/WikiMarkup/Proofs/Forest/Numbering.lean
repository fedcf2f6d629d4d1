import WikiMarkup.Flow
import WikiMarkup.Proofs.Generic.Style

/-!
# Forests under other numbers

A `Numbering` gives nodes other identifiers. One forest **copies** another under a numbering if it
holds each node of the other under the new identifier, with its links renumbered
(`Numbering.Copies`). The copy may hold more nodes than these, linked in whatever way, and its
revision may be ahead. New nodes get numbers that match, since both tables grow by the same amount.

All that can be seen of a node is the same in a copy: what is on it, and the nodes around it up to
numbering. Searches that are bounded by the number of nodes have more steps in a copy; where there
are no cycles they find the same.
-/

namespace WikiMarkup

/-- Other identifiers for nodes, and how far the table and the revision of a copy are ahead. -/
structure Numbering where
  /-- The other identifier. -/
  number : NodeId → NodeId
  /-- No two nodes get the same. -/
  injective : Function.Injective number
  /-- The root stays the root. -/
  root : number .root = .root
  /-- The number of further nodes. -/
  spare : Nat
  /-- The number of further changes. -/
  ahead : Nat

instance : CoeFun Numbering fun _ => NodeId → NodeId := ⟨Numbering.number⟩

/-- A node with its links renumbered. -/
def Node.renumbered (numbering : Numbering) (node : Node) : Node :=
  { node with children := node.children.map numbering, parent := node.parent.map numbering }

namespace Numbering

variable {numbering : Numbering} {id other : NodeId}

@[simp] theorem eq_iff : numbering id = numbering other ↔ id = other := numbering.injective.eq_iff

@[simp] theorem eq_root_iff : numbering id = .root ↔ id = .root := by
  rw [← numbering.root, eq_iff, numbering.root]

@[simp] theorem mem_map_iff {ids : List NodeId} : numbering id ∈ ids.map numbering ↔ id ∈ ids :=
  List.mem_map_of_injective numbering.injective

/-- A forest copies another under a numbering. -/
structure Copies (numbering : Numbering) (forest copy : Forest) : Prop where
  /-- It holds the same nodes under the new identifiers. -/
  get?_eq : ∀ id : NodeId,
    copy.get? (numbering id) = (forest.get? id).map (Node.renumbered numbering)
  /-- It holds a fixed number of further nodes. -/
  size_eq : copy.size = forest.size + numbering.spare
  /-- It is a fixed number of changes ahead. -/
  revision_eq : copy.revision = forest.revision + numbering.ahead
  /-- What is added to both gets the same number up to numbering. -/
  fresh : ∀ index : Nat, forest.size ≤ index → numbering ⟨index⟩ = ⟨index + numbering.spare⟩

/-- A copy of a well-formed forest. -/
structure Tracks (numbering : Numbering) (forest copy : Forest) : Prop where
  /-- The forest is well-formed. -/
  wellFormed : forest.WellFormed
  /-- The other one copies it. -/
  copies : numbering.Copies forest copy

/-! ### Lists -/

/-- Positions in a list do not depend on the numbering. -/
theorem idxOf?_map (ids : List NodeId) :
    (ids.map numbering).idxOf? (numbering id) = ids.idxOf? id := by
  rw [List.idxOf?, List.idxOf?, List.findIdx?_map]
  refine congrArg (List.findIdx? · ids) (funext fun other => ?_)
  simp

/-- The entry before another does not depend on the numbering. -/
theorem entryBefore?_map (ids : List NodeId) :
    Forest.entryBefore? (numbering id) (ids.map numbering) =
      (Forest.entryBefore? id ids).map numbering := by
  induction ids with
  | nil => rfl
  | cons first ids ih =>
    cases ids with
    | nil => rfl
    | cons second ids =>
      rw [List.map_cons, List.map_cons, Forest.entryBefore?, Forest.entryBefore?]
      rw [List.map_cons] at ih
      simp only [eq_iff]
      split_ifs
      · rfl
      · rfl
      · exact ih

/-- The entry after another does not depend on the numbering. -/
theorem entryAfter?_map (ids : List NodeId) :
    Forest.entryAfter? (numbering id) (ids.map numbering) =
      (Forest.entryAfter? id ids).map numbering := by
  rw [Forest.entryAfter?, Forest.entryAfter?, List.dropWhile_map, ← List.map_drop, List.head?_map]
  simp [Function.comp_def]

namespace Copies

variable {forest copy : Forest} (copies : numbering.Copies forest copy)

include copies

/-! ### What can be seen of a node -/

/-- Copies have the same kinds. -/
theorem kind?_eq (id : NodeId) : copy.kind? (numbering id) = forest.kind? id := by
  rw [Forest.kind?, copies.get?_eq, Option.map_map]
  rfl

/-- The children of a counterpart are the counterparts of the children. -/
theorem children_eq (id : NodeId) :
    copy.children (numbering id) = (forest.children id).map numbering := by
  rw [Forest.children, copies.get?_eq, Forest.children]
  cases forest.get? id <;> rfl

/-- The parent of a counterpart is the counterpart of the parent. -/
theorem parent?_eq (id : NodeId) :
    copy.parent? (numbering id) = (forest.parent? id).map numbering := by
  rw [Forest.parent?, copies.get?_eq, Forest.parent?]
  cases forest.get? id <;> rfl

/-- Children stand at the same positions in copies. -/
theorem position?_eq (parent child : NodeId) :
    copy.position? (numbering parent) (numbering child) = forest.position? parent child := by
  rw [Forest.position?, copies.children_eq, idxOf?_map, Forest.position?]

theorem siblingsAndSelf_eq (id : NodeId) :
    copy.siblingsAndSelf (numbering id) = (forest.siblingsAndSelf id).map numbering := by
  rw [Forest.siblingsAndSelf, copies.parent?_eq, Forest.siblingsAndSelf]
  cases forest.parent? id with
  | none => rfl
  | some parent => exact copies.children_eq parent

theorem siblings_eq (id : NodeId) :
    copy.siblings (numbering id) = (forest.siblings id).map numbering := by
  rw [Forest.siblings, copies.siblingsAndSelf_eq, List.filter_map, Forest.siblings]
  simp [Function.comp_def]

/-- The sibling before a counterpart is the counterpart of the sibling before. -/
theorem previous?_eq (id : NodeId) :
    copy.previous? (numbering id) = (forest.previous? id).map numbering := by
  rw [Forest.previous?, copies.siblingsAndSelf_eq, entryBefore?_map, Forest.previous?]

/-- The sibling after a counterpart is the counterpart of the sibling after. -/
theorem next?_eq (id : NodeId) :
    copy.next? (numbering id) = (forest.next? id).map numbering := by
  rw [Forest.next?, copies.siblingsAndSelf_eq, entryAfter?_map, Forest.next?]

theorem lastChild?_eq (id : NodeId) :
    copy.lastChild? (numbering id) = (forest.lastChild? id).map numbering := by
  rw [Forest.lastChild?, copies.children_eq, List.getLast?_map, Forest.lastChild?]

/-! ### The flow -/

theorem layout?_eq (settings : Settings) (id : NodeId) :
    copy.layout? settings (numbering id) = forest.layout? settings id := by
  rw [Forest.layout?, copies.get?_eq, Option.map_map]
  rfl

theorem endsFlow_eq (settings : Settings) (neighbour : Option NodeId) :
    copy.endsFlow settings (neighbour.map numbering) = forest.endsFlow settings neighbour := by
  cases neighbour with
  | none => rfl
  | some neighbour => rw [Option.map_some, Forest.endsFlow, Forest.endsFlow, copies.layout?_eq]

/-- Counterparts touch blocks alike. -/
theorem touchesBlock_eq (settings : Settings) (id : NodeId) :
    copy.touchesBlock settings (numbering id) = forest.touchesBlock settings id := by
  have hBefore : copy.neighbourBefore? (numbering id) =
      (forest.neighbourBefore? id).map numbering := by
    rw [Forest.neighbourBefore?, copies.previous?_eq, copies.parent?_eq, Forest.neighbourBefore?]
    cases forest.previous? id <;> rfl
  have hAfter : copy.neighbourAfter? (numbering id) =
      (forest.neighbourAfter? id).map numbering := by
    rw [Forest.neighbourAfter?, copies.next?_eq, copies.parent?_eq, Forest.neighbourAfter?]
    cases forest.next? id with
    | some next => rfl
    | none =>
      cases forest.parent? id with
      | none => rfl
      | some parent => exact copies.next?_eq parent
  rw [Forest.touchesBlock, hBefore, hAfter, copies.endsFlow_eq, copies.endsFlow_eq,
    Forest.touchesBlock]

/-! ### Searches -/

/-- A copy has at least as many nodes. -/
theorem size_le : forest.size ≤ copy.size := by
  rw [copies.size_eq]
  exact Nat.le_add_right _ _

theorem parentChain_eq (steps : Nat) (id : NodeId) :
    copy.parentChain steps (numbering id) = (forest.parentChain steps id).map numbering := by
  induction steps generalizing id with
  | zero => rfl
  | succ steps ih =>
    rw [Forest.parentChain, copies.parent?_eq, Forest.parentChain]
    cases forest.parent? id with
    | none => rfl
    | some parent => exact congrArg (numbering parent :: ·) (ih parent)

theorem openListBefore_eq (steps : Nat) (id : NodeId) :
    copy.openListBefore steps (numbering id) =
      (forest.openListBefore steps id).map numbering := by
  induction steps generalizing id with
  | zero => rfl
  | succ steps ih =>
    rw [Forest.openListBefore, copies.previous?_eq, Forest.openListBefore]
    cases forest.previous? id with
    | none => rfl
    | some before =>
      rw [Option.map_some]
      dsimp only
      rw [copies.get?_eq]
      cases forest.get? before with
      | none => rfl
      | some node =>
        rw [Option.map_some]
        dsimp only [Node.renumbered]
        rw [ih before]
        split_ifs <;> rfl

variable (wellFormed : forest.WellFormed)

include wellFormed

/-- Counterparts have ancestors of the same kinds. -/
theorem hasAncestorOfKind_eq (id : NodeId) (kind : Kind) :
    copy.hasAncestorOfKind (numbering id) kind = forest.hasAncestorOfKind id kind := by
  have hHeight := forest.height_le_size id
  have hSize := copies.size_le
  rw [Forest.hasAncestorOfKind, Forest.ancestorsUp, copies.parentChain_eq, List.any_map,
    ← wellFormed.parentChain_eq_parentChain (by omega : forest.height id ≤ forest.size + 1)
      (by omega), Forest.hasAncestorOfKind, Forest.ancestorsUp]
  simp only [Function.comp_def, copies.kind?_eq]

/-- The open list of a counterpart is the counterpart of the open list. -/
theorem openList?_eq (id : NodeId) :
    copy.openList? (numbering id) = (forest.openList? id).map numbering := by
  have linked := wellFormed.linked
  have hSize := copies.size_le
  rw [Forest.openList?, copies.openListBefore_eq, Forest.openList?]
  cases hParent : forest.parent? id with
  | none =>
    rw [Forest.openListBefore, Forest.openListBefore,
      Forest.previous?_eq_none_of_parent? hParent]
  | some parent =>
    obtain ⟨front, back, hChildren⟩ := List.append_of_mem (linked.parent_iff.mp hParent)
    have hFront : front.length < forest.size + 1 := by
      have hLength := linked.length_children_le parent
      rw [hChildren, List.length_append, List.length_cons] at hLength
      omega
    have hSteps : forest.size + 1 ≤ copy.size + 1 := by omega
    rw [linked.openListBefore_eq_openListBefore hChildren hFront hSteps]

end Copies

/-! ### Writing -/

namespace Copies

variable {forest copy : Forest} (copies : numbering.Copies forest copy)

include copies

/-- Corresponding changes of corresponding nodes keep copies. -/
theorem modify (id : NodeId) (change otherChange : Node → Node)
    (h : ∀ node, otherChange (node.renumbered numbering) = (change node).renumbered numbering) :
    numbering.Copies (forest.modify id change) (copy.modify (numbering id) otherChange) where
  get?_eq other := by
    rw [Forest.get?_modify, Forest.get?_modify, copies.get?_eq]
    simp only [eq_iff]
    split_ifs
    · rw [Option.map_map, Option.map_map]
      exact congrArg (Option.map · _) (funext h)
    · rfl
  size_eq := by rw [Forest.size_modify, Forest.size_modify, copies.size_eq]
  revision_eq := copies.revision_eq
  fresh index hIndex := copies.fresh index (by rwa [Forest.size_modify] at hIndex)

theorem touch : numbering.Copies forest.touch copy.touch where
  get?_eq := copies.get?_eq
  size_eq := copies.size_eq
  revision_eq := by
    rw [Forest.revision_touch, Forest.revision_touch, copies.revision_eq, Nat.add_right_comm]
  fresh := copies.fresh

theorem unlink (parent : NodeId) (position : Nat) (child : NodeId) :
    numbering.Copies (forest.unlink parent position child)
      (copy.unlink (numbering parent) position (numbering child)) := by
  have hParent := copies.modify parent
    (fun node => { node with children := node.children.eraseIdx position })
    (fun node => { node with children := node.children.eraseIdx position })
    fun node => by simp only [Node.renumbered, List.eraseIdx_map]
  exact (hParent.modify child (fun node => { node with parent := none })
    (fun node => { node with parent := none }) fun _ => rfl).touch

theorem link (parent : NodeId) (position : Nat) (child : NodeId) :
    numbering.Copies (forest.link parent position child)
      (copy.link (numbering parent) position (numbering child)) := by
  have hParent := copies.modify parent
    (fun node => { node with children := node.children.insertIdx position child })
    (fun node => { node with children := node.children.insertIdx position (numbering child) })
    fun node => by simp only [Node.renumbered, List.map_insertIdx]
  exact (hParent.modify child (fun node => { node with parent := some parent })
    (fun node => { node with parent := some (numbering parent) }) fun _ => rfl).touch

/-- The new nodes get numbers that match. -/
theorem add (node : Node) : numbering (forest.add node).1 = (copy.add node).1 ∧
    numbering.Copies (forest.add node).2 (copy.add node).2 := by
  have hNew : numbering ⟨forest.size⟩ = ⟨copy.size⟩ := by
    rw [copies.fresh _ (Nat.le_refl _), copies.size_eq]
  refine ⟨hNew, fun id => ?_, ?_, copies.revision_eq, fun index hIndex => ?_⟩
  · have hIff : (numbering id).index = copy.size ↔ id.index = forest.size := by
      rw [← NodeId.ext_iff (y := ⟨copy.size⟩), ← hNew, eq_iff, NodeId.ext_iff]
    rw [Forest.get?_add, Forest.get?_add, copies.get?_eq]
    simp only [hIff]
    split_ifs <;> rfl
  · rw [Forest.size_add, Forest.size_add, copies.size_eq, Nat.add_right_comm]
  · rw [Forest.size_add] at hIndex
    exact copies.fresh index (by omega)

end Copies

end Numbering

end WikiMarkup
