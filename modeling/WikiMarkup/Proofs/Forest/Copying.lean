import WikiMarkup.Proofs.Following
import WikiMarkup.Proofs.Forest.Numbering

/-!
# Edits of a copy

What an edit does to a forest it also does to a copy, if it is told the other identifiers. Nothing
needs to be known of the nodes that only the copy has, since no edit comes to them.
-/

namespace WikiMarkup

namespace Edit

variable {numbering : Numbering} {forest copy : Forest} (copies : numbering.Copies forest copy)

include copies

/-! ### Checks -/

/-- A node and its counterpart are found together, or neither is. -/
theorem node_follows (id : NodeId) :
    Follows numbering.Copies (fun node found => found = node.renumbered numbering) forest copy
      (node id) (node (numbering id)) := by
  refine .get ?_
  rw [copies.get?_eq]
  cases forest.get? id with
  | none => exact .of_error rfl
  | some found => exact .pure copies rfl

/-- Corresponding changes of corresponding nodes keep copies. -/
theorem modifyNode_follows (id : NodeId) (change otherChange : Node → Node)
    (h : ∀ node, otherChange (node.renumbered numbering) = (change node).renumbered numbering) :
    Follows numbering.Copies Eq forest copy (modifyNode id change)
      (modifyNode (numbering id) otherChange) :=
  (node_follows copies id).bind fun _ _ _ _ _ hAfter =>
    .of_modify _ _ (hAfter.modify id change otherChange h)

/-- Climbing is followed parent by parent, with as many steps to spare at least. -/
theorem checkAbove_follows (child target current : NodeId) {steps more : Nat} (h : steps ≤ more) :
    Follows numbering.Copies Eq forest copy (checkAbove child target steps current)
      (checkAbove (numbering child) (numbering target) more (numbering current)) := by
  induction steps generalizing current more forest copy with
  | zero => exact .of_error rfl
  | succ steps ih =>
    obtain ⟨more, rfl⟩ := Nat.exists_eq_add_of_lt h
    rw [checkAbove, checkAbove]
    simp only [Numbering.eq_iff]
    split_ifs
    · exact .of_error rfl
    · refine (node_follows copies current).bind fun node found _ _ hFound hAfter => ?_
      subst hFound
      cases hParent : node.parent with
      | none =>
        rw [Node.renumbered, hParent]
        exact .pure hAfter rfl
      | some parent =>
        rw [Node.renumbered, hParent]
        exact ih hAfter parent (by omega)

/-- A node may be placed where its counterpart may be placed. -/
theorem checkPlacement_follows (child target : NodeId) :
    Follows numbering.Copies Eq forest copy (checkPlacement child target)
      (checkPlacement (numbering child) (numbering target)) := by
  have hSize := copies.size_le
  rw [checkPlacement, checkPlacement]
  simp only [Numbering.eq_root_iff]
  split_ifs
  · exact .of_error rfl
  · exact .get (checkAbove_follows copies child target target (by omega))

/-- Nodes may replace another where their counterparts may. -/
theorem checkReplacements_follows (target : NodeId) (before ids : List NodeId) :
    Follows numbering.Copies Eq forest copy (checkReplacements target before ids)
      (checkReplacements (numbering target) (before.map numbering) (ids.map numbering)) := by
  induction ids generalizing before forest copy with
  | nil => exact .pure copies rfl
  | cons id rest ih =>
    refine (node_follows copies id).bind fun _ _ _ _ _ hFound => ?_
    refine (checkPlacement_follows hFound id target).bind fun _ _ _ _ _ hPlaced => ?_
    simp only [Numbering.mem_map_iff]
    split_ifs
    · exact .of_error rfl
    · exact ih hPlaced (id :: before)

/-! ### Steps -/

theorem touch_follows :
    Follows numbering.Copies Eq forest copy (modify (·.touch) : Edit Unit) (modify (·.touch)) :=
  .of_modify _ _ copies.touch

theorem unlink_follows (parent : NodeId) (position : Nat) (child : NodeId) :
    Follows numbering.Copies Eq forest copy
      (modify (·.unlink parent position child) : Edit Unit)
      (modify (·.unlink (numbering parent) position (numbering child))) :=
  .of_modify _ _ (copies.unlink parent position child)

theorem link_follows (parent : NodeId) (position : Nat) (child : NodeId) :
    Follows numbering.Copies Eq forest copy
      (modify (·.link parent position child) : Edit Unit)
      (modify (·.link (numbering parent) position (numbering child))) :=
  .of_modify _ _ (copies.link parent position child)

theorem erase_follows (parent : NodeId) (position : Nat) :
    Follows numbering.Copies Eq forest copy
      (modify (·.modify parent fun node =>
        { node with children := node.children.eraseIdx position }) : Edit Unit)
      (modify (·.modify (numbering parent) fun node =>
        { node with children := node.children.eraseIdx position })) :=
  .of_modify _ _ (copies.modify parent _ _ fun node => by
    simp only [Node.renumbered, List.eraseIdx_map])

/-- A node and its counterpart are detached from corresponding places. -/
theorem detach_follows (id : NodeId) :
    Follows numbering.Copies
      (fun origin found => found = origin.map fun from_ => (numbering from_.1, from_.2))
      forest copy (detach id) (detach (numbering id)) := by
  refine (node_follows copies id).bind fun node found _ _ hFound hAfter => ?_
  subst hFound
  cases hParent : node.parent with
  | none =>
    rw [Node.renumbered, hParent]
    exact .pure hAfter rfl
  | some parent =>
    rw [Node.renumbered, hParent]
    refine .get ?_
    rw [hAfter.position?_eq]
    cases Forest.position? _ parent id with
    | none => exact .of_error rfl
    | some position =>
      exact (unlink_follows hAfter parent position id).bind
        fun _ _ _ _ _ hUnlinked => .pure hUnlinked rfl

omit copies in
/-- Insertion points shift alike. -/
theorem shifted_renumbered (target : NodeId) (point : Nat) (origin : Option (NodeId × Nat)) :
    shifted (numbering target) point (origin.map fun from_ => (numbering from_.1, from_.2)) =
      shifted target point origin := by
  cases origin with
  | none => rfl
  | some origin => simp only [Option.map_some, shifted, Numbering.eq_iff]

/-- Nodes and their counterparts come to lie at the same points. -/
theorem placeAt_follows (target : NodeId) (point : Nat) (ids : List NodeId) :
    Follows numbering.Copies Eq forest copy (placeAt target point ids)
      (placeAt (numbering target) point (ids.map numbering)) := by
  induction ids generalizing point forest copy with
  | nil => exact .pure copies rfl
  | cons id rest ih =>
    refine (detach_follows copies id).bind fun origin found _ _ hFound hAfter => ?_
    subst hFound
    rw [shifted_renumbered]
    exact (link_follows hAfter target _ id).bind fun _ _ _ _ _ hLinked => ih hLinked _

/-! ### Operations -/

/-- Appending is followed by appending the counterpart. -/
theorem append_follows (parent child : NodeId) :
    Follows numbering.Copies Eq forest copy (append parent child)
      (append (numbering parent) (numbering child)) := by
  refine (node_follows copies child).bind fun _ _ _ _ _ hFound => ?_
  refine (checkPlacement_follows hFound child parent).bind fun _ _ _ _ _ hPlaced => ?_
  refine (detach_follows hPlaced child).bind fun _ _ _ _ _ hDetached => ?_
  refine (node_follows hDetached parent).bind fun last found _ _ hLast hAfter => ?_
  subst hLast
  rw [Node.renumbered, List.length_map]
  exact link_follows hAfter parent last.children.length child

/-- Replacing is followed by replacing the counterpart. -/
theorem replace_follows (parent child : NodeId) (replacements : List NodeId) :
    Follows numbering.Copies Eq forest copy (replace parent child replacements)
      (replace (numbering parent) (numbering child) (replacements.map numbering)) := by
  refine .get ?_
  rw [copies.position?_eq]
  cases forest.position? parent child with
  | none => exact .of_error rfl
  | some position =>
    refine (checkReplacements_follows copies parent [] replacements).bind
      fun _ _ _ _ _ hChecked => ?_
    refine (erase_follows hChecked parent position).bind fun _ _ _ _ _ hErased => ?_
    refine (modifyNode_follows hErased child (fun node => { node with parent := none })
      (fun node => { node with parent := none }) fun _ => rfl).bind fun _ _ _ _ _ hFreed => ?_
    exact (touch_follows hFreed).bind
      fun _ _ _ _ _ hTouched => placeAt_follows hTouched parent position replacements

theorem remove_follows (parent child : NodeId) :
    Follows numbering.Copies Eq forest copy (remove parent child)
      (remove (numbering parent) (numbering child)) :=
  replace_follows copies parent child []

/-- Moving is followed by moving the counterpart. -/
theorem moveBeside_follows (id target : NodeId) (before : Bool) :
    Follows numbering.Copies Eq forest copy (moveBeside id target before)
      (moveBeside (numbering id) (numbering target) before) := by
  refine (node_follows copies id).bind fun _ _ _ _ _ hFirst => ?_
  refine (node_follows hFirst target).bind fun node found _ _ hFound hAfter => ?_
  subst hFound
  cases hParent : node.parent with
  | none => exact .of_error rfl
  | some parent =>
    rw [Node.renumbered, hParent, Option.map_some]
    dsimp only
    by_cases hSame : id = target
    · rw [if_pos hSame]
      exact .of_error rfl
    · rw [if_neg hSame, if_neg (mt numbering.eq_iff.mp hSame)]
      refine (checkPlacement_follows hAfter id parent).bind fun _ _ _ _ _ hPlaced => ?_
      refine (detach_follows hPlaced id).bind fun _ _ _ _ _ hDetached => ?_
      refine .get ?_
      rw [hDetached.position?_eq]
      cases Forest.position? _ parent target with
      | none => exact .of_error rfl
      | some position => exact link_follows hDetached parent _ id

end Edit

end WikiMarkup
