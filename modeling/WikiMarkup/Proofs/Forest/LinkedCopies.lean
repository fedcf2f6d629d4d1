import WikiMarkup.Proofs.Forest.Copying
import WikiMarkup.Proofs.Forest.Linking

/-!
# Linking a copy

A parser leaves links upwards out, or something stands in them that means nothing. A forest copies
another **downwards** if all but these links is the same (`Numbering.CopiesDownwards`). Linking
upwards goes along the links downwards only, so it makes the same links in both.

**Key result.** `linkUpwards_follows`: where the forest of a parse tree is copied downwards, it is
copied in full once both have been linked.
-/

namespace WikiMarkup

namespace Numbering

/-- A forest copies another in all but the links upwards. -/
structure CopiesDownwards (numbering : Numbering) (forest copy : Forest) : Prop where
  /-- What is on the nodes is the same. -/
  label?_eq : ∀ id : NodeId, copy.label? (numbering id) = forest.label? id
  /-- So are the children. -/
  children_eq : ∀ id : NodeId, copy.children (numbering id) = (forest.children id).map numbering
  /-- It holds a fixed number of further nodes. -/
  size_eq : copy.size = forest.size + numbering.spare
  /-- It is a fixed number of changes ahead. -/
  revision_eq : copy.revision = forest.revision + numbering.ahead
  /-- What is added to both gets the same number up to numbering. -/
  fresh : ∀ index : Nat, forest.size ≤ index → numbering ⟨index⟩ = ⟨index + numbering.spare⟩

/-- The links upwards that have been made agree. -/
structure LinkedAlike (numbering : Numbering) (forest copy : Forest) : Prop where
  /-- All other links agree. -/
  downwards : numbering.CopiesDownwards forest copy
  /-- The root has no parent, and a node that has one has the same. -/
  parent?_eq : ∀ id : NodeId, id = .root ∨ (forest.parent? id).isSome →
    copy.parent? (numbering id) = (forest.parent? id).map numbering

variable {numbering : Numbering} {forest copy : Forest} {id : NodeId}

theorem CopiesDownwards.mem_iff (copies : numbering.CopiesDownwards forest copy) :
    numbering id ∈ copy ↔ id ∈ forest := by
  constructor <;> intro h <;> obtain ⟨label, hLabel⟩ := Forest.exists_label?_of_mem h
  · exact Forest.mem_of_label? ((copies.label?_eq id).symm.trans hLabel)
  · exact Forest.mem_of_label? ((copies.label?_eq id).trans hLabel)

theorem CopiesDownwards.modify (copies : numbering.CopiesDownwards forest copy) (id : NodeId)
    (above otherAbove : Option NodeId) :
    numbering.CopiesDownwards (forest.modify id fun node => { node with parent := above })
      (copy.modify (numbering id) fun node => { node with parent := otherAbove }) where
  label?_eq other := by
    rw [Forest.label?_modify_parent, Forest.label?_modify_parent, copies.label?_eq]
  children_eq other := by
    rw [Forest.children_modify_parent, Forest.children_modify_parent, copies.children_eq]
  size_eq := by rw [Forest.size_modify, Forest.size_modify, copies.size_eq]
  revision_eq := copies.revision_eq
  fresh index hIndex := copies.fresh index (by rwa [Forest.size_modify] at hIndex)

/-- To make the same link in both keeps the links alike. -/
theorem LinkedAlike.modify (alike : numbering.LinkedAlike forest copy) (hId : id ∈ forest)
    (parent : NodeId) :
    numbering.LinkedAlike (forest.modify id fun node => { node with parent := some parent })
      (copy.modify (numbering id) fun node =>
        { node with parent := some (numbering parent) }) where
  downwards := alike.downwards.modify id _ _
  parent?_eq other hOther := by
    rw [Forest.parent?_modify_parent hId] at hOther ⊢
    rw [Forest.parent?_modify_parent (alike.downwards.mem_iff.mpr hId)]
    simp only [eq_iff]
    split_ifs at hOther ⊢
    · rfl
    · exact alike.parent?_eq other hOther

/-- If all nodes are linked that are linked alike, the forest is copied in full. -/
theorem LinkedAlike.copies (alike : numbering.LinkedAlike forest copy)
    (h : ∀ id ∈ forest, id = .root ∨ (forest.parent? id).isSome) :
    numbering.Copies forest copy where
  get?_eq id := by
    have copies := alike.downwards
    by_cases hId : id ∈ forest
    · obtain ⟨node, hNode⟩ := Forest.mem_iff_exists_get?.mp hId
      obtain ⟨found, hFound⟩ := Forest.mem_iff_exists_get?.mp (copies.mem_iff.mpr hId)
      have hLabel := copies.label?_eq id
      have hChildren := copies.children_eq id
      have hParent := alike.parent?_eq id (h id hId)
      rw [Forest.label?_of_get? hFound, Forest.label?_of_get? hNode, Option.some_inj] at hLabel
      rw [Forest.children_of_get? hFound, Forest.children_of_get? hNode] at hChildren
      rw [Forest.parent?_of_get? hFound, Forest.parent?_of_get? hNode] at hParent
      rw [hFound, hNode, Option.map_some, Option.some_inj]
      exact Node.eq_iff_unlinked.mpr ⟨hLabel, hChildren, hParent⟩
    · rw [Forest.get?_eq_none_iff_notMem.mpr hId,
        Forest.get?_eq_none_iff_notMem.mpr (mt copies.mem_iff.mp hId), Option.map_none]
  size_eq := alike.downwards.size_eq
  revision_eq := alike.downwards.revision_eq
  fresh := alike.downwards.fresh

end Numbering

namespace Edit

variable {numbering : Numbering} {forest copy : Forest}

theorem modifyNode_parent_follows (alike : numbering.LinkedAlike forest copy)
    (child parent : NodeId) :
    Follows numbering.LinkedAlike Eq forest copy
      (modifyNode child fun node => { node with parent := some parent })
      (modifyNode (numbering child) fun node =>
        { node with parent := some (numbering parent) }) := by
  by_cases hChild : child ∈ forest
  · have hCopy := alike.downwards.mem_iff.mpr hChild
    intro _ _ hRun
    rw [modifyNode_run _ hChild] at hRun
    cases hRun
    exact ⟨(), _, modifyNode_run _ hCopy, rfl, alike.modify hChild parent⟩
  · obtain ⟨_, hRefused⟩ := (node_guarded forest child).refuses hChild
    exact .of_error (run_bind_of_error hRefused)

theorem linkBelow_follows (alike : numbering.LinkedAlike forest copy) (id : NodeId)
    {depth deeper : Nat} (h : depth ≤ deeper) :
    Follows numbering.LinkedAlike Eq forest copy (linkBelow depth id)
      (linkBelow deeper (numbering id)) := by
  induction depth generalizing id forest copy deeper with
  | zero => exact .of_error rfl
  | succ depth ih =>
    obtain ⟨deeper, rfl⟩ := Nat.exists_eq_add_of_lt h
    refine .get ?_
    rw [alike.downwards.children_eq]
    refine Follows.forM (fun child forest copy alike => ?_) _ alike
    exact (modifyNode_parent_follows alike child id).bind
      fun _ _ _ _ _ hLinked => ih hLinked child (by omega)

/-- Linking upwards makes the same links in a copy, if there are none in the forest yet. -/
theorem linkUpwards_alike (copies : numbering.CopiesDownwards forest copy)
    (hParent : ∀ id, forest.parent? id = none) :
    Follows numbering.LinkedAlike Eq forest copy linkUpwards linkUpwards := by
  have hStart : numbering.LinkedAlike
      (forest.modify .root fun node => { node with parent := none })
      (copy.modify .root fun node => { node with parent := none }) := by
    have hModified := copies.modify .root none none
    rw [numbering.root] at hModified
    refine ⟨hModified, fun id hId => ?_⟩
    have hNone : (forest.modify .root fun node => { node with parent := none }).parent? id =
        none := by
      rw [Forest.parent?_modify_parent forest.root_mem, hParent, ite_self]
    rw [hNone] at hId ⊢
    rcases hId with rfl | hId
    · rw [numbering.root, Forest.parent?_modify_parent copy.root_mem, if_pos rfl, Option.map_none]
    · cases hId
  have hFirst : Follows numbering.LinkedAlike Eq forest copy
      (modify (·.modify .root fun node => { node with parent := none }) : Edit Unit)
      (modify (·.modify .root fun node => { node with parent := none })) :=
    .of_modify _ _ hStart
  refine hFirst.bind fun _ _ after last _ hLinked => .get ?_
  have hSize := hLinked.downwards.size_eq
  have hBelow := linkBelow_follows hLinked .root (by omega : after.size + 1 ≤ last.size + 1)
  rwa [numbering.root] at hBelow

/-- **Linking the copy of a parse tree** makes it a full copy, whatever links upwards it had. -/
theorem linkUpwards_follows {tree : ParseTree}
    (copies : numbering.CopiesDownwards (Forest.ofParseTree tree) copy) :
    Follows numbering.Tracks Eq (Forest.ofParseTree tree) copy linkUpwards linkUpwards := by
  refine (linkUpwards_alike copies (Forest.parent?_ofParseTree tree)).strengthen
    fun _ after _ hRun hAlike => ?_
  obtain ⟨linked, hLink, wellFormed, same⟩ := linkUpwards_run tree
  rw [hLink] at hRun
  cases hRun
  refine ⟨wellFormed, hAlike.copies fun id hId => ?_⟩
  have hReaches : after.Reaches .root id :=
    same.reaches_iff.mpr (Forest.reaches_ofParseTree (same.mem_iff.mp hId))
  rcases wellFormed.linked.reaches_iff_parent.mp hReaches with rfl | ⟨parent, hParent, -⟩
  · exact .inl rfl
  · exact .inr (Option.isSome_iff_exists.mpr ⟨parent, hParent⟩)

end Edit

end WikiMarkup
