import WikiMarkup.Proofs.Forest.Relinking
import WikiMarkup.Proofs.Outcome
import Mathlib.Data.List.Basic

/-!
# What the structural operations do

For each operation of `Forest.Edit` on a well-formed forest there is one lemma that says exactly
when it succeeds, which forest it then leaves, and that a failure changes nothing
(`append_guarded`, `push_guarded`, `replace_guarded`, `moveBeside_guarded`).

**Placeable.** All conditions come down to one: a node may be placed under another if both exist,
it is not the root, and it does not reach the other. **Gathered.** Where several nodes move to an
insertion point one after the other, `Gathered` says what comes out; that each of them remains
placeable while the others move is the reason why no step can fail half-way.
-/

namespace WikiMarkup

namespace Edit

open Forest (Placeable placeable_iff)

variable {forest : Forest} {id parent child target : NodeId} {ids : List NodeId}

/-! ### Checks -/

theorem node_run {found : Node} (h : forest.get? id = some found) :
    (node id).run forest = .ok found forest := by
  simp [node, h]

theorem node_guarded (forest : Forest) (id : NodeId) :
    Guarded (node id) forest (id ∈ forest) fun found after =>
      after = forest ∧ forest.get? id = some found := by
  cases hNode : forest.get? id with
  | none =>
    exact .of_error (Forest.get?_eq_none_iff_notMem.mp hNode)
      (by simp [node, hNode]; rfl)
  | some found =>
    exact .of_ok (Forest.mem_of_get? hNode) (node_run hNode) ⟨rfl, rfl⟩

/-- Climbing with enough steps finds out whether a node may come to lie below the target. -/
theorem checkAbove_guarded (wellFormed : forest.WellFormed) (id target : NodeId) :
    ∀ (steps : Nat) (current : NodeId), forest.height current < steps →
      Guarded (checkAbove id target steps current) forest
        (current ∈ forest ∧ ¬ forest.Reaches id current) fun _ after => after = forest := by
  have linked := wellFormed.linked
  intro steps
  induction steps with
  | zero => exact fun current h => absurd h (Nat.not_lt_zero _)
  | succ steps ih =>
    intro current hHeight
    rw [checkAbove]
    split
    next h =>
      refine .of_error (fun hCondition => hCondition.2 ?_) rfl
      rw [h]
    next h =>
      refine (node_guarded forest current).bind fun _ found hFound => ?_
      have hParent := Forest.parent?_of_get? hFound
      cases hAbove : found.parent with
      | none =>
        refine .of_ok (fun hReaches => ?_) rfl rfl
        rw [linked.reaches_iff_parent, hParent, hAbove] at hReaches
        simp [Ne.symm h] at hReaches
      | some parent =>
        rw [hAbove] at hParent
        have hLower := wellFormed.height_lt hParent
        have hClimb : forest.Reaches id current ↔ forest.Reaches id parent := by
          rw [linked.reaches_iff_parent, hParent]
          simp [Ne.symm h]
        rw [hClimb]
        refine (ih parent (by omega)).congr ?_
        exact and_iff_right (linked.mem_of_parent?_right hParent)

theorem checkPlacement_guarded (wellFormed : forest.WellFormed) (id target : NodeId) :
    Guarded (checkPlacement id target) forest
      (id ≠ .root ∧ target ∈ forest ∧ ¬ forest.Reaches id target)
      fun _ after => after = forest := by
  rw [checkPlacement]
  split
  next h => exact .of_error (fun hCondition => hCondition.1 h) rfl
  next h =>
    have hHeight := forest.height_le_size target
    refine Guarded.congr ?_ (and_iff_right h).symm
    exact (checkAbove_guarded wellFormed id target (forest.size + 1) target (by omega)).get_bind

theorem checkReplacements_guarded (wellFormed : forest.WellFormed) (target : NodeId) :
    ∀ before ids : List NodeId, Guarded (checkReplacements target before ids) forest
      ((∀ id ∈ ids, Placeable forest target id) ∧ ids.Nodup ∧ ∀ id ∈ ids, id ∉ before)
      fun _ after => after = forest := by
  intro before ids
  induction ids generalizing before with
  | nil => exact .of_ok (by simp) rfl rfl
  | cons id rest ih =>
    rw [checkReplacements]
    have hRest : Guarded
        (do
          if id ∈ before then fault (.repeatedReplacement id)
          checkReplacements target (id :: before) rest)
        forest (id ∉ before ∧ (∀ id ∈ rest, Placeable forest target id) ∧ rest.Nodup ∧
          ∀ other ∈ rest, other ∉ id :: before) fun _ after => after = forest := by
      split
      next h => exact .of_error (fun hCondition => hCondition.1 h) rfl
      next h => exact (ih (id :: before)).congr (and_iff_right h).symm
    refine Guarded.congr ((node_guarded forest id).bind fun _ _ _ =>
      (checkPlacement_guarded wellFormed id target).bind_check fun _ _ => hRest) ?_
    simp only [List.nodup_cons, List.mem_cons, not_or, placeable_iff]
    grind

/-! ### Detaching -/

theorem modifyNode_run (change : Node → Node) (h : id ∈ forest) :
    (modifyNode id change).run forest = .ok () (forest.modify id change) := by
  obtain ⟨found, hFound⟩ := Forest.mem_iff_exists_get?.mp h
  exact run_bind_of_ok (node_run hFound)

theorem position?_of_mem (h : child ∈ forest.children parent) :
    forest.position? parent child = some ((forest.children parent).idxOf child) := by
  obtain ⟨position, hPosition⟩ := Option.isSome_iff_exists.mp (List.isSome_idxOf?.mpr h)
  rw [Forest.position?, List.idxOf_eq_getD_idxOf?, hPosition, Option.getD_some]

theorem detach_run (linked : forest.Linked) (h : id ∈ forest) :
    (detach id).run forest =
      .ok ((forest.parent? id).map fun parent => (parent, (forest.children parent).idxOf id))
        (forest.cut id) := by
  obtain ⟨found, hFound⟩ := Forest.mem_iff_exists_get?.mp h
  have hParent := Forest.parent?_of_get? hFound
  rw [detach, run_bind_of_ok (node_run hFound), ← hParent]
  cases hAbove : forest.parent? id with
  | none =>
    rw [Forest.cut_of_parent?_eq_none hAbove]
    rfl
  | some parent =>
    rw [Forest.cut_of_parent?_eq_some hAbove]
    dsimp only
    rw [EStateM.run_bind, EStateM.run_get]
    dsimp only
    -- the links agree, so the parent lists the node
    rw [position?_of_mem (linked.parent_iff.mp hAbove)]
    rfl

/-! ### Gathering -/

/-- Where an insertion point lies once a node has been cut off: behind what is left of the
children that stood before it. -/
theorem shifted_eq (linked : forest.Linked) {front back : List NodeId}
    (h : forest.children parent = front ++ back) :
    shifted parent front.length
        ((forest.parent? id).map fun above => (above, (forest.children above).idxOf id)) =
      (front.erase id).length := by
  have hFront : id ∉ forest.children parent → id ∉ front := by
    rw [h]
    exact fun hNot hId => hNot (List.mem_append_left back hId)
  cases hParent : forest.parent? id with
  | none =>
    rw [Option.map_none, shifted, List.erase_of_not_mem (hFront (linked.notMem_children hParent))]
  | some above =>
    rw [Option.map_some, shifted]
    by_cases hAbove : above = parent
    · subst hAbove
      rw [h, List.idxOf_append]
      split
      next hId =>
        have hLess := List.idxOf_lt_length_of_mem hId
        rw [if_pos ⟨rfl, hLess⟩, List.length_erase_of_mem hId]
      next hId =>
        rw [if_neg (by omega), List.erase_of_not_mem hId]
    · have hNot := hFront (linked.notMem_children_of_ne hParent hAbove)
      rw [if_neg fun hBoth => hAbove hBoth.1, List.erase_of_not_mem hNot]

theorem children_cut_of_append (linked : forest.Linked) {front back : List NodeId}
    (h : forest.children parent = front ++ back) (id : NodeId) :
    (forest.cut id).children parent = front.erase id ++ back.erase id := by
  have hNodup := linked.nodup parent
  rw [h] at hNodup
  rw [linked.children_cut, h, List.erase_append]
  split
  next hId =>
    rw [List.erase_of_not_mem (List.disjoint_of_nodup_append hNodup hId)]
  next hId => rw [List.erase_of_not_mem hId]

/-- What comes out if nodes move one after the other between two parts of the children of a
parent. -/
structure Gathered (forest after : Forest) (parent : NodeId) (front ids back : List NodeId) :
    Prop where
  /-- The forest stays well-formed. -/
  wellFormed : after.WellFormed
  /-- No node comes or goes. -/
  mem_iff : ∀ {id : NodeId}, id ∈ after ↔ id ∈ forest
  /-- Only links change. -/
  label?_eq : ∀ id : NodeId, after.label? id = forest.label? id
  /-- The nodes stand in order between the two parts, and nowhere else in them. -/
  children_parent : after.children parent =
    front.filter (· ∉ ids) ++ ids ++ back.filter (· ∉ ids)
  /-- Every other node loses those of its children that move. -/
  children_of_ne : ∀ id : NodeId, parent ≠ id →
    after.children id = (forest.children id).filter (· ∉ ids)
  /-- The nodes have the parent, and no other parent changes. -/
  parent?_eq : ∀ id : NodeId,
    after.parent? id = if id ∈ ids then some parent else forest.parent? id
  /-- Each node counts once for its new place, and once more if it had a parent. -/
  revision_eq : after.revision =
    forest.revision + ids.length + (ids.filter fun id => (forest.parent? id).isSome).length

private theorem filter_erase {items : List NodeId} (hItems : items.Nodup) (rest : List NodeId) :
    (items.erase id).filter (· ∉ rest) = items.filter (· ∉ id :: rest) := by
  rw [hItems.erase_eq_filter, List.filter_filter]
  refine List.filter_congr fun other _ => ?_
  rw [Bool.eq_iff_iff]
  simp [and_comm]

/-- The first node moves, then the others gather behind it. -/
theorem Gathered.cons {after : Forest} {front back : List NodeId} (linked : forest.Linked)
    (hChildren : forest.children parent = front ++ back) (hId : forest.Placeable parent id)
    (hNotMem : id ∉ ids)
    (gathered : Gathered (forest.move parent (front.erase id).length id) after parent
      (front.erase id ++ [id]) ids (back.erase id)) :
    Gathered forest after parent front (id :: ids) back where
  wellFormed := gathered.wellFormed
  mem_iff := gathered.mem_iff.trans Forest.mem_move
  label?_eq other := by
    rw [gathered.label?_eq, Forest.label?_move]
  children_parent := by
    have hNodup := linked.nodup parent
    rw [hChildren, List.nodup_append] at hNodup
    rw [gathered.children_parent, List.filter_append, filter_erase hNodup.1,
      filter_erase hNodup.2.1]
    simp [hNotMem]
  children_of_ne other hOther := by
    rw [gathered.children_of_ne other hOther,
      Forest.children_move_of_ne linked hId.parent_mem hOther,
      filter_erase (linked.nodup other)]
  parent?_eq other := by
    rw [gathered.parent?_eq, Forest.parent?_move hId.child_mem]
    by_cases hOther : id = other
    · simp [hOther]
    · simp [hOther, Ne.symm hOther]
  revision_eq := by
    have hSame : (ids.filter fun other =>
          ((forest.move parent (front.erase id).length id).parent? other).isSome) =
        ids.filter fun other => (forest.parent? other).isSome := by
      refine List.filter_congr fun other hOther => ?_
      rw [Forest.parent?_move hId.child_mem,
        if_neg fun h : id = other => hNotMem (h ▸ hOther)]
    rw [gathered.revision_eq, hSame, Forest.revision_move, List.length_cons, List.filter_cons]
    split
    · rw [List.length_cons]
      omega
    · omega

/-- **Gathering never fails** if each node may be placed under the parent and none comes
twice. -/
theorem placeAt_run (wellFormed : forest.WellFormed) {front back : List NodeId}
    (hChildren : forest.children parent = front ++ back)
    (hPlaceable : ∀ id ∈ ids, forest.Placeable parent id) (hNodup : ids.Nodup) :
    ∃ after, (placeAt parent front.length ids).run forest = .ok () after ∧
      Gathered forest after parent front ids back := by
  induction ids generalizing forest front back with
  | nil => exact ⟨forest, rfl, wellFormed, Iff.rfl, by simp, by simp [hChildren], by simp,
      by simp, by simp⟩
  | cons id rest ih =>
    have linked := wellFormed.linked
    obtain ⟨hId, hRest⟩ := List.forall_mem_cons.mp hPlaceable
    obtain ⟨hNotMem, hNodup⟩ := List.nodup_cons.mp hNodup
    have hCut := children_cut_of_append linked hChildren id
    have hPosition : (front.erase id).length ≤ ((forest.cut id).children parent).length := by
      rw [hCut, List.length_append]
      exact Nat.le_add_right _ _
    -- the first node is in its place, and the rest goes in behind it
    have hMoved : (forest.move parent (front.erase id).length id).children parent =
        (front.erase id ++ [id]) ++ back.erase id := by
      rw [Forest.children_move_self hId.parent_mem hCut, List.append_assoc,
        List.singleton_append]
    obtain ⟨after, hRun, gathered⟩ := ih (wellFormed.move hId hPosition) hMoved
      (fun other hOther => hId.move hPosition linked (hRest other hOther)) hNodup
    refine ⟨after, ?_, gathered.cons linked hChildren hId hNotMem⟩
    rw [placeAt, run_bind_of_ok (detach_run linked hId.child_mem), shifted_eq linked hChildren]
    rw [List.length_append, List.length_singleton] at hRun
    exact hRun

/-! ### Operations -/

private theorem notMem_front {front back : List NodeId} (h : (front ++ id :: back).Nodup) :
    id ∉ front := by
  rw [List.nodup_middle, List.nodup_cons, List.mem_append, not_or] at h
  exact h.1.1

theorem idxOf_middle {front back : List NodeId} (h : (front ++ id :: back).Nodup) :
    (front ++ id :: back).idxOf id = front.length := by
  rw [List.idxOf_append, if_neg (notMem_front h), List.idxOf_cons_self, Nat.zero_add]

private theorem erase_middle {front back : List NodeId} (h : (front ++ id :: back).Nodup) :
    (front ++ id :: back).erase id = front ++ back := by
  rw [List.erase_append_right _ (notMem_front h), List.erase_cons_head]

/-- **Appending** succeeds if the child may be placed under the parent, and puts it last. -/
theorem append_guarded (wellFormed : forest.WellFormed) (parent child : NodeId) :
    Guarded (append parent child) forest (forest.Placeable parent child) fun _ after =>
      after = forest.move parent ((forest.cut child).children parent).length child := by
  rw [append, placeable_iff]
  refine (node_guarded forest child).bind fun hChild _ _ =>
    (checkPlacement_guarded wellFormed child parent).bind_ok fun hPlacement _ => ?_
  obtain ⟨last, hLast⟩ :=
    Forest.mem_iff_exists_get?.mp (Forest.mem_cut.mpr hPlacement.2.1)
  refine ⟨(), _, ?_, rfl⟩
  rw [run_bind_of_ok (detach_run wellFormed.linked hChild), run_bind_of_ok (node_run hLast),
    Forest.children_of_get? hLast]
  rfl

/-- **Pushing** succeeds if the parent exists, and puts a new node last under it. -/
theorem push_guarded (wellFormed : forest.WellFormed) (parent : NodeId) (new : Node) :
    Guarded (push parent new) forest (parent ∈ forest) fun id after =>
      id = (forest.add new).1 ∧
        after = (forest.add new).2.move parent (forest.children parent).length id := by
  refine ((node_guarded forest parent).mono fun _ _ _ h => h.1).bind_ok fun hParent _ => ?_
  obtain ⟨_, after, hAppend, hAfter⟩ := (append_guarded (wellFormed.add new) parent
    (forest.add new).1).ends (Forest.placeable_add hParent new)
  refine ⟨(forest.add new).1, after, ?_, rfl, ?_⟩
  · have hAdd : (add new).run forest = .ok (forest.add new).1 (forest.add new).2 := rfl
    rw [run_bind_of_ok hAdd, run_bind_of_ok hAppend]
    rfl
  · rw [hAfter, Forest.cut_of_parent?_eq_none (Forest.parent?_add_fst forest new),
      Forest.children_add]

/-- **Replacing** succeeds if the child is listed under the parent, and the replacements differ
from one another and may be placed there. They gather where the child was. -/
theorem replace_guarded (wellFormed : forest.WellFormed) (parent child : NodeId)
    (ids : List NodeId) :
    Guarded (replace parent child ids) forest
      (child ∈ forest.children parent ∧ (∀ id ∈ ids, forest.Placeable parent id) ∧ ids.Nodup)
      fun _ after => ∃ front back, forest.children parent = front ++ child :: back ∧
        Gathered (forest.cut child) after parent front ids back := by
  have linked := wellFormed.linked
  refine Guarded.get_bind ?_
  by_cases hChild : child ∈ forest.children parent
  · obtain ⟨front, back, hChildren⟩ := List.append_of_mem hChild
    have hNodup := linked.nodup parent
    rw [hChildren] at hNodup
    have hPosition : (forest.children parent).idxOf child = front.length := by
      rw [hChildren, idxOf_middle hNodup]
    have hCut : (forest.cut child).children parent = front ++ back := by
      rw [linked.children_cut, hChildren, erase_middle hNodup]
    rw [position?_of_mem hChild, hPosition]
    refine Guarded.congr ?_ (and_iff_right hChild).symm
    refine Guarded.congr ((checkReplacements_guarded wellFormed parent [] ids).bind_ok ?_)
      (by simp)
    rintro ⟨hPlaceable, hNodup, -⟩ -
    obtain ⟨after, hRun, gathered⟩ := placeAt_run (wellFormed.cut child) hCut
      (fun id hId => (hPlaceable id hId).cut linked) hNodup
    refine ⟨(), after, ?_, front, back, hChildren, gathered⟩
    rw [Forest.cut_of_parent?_eq_some (linked.parent_iff.mpr hChild), hPosition] at hRun
    -- the three edits that take the child out come to one `unlink`
    have hRest : ∀ {rest : Edit Unit}, rest.run (forest.unlink parent front.length child) =
        .ok () after → (do
          modify (·.modify parent fun node =>
            { node with children := node.children.eraseIdx front.length })
          modifyNode child fun node => { node with parent := none }
          modify (·.touch)
          rest : Edit Unit).run forest = .ok () after := by
      intro rest hRest
      exact (run_bind_of_ok (modifyNode_run _
        (Forest.mem_modify.mpr (linked.mem_children_right hChild)))).trans hRest
    exact hRest hRun
  · refine ⟨fun h => absurd h.1 hChild, fun _ => ⟨.notAChild parent child, ?_⟩⟩
    rw [Forest.position?, List.idxOf?_eq_none_iff.mpr hChild]
    rfl

/-- **Removing** succeeds if the child is listed under the parent, and cuts it off. -/
theorem remove_guarded (wellFormed : forest.WellFormed) (parent child : NodeId) :
    Guarded (remove parent child) forest (child ∈ forest.children parent) fun _ after =>
      after = forest.cut child := by
  have linked := wellFormed.linked
  refine ((replace_guarded wellFormed parent child []).mono fun _ _ after h => ?_).congr
    (by simp)
  obtain ⟨front, back, hChildren, gathered⟩ := h
  -- replacing by nothing is cutting off, seen node by node
  refine Forest.ext_get? (by simpa using gathered.revision_eq) fun id => ?_
  refine Forest.get?_eq_iff.mpr ⟨gathered.label?_eq id, ?_, by simpa using gathered.parent?_eq id⟩
  by_cases hId : parent = id
  · have hNodup := linked.nodup parent
    rw [hChildren] at hNodup
    rw [← hId, gathered.children_parent, linked.children_cut, hChildren, erase_middle hNodup]
    simp
  · rw [gathered.children_of_ne id hId]
    simp

/-- **Moving beside** succeeds if the target has a parent, under which the node may be placed, and
is not the node itself. -/
theorem moveBeside_guarded (wellFormed : forest.WellFormed) (id target : NodeId)
    (before : Bool) :
    Guarded (moveBeside id target before) forest
      (id ≠ target ∧ ∃ parent, forest.parent? target = some parent ∧ forest.Placeable parent id)
      fun _ after => ∃ parent front back,
        forest.parent? target = some parent ∧
        (forest.children parent).erase id = front ++ target :: back ∧
        after = forest.move parent (if before then front.length else front.length + 1) id := by
  have linked := wellFormed.linked
  have hLook : Guarded (node id) forest (id ∈ forest) fun _ after => after = forest :=
    (node_guarded forest id).mono fun _ _ _ h => h.1
  -- the condition in the order of the checks
  have hCondition : id ∈ forest ∧ target ∈ forest ∧ id ≠ target ∧
        (∃ parent, forest.parent? target = some parent ∧ forest.Placeable parent id) ↔
      id ≠ target ∧ ∃ parent, forest.parent? target = some parent ∧
        forest.Placeable parent id := by
    refine ⟨fun h => h.2.2, fun h => ?_⟩
    obtain ⟨parent, hParent, hPlaceable⟩ := h.2
    exact ⟨hPlaceable.child_mem, Forest.mem_of_parent? hParent, h⟩
  refine Guarded.congr (hLook.bind_check fun hId _ =>
    (node_guarded forest target).bind fun hTarget found hFound => ?_) hCondition
  have hParent := Forest.parent?_of_get? hFound
  cases hAbove : found.parent with
  | none =>
    rw [hAbove] at hParent
    exact ⟨fun h => by simp [hParent] at h, fun _ => ⟨.detached target, rfl⟩⟩
  | some parent =>
    rw [hAbove] at hParent
    have hListed := linked.parent_iff.mp hParent
    by_cases hSame : id = target
    · refine ⟨fun h => absurd hSame h.1, fun _ => ⟨.cycle id target, ?_⟩⟩
      simp only [hSame, if_true]
      rfl
    · have hPlaceable : id ≠ .root ∧ parent ∈ forest ∧ ¬ forest.Reaches id parent ↔
          id ≠ target ∧ ∃ above, forest.parent? target = some above ∧
            forest.Placeable above id := by
        simp [hParent, placeable_iff, hId, hSame]
      simp only [hSame, if_false]
      refine Guarded.congr ((checkPlacement_guarded wellFormed id parent).bind_ok
        fun hPlacement _ => ?_) hPlaceable
      -- the target is still listed once the node has been cut off
      have hCut : target ∈ (forest.cut id).children parent :=
        linked.mem_children_cut.mpr ⟨Ne.symm hSame, hListed⟩
      obtain ⟨front, back, hChildren⟩ := List.append_of_mem hCut
      have hNodup := (linked.cut id).nodup parent
      have hPosition : ((forest.cut id).children parent).idxOf target = front.length := by
        rw [hChildren] at hNodup ⊢
        exact idxOf_middle hNodup
      refine ⟨(), _, ?_, parent, front, back, hParent, ?_, rfl⟩
      · rw [run_bind_of_ok (detach_run linked hId)]
        simp only [EStateM.run_bind, EStateM.run_get, position?_of_mem hCut, hPosition]
        rfl
      · rw [← linked.children_cut, hChildren]

end Edit

end WikiMarkup
