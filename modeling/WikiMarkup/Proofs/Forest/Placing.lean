import WikiMarkup.Forest.Navigation
import WikiMarkup.Proofs.Forest.Splicing

/-!
# Placing a single node

Where a node goes that is put last under a parent, or right before or right after a target. The
insertion point is looked up when the node has been taken away from where it was, so it does not
matter whether it was under the same parent, and on which side of the target. `Forest.Placed` says
what comes out, for every node of the forest.

**Key result.** `places_exactly`: an append and a move that succeed place the node exactly where
they say. To put a node behind the last child of a list and to append it to the list is the same,
down to the failures.
-/

namespace WikiMarkup

namespace Forest

/-- What comes out if a node is placed under a parent, whose children are then as given. -/
structure Placed (forest after : Forest) (parent id : NodeId) (children : List NodeId) : Prop where
  /-- The parent has these children. -/
  children_parent : after.children parent = children
  /-- The node has the parent. -/
  parent?_self : after.parent? id = some parent
  /-- The parent that the node had before loses it and nothing else. -/
  children_former : ∀ former : NodeId, forest.parent? id = some former → former ≠ parent →
    after.children former = (forest.children former).erase id
  /-- The node keeps its children. -/
  children_self : after.children id = forest.children id
  /-- Whatever is below the node stays as it is. -/
  get?_below : ∀ below : NodeId, below ≠ id → forest.Reaches id below →
    after.get? below = forest.get? below
  /-- So does every node but the three. -/
  get?_other : ∀ other : NodeId, other ≠ id → other ≠ parent → forest.parent? id ≠ some other →
    after.get? other = forest.get? other
  /-- No other parent changes. -/
  parent?_of_ne : ∀ other : NodeId, other ≠ id → after.parent? other = forest.parent? other
  /-- Only links change. -/
  label?_eq : ∀ other : NodeId, after.label? other = forest.label? other
  /-- The node counts once for its new place, and once more if it had a parent. -/
  revision_eq : after.revision =
    forest.revision + (1 + if (forest.parent? id).isSome then 1 else 0)

variable {forest : Forest} {parent id : NodeId} {front back : List NodeId}

/-- To move a node is to place it where the children of the parent are split, once the node is not
among them. -/
theorem WellFormed.placed_move (wellFormed : forest.WellFormed)
    (hPlaceable : forest.Placeable parent id)
    (hChildren : (forest.children parent).erase id = front ++ back) :
    forest.Placed (forest.move parent front.length id) parent id (front ++ id :: back) := by
  have linked := wellFormed.linked
  have hNe : parent ≠ id := by
    rintro rfl
    exact hPlaceable.not_reaches (Reaches.refl forest parent)
  have hOther : ∀ other, other ≠ id → other ≠ parent → forest.parent? id ≠ some other →
      (forest.move parent front.length id).get? other = forest.get? other := by
    intro other hId hParent hFormer
    refine get?_eq_iff.mpr ⟨label?_move, ?_, ?_⟩
    · rw [children_move_of_ne linked hPlaceable.parent_mem (Ne.symm hParent),
        List.erase_of_not_mem (mt linked.parent_iff.mpr hFormer)]
    · rw [parent?_move hPlaceable.child_mem, if_neg (Ne.symm hId)]
  refine ⟨children_move_self hPlaceable.parent_mem ?_, ?_, ?_, ?_, ?_, hOther, ?_,
    fun _ => label?_move, ?_⟩
  · rw [linked.children_cut, hChildren]
  · rw [parent?_move hPlaceable.child_mem, if_pos rfl]
  · exact fun former _ hFormer =>
      children_move_of_ne linked hPlaceable.parent_mem (Ne.symm hFormer)
  · rw [children_move_of_ne linked hPlaceable.parent_mem hNe, List.erase_of_not_mem]
    exact fun h => wellFormed.not_reaches_of_mem_children h (Reaches.refl forest id)
  · intro below hBelow hReaches
    refine hOther below hBelow ?_ fun h => wellFormed.not_reaches_parent h hReaches
    rintro rfl
    exact hPlaceable.not_reaches hReaches
  · intro other hId
    rw [parent?_move hPlaceable.child_mem, if_neg (Ne.symm hId)]
  · rw [revision_move]
    omega

end Forest

namespace Edit

variable {forest after : Forest} {parent id target list last : NodeId} {before : Bool}

/-- A node that is appended comes last. -/
theorem append_placed (wellFormed : forest.WellFormed)
    (hRun : (append parent id).run forest = .ok () after) :
    forest.Placed after parent id ((forest.children parent).erase id ++ [id]) := by
  have guarded := append_guarded wellFormed parent id
  have hPlaceable := guarded.ends_iff.mp ⟨(), after, hRun⟩
  obtain ⟨_, _, hEnds, hAfter⟩ := guarded.ends hPlaceable
  rw [hRun] at hEnds
  cases hEnds
  rw [hAfter, wellFormed.linked.children_cut]
  exact wellFormed.placed_move hPlaceable (List.append_nil _).symm

/-- A node that is moved beside a target comes right before it or right after it. -/
theorem moveBeside_placed (wellFormed : forest.WellFormed)
    (hRun : (moveBeside id target before).run forest = .ok () after) :
    ∃ parent front back, forest.parent? target = some parent ∧
      (forest.children parent).erase id = front ++ [target] ++ back ∧
      forest.Placed after parent id
        (front ++ (if before then [id, target] else [target, id]) ++ back) := by
  have guarded := moveBeside_guarded wellFormed id target before
  have hAllowed := guarded.ends_iff.mp ⟨(), after, hRun⟩
  obtain ⟨_, _, hEnds, parent, front, back, hParent, hChildren, hAfter⟩ := guarded.ends hAllowed
  rw [hRun] at hEnds
  cases hEnds
  obtain ⟨-, above, hAbove, hPlaceable⟩ := hAllowed
  rw [hParent, Option.some_inj] at hAbove
  subst hAbove
  refine ⟨parent, front, back, hParent, by simpa using hChildren, ?_⟩
  rw [hAfter]
  cases before with
  | true => simpa using wellFormed.placed_move hPlaceable hChildren
  | false =>
    -- the target belongs to what stands before the insertion point
    have hSplit : (forest.children parent).erase id = (front ++ [target]) ++ back := by
      simpa using hChildren
    simpa using wellFormed.placed_move hPlaceable hSplit

/-- A place that is refused is refused with the same failure, whichever way one asks for it. -/
theorem moveBeside_run_of_not_placeable (wellFormed : forest.WellFormed)
    (hParent : forest.parent? target = some parent) (hNe : id ≠ target)
    (hRefused : ¬ forest.Placeable parent id) :
    (moveBeside id target before).run forest = (append parent id).run forest := by
  obtain ⟨found, hFound⟩ := Forest.mem_iff_exists_get?.mp (Forest.mem_of_parent? hParent)
  rw [Forest.parent?_of_get? hFound] at hParent
  rw [moveBeside, append]
  by_cases hId : id ∈ forest
  · obtain ⟨node, hNode⟩ := Forest.mem_iff_exists_get?.mp hId
    obtain ⟨failure, hFails⟩ := (checkPlacement_guarded wellFormed id parent).refuses fun h =>
      hRefused (Forest.placeable_iff.mpr ⟨hId, h⟩)
    rw [run_bind_of_ok (node_run hNode), run_bind_of_ok (node_run hNode),
      run_bind_of_ok (node_run hFound), run_bind_of_error hFails, hParent]
    dsimp only
    rw [if_neg hNe]
    exact run_bind_of_error hFails
  · -- there is no such node, which both find out first
    obtain ⟨failure, hFails⟩ := (node_guarded forest id).refuses hId
    rw [run_bind_of_error hFails, run_bind_of_error hFails]

/-- **Behind the last child is the end of the list**: the two ways to put a node there come to the
same, whether they succeed or fail. -/
theorem moveBeside_last_run (wellFormed : forest.WellFormed)
    (hLast : forest.lastChild? list = some last) (hNe : last ≠ id) :
    (moveBeside id last false).run forest = (append list id).run forest := by
  have linked := wellFormed.linked
  obtain ⟨init, hInit⟩ := List.getLast?_eq_some_iff.mp hLast
  have hParent : forest.parent? last = some list := linked.parent_iff.mpr (by simp [hInit])
  by_cases hPlaceable : forest.Placeable list id
  · obtain ⟨_, moved, hMove, parent, front, back, hAbove, hChildren, hMoved⟩ :=
      (moveBeside_guarded wellFormed id last false).ends ⟨hNe.symm, list, hParent, hPlaceable⟩
    obtain ⟨_, appended, hAppend, hAppended⟩ := (append_guarded wellFormed list id).ends hPlaceable
    rw [hParent, Option.some_inj] at hAbove
    subst hAbove
    -- the last child is still the last one once the node has been taken away
    have hErased : (forest.children list).erase id = init.erase id ++ [last] := by
      rw [hInit, List.erase_append]
      split
      next => rfl
      next hNot =>
        rw [List.erase_of_not_mem hNot, List.erase_of_not_mem (by simpa using hNe.symm)]
    have hNodup := (linked.nodup list).erase id
    have hLength : front.length = (init.erase id).length := by
      rw [← idxOf_middle (hChildren ▸ hNodup), ← hChildren, hErased,
        idxOf_middle (hErased ▸ hNodup)]
    rw [hMove, hAppend, hMoved, hAppended, linked.children_cut, hErased, List.length_append,
      hLength]
    rfl
  · exact moveBeside_run_of_not_placeable wellFormed hParent hNe.symm hPlaceable

/-- **Nodes are placed exactly.** An append puts the node behind the other children of the parent, a
move puts it right before or right after the target, and nothing else changes but the parent that
the node had before. To move behind the last child of a list is to append to the list. -/
theorem places_exactly (wellFormed : forest.WellFormed) :
    (∀ parent id after, (append parent id).run forest = .ok () after →
      forest.Placed after parent id ((forest.children parent).erase id ++ [id])) ∧
    (∀ id target before after, (moveBeside id target before).run forest = .ok () after →
      ∃ parent front back, forest.parent? target = some parent ∧
        (forest.children parent).erase id = front ++ [target] ++ back ∧
        forest.Placed after parent id
          (front ++ (if before then [id, target] else [target, id]) ++ back)) ∧
    ∀ list last id, forest.lastChild? list = some last → last ≠ id →
      (moveBeside id last false).run forest = (append list id).run forest :=
  ⟨fun _ _ _ => append_placed wellFormed, fun _ _ _ _ => moveBeside_placed wellFormed,
    fun _ _ _ => moveBeside_last_run wellFormed⟩

/-- Of three nodes side by side the first goes in front of the third, or to the end of what is below
the second, on either of the two ways to get there. -/
theorem places_exactly_threeBranches :
    ∃ forest moved appended, linkUpwards.run (.ofParseTree threeBranches) = .ok () forest ∧
      forest.WellFormed ∧ (moveBeside ⟨1⟩ ⟨6⟩ true).run forest = .ok () moved ∧
      forest.Placed moved .root ⟨1⟩ [⟨3⟩, ⟨1⟩, ⟨6⟩] ∧
      (append ⟨3⟩ ⟨1⟩).run forest = .ok () appended ∧
      forest.Placed appended ⟨3⟩ ⟨1⟩ [⟨4⟩, ⟨5⟩, ⟨1⟩] ∧
      (moveBeside ⟨1⟩ ⟨5⟩ false).run forest = .ok () appended := by
  obtain ⟨forest, hLink, wellFormed, same⟩ := linkUpwards_run threeBranches
  have hChildren : forest.children .root = [⟨1⟩, ⟨3⟩, ⟨6⟩] ∧ forest.children ⟨3⟩ = [⟨4⟩, ⟨5⟩] := by
    rw [same.children_eq, same.children_eq]
    decide +kernel
  have hParent : forest.parent? ⟨6⟩ = some .root := by
    rw [wellFormed.linked.parent_iff, hChildren.1]
    simp
  have hMoves : observed (fun result _ => result)
      ((do linkUpwards; moveBeside ⟨1⟩ ⟨6⟩ true : Edit Unit).run
        (.ofParseTree threeBranches)) = some () := by decide +kernel
  have hAppends : observed (fun result _ => result)
      ((do linkUpwards; append ⟨3⟩ ⟨1⟩ : Edit Unit).run
        (.ofParseTree threeBranches)) = some () := by decide +kernel
  rw [run_bind_of_ok hLink] at hMoves hAppends
  obtain ⟨_, moved, hMove, -⟩ := observed_eq_some_iff.mp hMoves
  obtain ⟨_, appended, hAppend, -⟩ := observed_eq_some_iff.mp hAppends
  obtain ⟨hAppended, hBeside, hSame⟩ := places_exactly wellFormed
  obtain ⟨parent, front, back, hAbove, hSplit, placed⟩ := hBeside _ _ _ _ hMove
  rw [hParent, Option.some_inj] at hAbove
  subst hAbove
  have placedLast := hAppended _ _ _ hAppend
  rw [hChildren.2] at placedLast
  have hEnd := hSame ⟨3⟩ ⟨5⟩ ⟨1⟩ (by rw [Forest.lastChild?, hChildren.2]; rfl) (by decide)
  refine ⟨forest, moved, appended, hLink, wellFormed, hMove, ?_, hAppend, placedLast,
    hEnd.trans hAppend⟩
  -- the target stands behind the second node and in front of nothing
  rw [hChildren.1, List.append_assoc] at hSplit
  have hTwo : [⟨3⟩] ++ ⟨6⟩ :: [] = front ++ ⟨6⟩ :: back := hSplit
  have hNodup : ([⟨3⟩] ++ ⟨6⟩ :: [] : List NodeId).Nodup := by decide
  have hLength : [NodeId.mk 3].length = front.length := by
    rw [← idxOf_middle hNodup, hTwo, idxOf_middle (hTwo ▸ hNodup)]
  obtain ⟨rfl, hBack⟩ := List.append_inj hTwo hLength
  rw [← List.cons_injective hBack] at placed
  exact placed

end Edit

end WikiMarkup
