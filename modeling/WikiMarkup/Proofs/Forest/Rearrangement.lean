import WikiMarkup.Generic
import WikiMarkup.Proofs.Forest.Operations

/-!
# Rearrangements

The passes change the links of a forest in few ways. A node may be cut off, or it may be moved;
beyond that it is **dissolved**, that is, its children take its place (`Dissolved`), or it is
**wrapped** on the inside, that is, a new node comes between it and its children (`Wrapped`). This
module says for each of them what becomes of the children of every node, and that on a well-formed
forest the edits of the passes do not fail to bring it about.

`SameLinks` is for changes that leave all links alone.
-/

namespace WikiMarkup

namespace Forest

variable {forest after : Forest} {id other above parent child : NodeId}

/-! ### No change of links -/

/-- Two forests have the same links. -/
structure SameLinks (forest after : Forest) : Prop where
  /-- They have the same nodes. -/
  mem_iff : ∀ {id : NodeId}, id ∈ after ↔ id ∈ forest
  /-- Each node has the same children. -/
  children_eq : ∀ id : NodeId, after.children id = forest.children id
  /-- Each node has the same parent. -/
  parent?_eq : ∀ id : NodeId, after.parent? id = forest.parent? id
  /-- No change of links has been counted. -/
  revision_eq : after.revision = forest.revision

theorem SameLinks.refl (forest : Forest) : forest.SameLinks forest :=
  ⟨Iff.rfl, fun _ => rfl, fun _ => rfl, rfl⟩

theorem SameLinks.trans {middle : Forest} (same : forest.SameLinks middle)
    (hAfter : middle.SameLinks after) : forest.SameLinks after where
  mem_iff := hAfter.mem_iff.trans same.mem_iff
  children_eq id := (hAfter.children_eq id).trans (same.children_eq id)
  parent?_eq id := (hAfter.parent?_eq id).trans (same.parent?_eq id)
  revision_eq := hAfter.revision_eq.trans same.revision_eq

/-- A change of one node that leaves its links alone leaves all links alone. -/
theorem sameLinks_modify {change : Node → Node}
    (h : ∀ node, forest.get? id = some node →
      (change node).children = node.children ∧ (change node).parent = node.parent) :
    forest.SameLinks (forest.modify id change) where
  mem_iff := mem_modify
  children_eq other := by
    rw [children, get?_modify, children]
    split
    next hId =>
      subst hId
      rw [Option.map_map]
      exact congrArg (·.getD []) (Option.map_congr fun node hNode => (h node hNode).1)
    next => rfl
  parent?_eq other := by
    rw [parent?, get?_modify, parent?]
    split
    next hId =>
      subst hId
      cases hNode : forest.get? id with
      | none => rfl
      | some node => exact (h node hNode).2
    next => rfl
  revision_eq := rfl

theorem label?_modify_self {change : Node → Node} :
    (forest.modify id change).label? id =
      (forest.get? id).map fun node => (change node).unlinked := by
  rw [label?, get?_modify, if_pos rfl, Option.map_map]
  rfl

/-- To change a node leaves all other labels as they are. -/
theorem label?_modify_of_ne {change : Node → Node} (h : id ≠ other) :
    (forest.modify id change).label? other = forest.label? other := by
  rw [label?, get?_modify, if_neg h, label?]

namespace SameLinks

variable (same : forest.SameLinks after)

include same

theorem linked (linked : forest.Linked) : after.Linked where
  root_parent := by
    rw [same.parent?_eq, linked.root_parent]
  parent_iff := by
    intro child parent
    rw [same.parent?_eq, same.children_eq]
    exact linked.parent_iff
  nodup parent := by
    rw [same.children_eq]
    exact linked.nodup parent

/-- A forest with the same links is well-formed too. -/
theorem wellFormed (wellFormed : forest.WellFormed) : after.WellFormed := by
  refine wellFormed_iff.mpr ⟨same.linked wellFormed.linked, ?_⟩
  simp only [same.parent?_eq]
  exact wellFormed.climb

/-- With the same links the same is reached. -/
theorem reaches_iff : after.Reaches above other ↔ forest.Reaches above other :=
  reaches_congr fun id _ => same.children_eq id

theorem size_eq : after.size = forest.size :=
  eq_of_forall_lt_iff fun index => (same.mem_iff : (⟨index⟩ : NodeId) ∈ after ↔ _)

theorem listed_eq : after.listed = forest.listed := by
  have hIds : after.ids = forest.ids := by
    rw [ids, ids, same.size_eq]
  rw [listed_eq_flatMap, listed_eq_flatMap, hIds]
  exact List.flatMap_congr fun id _ => same.children_eq id

end SameLinks

/-! ### Counting listings -/

/-- If nothing new is listed and something is no longer listed, there are fewer listings. -/
theorem Linked.length_listed_lt (linked : forest.Linked) (hAfter : after.Linked)
    (hListed : ∀ id, (after.parent? id).isSome → (forest.parent? id).isSome)
    (hGone : (forest.parent? id).isSome) (hId : after.parent? id = none) :
    after.listed.length < forest.listed.length := by
  have hNodup : (id :: after.listed).Nodup := by
    refine List.nodup_cons.mpr ⟨?_, hAfter.nodup_listed⟩
    rw [hAfter.mem_listed_iff, hId]
    simp
  have hSubset : id :: after.listed ⊆ forest.listed := by
    refine List.cons_subset.mpr ⟨linked.mem_listed_iff.mpr hGone, fun other hOther => ?_⟩
    rw [hAfter.mem_listed_iff] at hOther
    exact linked.mem_listed_iff.mpr (hListed other hOther)
  exact (hNodup.subperm hSubset).length_le

/-! ### Dissolving -/

/-- A node gives up its place under a parent to its children. -/
structure Dissolved (forest after : Forest) (parent id : NodeId) : Prop where
  /-- The forest stays well-formed. -/
  wellFormed : after.WellFormed
  /-- No node comes or goes. -/
  mem_iff : ∀ {other : NodeId}, other ∈ after ↔ other ∈ forest
  /-- Only links change. -/
  label?_eq : ∀ other : NodeId, after.label? other = forest.label? other
  /-- The children stand where the node was. -/
  children_parent : ∃ front back, forest.children parent = front ++ id :: back ∧
    after.children parent = front ++ forest.children id ++ back
  /-- The node has no children any more. -/
  children_self : after.children id = []
  /-- Every other node keeps its children. -/
  children_of_ne : ∀ other : NodeId, parent ≠ other → id ≠ other →
    after.children other = forest.children other
  /-- The children have the parent, the node has none, and no other parent changes. -/
  parent?_eq : ∀ other : NodeId, after.parent? other =
    if other ∈ forest.children id then some parent
    else if id = other then none else forest.parent? other
  /-- Changes of links have been counted. -/
  revision_lt : forest.revision < after.revision

/-- The node has no parent any more. -/
theorem Dissolved.parent?_self (dissolved : forest.Dissolved after parent id)
    (wellFormed : forest.WellFormed) : after.parent? id = none := by
  have hSelf : id ∉ forest.children id := fun h =>
    wellFormed.not_reaches_of_mem_children h (Reaches.refl forest id)
  rw [dissolved.parent?_eq, if_neg hSelf, if_pos rfl]

theorem Dissolved.length_listed_lt (dissolved : forest.Dissolved after parent id)
    (wellFormed : forest.WellFormed) (hParent : forest.parent? id = some parent) :
    after.listed.length < forest.listed.length := by
  have linked := wellFormed.linked
  refine linked.length_listed_lt dissolved.wellFormed.linked (fun other hOther => ?_)
    (by rw [hParent]; rfl) (dissolved.parent?_self wellFormed)
  rw [dissolved.parent?_eq] at hOther
  split at hOther
  next hChild => rw [linked.parent_iff.mpr hChild]; rfl
  next =>
    split at hOther
    · cases hOther
    · exact hOther

/-! ### Wrapping -/

/-- A new node of some kind comes between a node and its children. -/
structure Wrapped (forest after : Forest) (id wrapper : NodeId) (kind : Kind) : Prop where
  /-- The forest stays well-formed. -/
  wellFormed : after.WellFormed
  /-- The wrapper is new. -/
  notMem : wrapper ∉ forest
  /-- No other node comes or goes. -/
  mem_iff : ∀ {other : NodeId}, other ∈ after ↔ other ∈ forest ∨ other = wrapper
  /-- The wrapper has a kind and nothing else. -/
  label?_wrapper : after.label? wrapper = some { kind := kind }
  /-- Of the other nodes only the links change. -/
  label?_eq : ∀ other : NodeId, other ≠ wrapper → after.label? other = forest.label? other
  /-- The wrapper is the only child of the node. -/
  children_self : after.children id = [wrapper]
  /-- The wrapper has the children that the node had. -/
  children_wrapper : after.children wrapper = forest.children id
  /-- Every other node keeps its children. -/
  children_of_ne : ∀ other : NodeId, other ≠ id → other ≠ wrapper →
    after.children other = forest.children other

end Forest

namespace Edit

variable {forest : Forest} {id other parent child : NodeId} {ids : List NodeId}

/-- Replacing a node by its own children dissolves it. -/
theorem dissolve_run (wellFormed : forest.WellFormed)
    (hParent : forest.parent? id = some parent) :
    ∃ after, (replace parent id (forest.children id)).run forest = .ok () after ∧
      forest.Dissolved after parent id := by
  have linked := wellFormed.linked
  have hId := linked.parent_iff.mp hParent
  have hNe : parent ≠ id := by
    rintro rfl
    exact wellFormed.not_reaches_of_mem_children hId (Forest.Reaches.refl forest parent)
  -- no other node lists a child of the node
  have hApart : ∀ {above}, id ≠ above → ∀ other ∈ forest.children above,
      decide (other ∉ forest.children id) = true := by
    intro above hAbove other hOther
    rw [decide_eq_true_eq]
    exact fun hAgain => hAbove (linked.eq_of_mem_children hAgain hOther)
  -- a child does not reach the parent of its parent
  have hPlaceable : ∀ other ∈ forest.children id, forest.Placeable parent other := by
    intro other hOther
    refine ⟨linked.mem_children_right hOther, linked.mem_of_parent?_right hParent, ?_, ?_⟩
    · rintro rfl
      exact linked.notMem_children_root hOther
    · exact fun hReaches => wellFormed.not_reaches_of_mem_children hOther
        (hReaches.trans (Forest.Reaches.of_mem_children hId))
  obtain ⟨_, after, hRun, front, back, hChildren, gathered⟩ :=
    (replace_guarded wellFormed parent id (forest.children id)).ends
      ⟨hId, hPlaceable, linked.nodup id⟩
  refine ⟨after, hRun, gathered.wellFormed, gathered.mem_iff.trans Forest.mem_cut, ?_, ?_, ?_, ?_,
    ?_, ?_⟩
  · intro other
    rw [gathered.label?_eq, Forest.label?_cut]
  · have hParts := hApart (Ne.symm hNe)
    rw [hChildren] at hParts
    simp only [List.forall_mem_append, List.forall_mem_cons] at hParts
    refine ⟨front, back, hChildren, ?_⟩
    rw [gathered.children_parent, List.filter_eq_self.mpr hParts.1,
      List.filter_eq_self.mpr hParts.2.2]
  · rw [gathered.children_of_ne id hNe, linked.children_cut, List.filter_eq_nil_iff]
    intro other hOther
    simp [List.mem_of_mem_erase hOther]
  · intro other hParentNe hIdNe
    have hNot := linked.notMem_children_of_ne hParent hParentNe
    rw [gathered.children_of_ne other hParentNe, linked.children_cut,
      List.erase_of_not_mem hNot, List.filter_eq_self.mpr (hApart hIdNe)]
  · intro other
    rw [gathered.parent?_eq, Forest.parent?_cut]
  · have hRevision := gathered.revision_eq
    rw [Forest.revision_cut, hParent] at hRevision
    simp only [Option.isSome_some, if_true] at hRevision
    omega

/-- Appending nodes one after the other gathers them behind the children of the parent. -/
theorem appendAll_run (wellFormed : forest.WellFormed)
    (hPlaceable : ∀ id ∈ ids, forest.Placeable parent id) (hNodup : ids.Nodup) :
    ∃ after, (ids.forM (append parent)).run forest = .ok () after ∧
      Gathered forest after parent (forest.children parent) ids [] := by
  induction ids generalizing forest with
  | nil => exact ⟨forest, rfl, wellFormed, Iff.rfl, by simp, by simp, by simp, by simp, by simp⟩
  | cons id rest ih =>
    have linked := wellFormed.linked
    obtain ⟨hId, hRest⟩ := List.forall_mem_cons.mp hPlaceable
    obtain ⟨hNotMem, hNodup⟩ := List.nodup_cons.mp hNodup
    have hCut : (forest.cut id).children parent = (forest.children parent).erase id ++ [] := by
      rw [linked.children_cut, List.append_nil]
    have hPosition : ((forest.children parent).erase id).length ≤
        ((forest.cut id).children parent).length := by
      rw [linked.children_cut]
    obtain ⟨_, middle, hFirst, hMiddle⟩ := (append_guarded wellFormed parent id).ends hId
    rw [linked.children_cut] at hMiddle
    subst hMiddle
    obtain ⟨after, hLast, gathered⟩ := ih (wellFormed.move hId hPosition)
      (fun other hOther => hId.move hPosition linked (hRest other hOther)) hNodup
    rw [Forest.children_move_self hId.parent_mem hCut] at gathered
    exact ⟨after, (run_bind_of_ok hFirst).trans hLast,
      gathered.cons linked (List.append_nil _).symm hId hNotMem⟩

/-- A new node can take up the children of another. -/
private theorem takeUp_run (wellFormed : forest.WellFormed) (id : NodeId) (new : Node) :
    ∃ after, ((forest.children id).forM (append (forest.add new).1)).run (forest.add new).2 =
        .ok () after ∧
      Gathered (forest.add new).2 after (forest.add new).1 [] (forest.children id) [] := by
  have linked := wellFormed.linked
  have hNew := Forest.notMem_add_fst forest new
  have hPlaceable : ∀ child ∈ forest.children id,
      (forest.add new).2.Placeable (forest.add new).1 child := by
    intro child hChild
    have hFormer := linked.mem_children_right hChild
    refine ⟨Forest.mem_add.mpr (.inl hFormer), Forest.mem_add.mpr (.inr rfl), ?_, ?_⟩
    · rintro rfl
      exact linked.notMem_children_root hChild
    · rw [Forest.reaches_add]
      exact fun hReaches => hNew (linked.mem_of_reaches hFormer hReaches)
  obtain ⟨after, hRun, gathered⟩ :=
    appendAll_run (wellFormed.add new) hPlaceable (linked.nodup id)
  rw [Forest.children_add, Forest.children_eq_nil hNew] at gathered
  exact ⟨after, hRun, gathered⟩

section

variable {after : Forest} {new : Node} (wellFormed : forest.WellFormed) (hId : id ∈ forest)
  (gathered : Gathered (forest.add new).2 after (forest.add new).1 [] (forest.children id) [])

include wellFormed gathered

private theorem children_takenUp (hOther : other ≠ (forest.add new).1) :
    after.children other = if other = id then [] else forest.children other := by
  have linked := wellFormed.linked
  rw [gathered.children_of_ne other (Ne.symm hOther), Forest.children_add]
  split
  next h =>
    rw [h, List.filter_eq_nil_iff]
    simp
  next h =>
    rw [List.filter_eq_self]
    intro child hChild
    rw [decide_eq_true_eq]
    exact fun hAgain => h (linked.eq_of_mem_children hChild hAgain)

private theorem parent?_takenUp : after.parent? (forest.add new).1 = none := by
  rw [gathered.parent?_eq, Forest.parent?_add_fst, if_neg]
  exact fun h => Forest.notMem_add_fst forest new (wellFormed.linked.mem_children_right h)

/-- The new node reaches nothing but what was below the other. -/
private theorem reaches_takenUp (hReaches : after.Reaches (forest.add new).1 other) :
    other = (forest.add new).1 ∨ ∃ child ∈ forest.children id, forest.Reaches child other := by
  have linked := wellFormed.linked
  induction hReaches with
  | refl => exact .inl rfl
  | @tail above below _ hBelow ih =>
    rcases ih with rfl | ⟨child, hChild, hReaches⟩
    · rw [gathered.children_parent] at hBelow
      exact .inr ⟨below, by simpa using hBelow, Forest.Reaches.refl forest below⟩
    · have hFormer := linked.mem_of_reaches (linked.mem_children_right hChild) hReaches
      have hNe : above ≠ (forest.add new).1 := fun h =>
        Forest.notMem_add_fst forest new (h ▸ hFormer)
      rw [children_takenUp wellFormed gathered hNe] at hBelow
      split at hBelow
      · cases hBelow
      · exact .inr ⟨child, hChild, hReaches.trans (Forest.Reaches.of_mem_children hBelow)⟩

include hId

private theorem placeable_takenUp : after.Placeable id (forest.add new).1 := by
  have hNew := Forest.notMem_add_fst forest new
  refine ⟨?_, ?_, ?_, fun hReaches => ?_⟩
  · exact gathered.mem_iff.mpr (Forest.mem_add.mpr (.inr rfl))
  · exact gathered.mem_iff.mpr (Forest.mem_add.mpr (.inl hId))
  · exact fun h => hNew (h ▸ Forest.root_mem forest)
  · rcases reaches_takenUp wellFormed gathered hReaches with h | ⟨child, hChild, hReaches⟩
    · exact hNew (h ▸ hId)
    · exact wellFormed.not_reaches_of_mem_children hChild hReaches

end

/-- **Wrapping never fails.** -/
theorem wrapChildren_run (wellFormed : forest.WellFormed) (hId : id ∈ forest) (kind : Kind) :
    ∃ after wrapper, (wrapChildren id kind).run forest = .ok () after ∧
      forest.Wrapped after id wrapper kind := by
  have linked := wellFormed.linked
  have hNew := Forest.notMem_add_fst forest { kind := kind }
  have hNe : id ≠ (forest.add { kind := kind }).1 := fun h => hNew (h ▸ hId)
  obtain ⟨middle, hGather, gathered⟩ := takeUp_run wellFormed id { kind := kind }
  have hPlaceable := placeable_takenUp wellFormed hId gathered
  have hParent := parent?_takenUp wellFormed gathered
  have hMiddle := gathered.wellFormed.linked
  obtain ⟨_, after, hAppend, hAfter⟩ :=
    (append_guarded gathered.wellFormed id (forest.add { kind := kind }).1).ends hPlaceable
  -- the node has lost its children to the wrapper, which is now put under it
  have hEmpty : middle.children id = [] := by
    rw [children_takenUp wellFormed gathered hNe, if_pos rfl]
  have hCut : (middle.cut (forest.add { kind := kind }).1).children id = [] ++ [] := by
    rw [Forest.cut_of_parent?_eq_none hParent, hEmpty, List.nil_append]
  have hPosition : (([] : List NodeId)).length ≤
      ((middle.cut (forest.add { kind := kind }).1).children id).length := Nat.zero_le _
  rw [hCut] at hAfter
  have hKept : ∀ other, other ≠ id → after.children other = middle.children other := by
    intro other hOther
    have hNot : (forest.add { kind := kind }).1 ∉ middle.children other :=
      hMiddle.notMem_children hParent
    rw [hAfter, Forest.children_move_of_ne hMiddle hPlaceable.parent_mem (Ne.symm hOther),
      List.erase_of_not_mem hNot]
  refine ⟨after, (forest.add { kind := kind }).1, ?_, ⟨?_, hNew, ?_, ?_, ?_, ?_, ?_, ?_⟩⟩
  · have hAdd : (add { kind := kind }).run forest =
        .ok (forest.add { kind := kind }).1 (forest.add { kind := kind }).2 := rfl
    rw [← Forest.children_add forest { kind := kind } id] at hGather
    exact (run_bind_of_ok hAdd).trans ((run_bind_of_ok hGather).trans hAppend)
  · rw [hAfter]
    exact gathered.wellFormed.move hPlaceable hPosition
  · intro other
    rw [hAfter, Forest.mem_move, gathered.mem_iff]
    exact Forest.mem_add
  · rw [hAfter, Forest.label?_move, gathered.label?_eq, Forest.label?_add, if_pos rfl]
    rfl
  · intro other hOther
    rw [hAfter, Forest.label?_move, gathered.label?_eq, Forest.label?_add, if_neg hOther]
  · rw [hAfter]
    exact Forest.children_move_self hPlaceable.parent_mem hCut
  · rw [hKept _ (Ne.symm hNe), gathered.children_parent]
    simp
  · intro other hOther hWrapper
    rw [hKept other hOther, children_takenUp wellFormed gathered hWrapper, if_neg hOther]

/-- Appending an entry to a list puts it behind the entries that the list has. -/
theorem appendEntry_run {list entry : NodeId} (wellFormed : forest.WellFormed)
    (hPlaceable : forest.Placeable list entry) (hEntry : entry ∉ forest.children list) :
    (appendEntry list entry).run forest =
      .ok () (forest.move list (forest.children list).length entry) := by
  have linked := wellFormed.linked
  have hErase : (forest.children list).erase entry = forest.children list :=
    List.erase_of_not_mem hEntry
  rw [appendEntry, EStateM.run_bind, EStateM.run_get]
  dsimp only
  cases hLast : forest.lastChild? list with
  | none =>
    obtain ⟨_, after, hRun, hAfter⟩ := (append_guarded wellFormed list entry).ends hPlaceable
    rw [linked.children_cut, hErase] at hAfter
    exact hAfter ▸ hRun
  | some last =>
    obtain ⟨init, hInit⟩ := List.getLast?_eq_some_iff.mp hLast
    have hListed : last ∈ forest.children list := by
      rw [hInit]
      exact List.mem_append_right init (List.mem_singleton_self last)
    have hNe : entry ≠ last := fun h => hEntry (h ▸ hListed)
    have hParent := linked.parent_iff.mpr hListed
    obtain ⟨_, after, hRun, parent, front, back, hAbove, hChildren, hAfter⟩ :=
      (moveBeside_guarded wellFormed entry last false).ends ⟨hNe, list, hParent, hPlaceable⟩
    rw [hParent, Option.some_inj] at hAbove
    subst hAbove
    have hNodup := linked.nodup list
    rw [hErase] at hChildren
    -- the last entry is listed once, so it is last in both ways to see the list
    have hFront : front.length = init.length := by
      rw [← idxOf_middle (hChildren ▸ hNodup), ← hChildren, hInit,
        idxOf_middle (hInit ▸ hNodup)]
    have hLength : (forest.children list).length = front.length + 1 := by
      rw [hInit, List.length_append, List.length_singleton, hFront]
    rw [hLength]
    exact hAfter ▸ hRun

end Edit

end WikiMarkup
