import WikiMarkup.Proofs.Forest.ReadingOrder

/-!
# Steps that advance

Every change of a forest that a pass makes at a node is a step that advances: to leave all links
alone, to cut the node off, to dissolve it or the parent in which it is alone, to wrap what is
below it, and to file it in a list that stands before it.

Most of these steps leave everything below the node as it is. For them `Advance.of_below` asks for
little: what becomes of nodes that are apart, of the order among siblings, and of the root.
-/

namespace WikiMarkup

namespace Forest

variable {forest relabelled after : Forest}
  {id other above parent child first second left right : NodeId}

/-! ### Steps that leave everything below alone -/

theorem WellFormed.pending_children (wellFormed : forest.WellFormed) (id : NodeId) :
    forest.Pending (forest.children id) where
  mem _ := wellFormed.linked.mem_children_right
  apart := wellFormed.pairwise_apart_children id

/-- If a node keeps its children, what stands before one of them is below the node. -/
private theorem Linked.reaches_of_earlier_child (linked : after.Linked)
    (hChildren : after.children id = forest.children id) (hSecond : second ∈ forest.children id)
    (h : after.Earlier first second) : forest.Reaches id first := by
  have hParent := h.parent?_eq linked
  rw [← hChildren, ← linked.parent_iff] at hSecond
  rw [hSecond, linked.parent_iff, hChildren] at hParent
  exact Reaches.of_mem_children hParent

section

variable (wellFormed : forest.WellFormed)
  (hBelow : ∀ {other}, forest.Reaches id other → other ≠ id →
    after.children other = forest.children other)

include wellFormed hBelow

/-- What is below a child stays the same if it stays the same below the node. -/
private theorem children_below_child (hChild : child ∈ forest.children id)
    (h : forest.Reaches child other) :
    other ≠ id ∧ after.children other = forest.children other := by
  have hNe : other ≠ id := fun hId => wellFormed.not_reaches_of_mem_children hChild (hId ▸ h)
  exact ⟨hNe, hBelow ((Reaches.of_mem_children hChild).trans h) hNe⟩

private theorem reaches_child_iff (hChild : child ∈ forest.children id) :
    after.Reaches child other ↔ forest.Reaches child other :=
  reaches_congr fun _ h => (children_below_child wellFormed hBelow hChild h).2

/-- All that was below the node is below its children. -/
private theorem covers_children (h : forest.Reaches id other) :
    id = other ∨ ∃ child ∈ forest.children id, after.Reaches child other := by
  rcases reaches_iff_child.mp h with h | ⟨child, hChild, h⟩
  · exact .inl h
  · exact .inr ⟨child, hChild, (reaches_child_iff wellFormed hBelow hChild).mpr h⟩

/-- The children need less room than the node. -/
private theorem fits_children
    (hLabel : ∀ {other}, other ∈ forest → other ≠ id → after.label? other = forest.label? other)
    {depth : Nat} (hFits : forest.Fits depth id) :
    ∃ below, depth = below + forest.weight id ∧
      ∀ child ∈ forest.children id, after.Fits below child := by
  have linked := wellFormed.linked
  cases hFits with
  | @of_children _ below _ hDepth hChildren =>
    refine ⟨depth - forest.weight id, by omega, fun child hChild => ?_⟩
    refine ((hChildren child hChild).of_le (by omega)).congr fun other hOther => ?_
    obtain ⟨hNe, hSame⟩ := children_below_child wellFormed hBelow hChild hOther
    have hMem := linked.mem_of_reaches (linked.mem_children_right hChild) hOther
    exact ⟨hSame, (weight_congr (hLabel hMem hNe)).le⟩

end

/-- A step that leaves everything below the node as it is advances under few conditions. -/
theorem Advance.of_below (wellFormed : forest.WellFormed) (hAfter : after.WellFormed)
    (hMem : ∀ {other}, other ∈ forest → other ∈ after)
    (hLabel : ∀ {other}, other ∈ forest → other ≠ id → after.label? other = forest.label? other)
    (hBelow : ∀ {other}, forest.Reaches id other →
      after.children other = forest.children other)
    (hApart : ∀ {other}, forest.Apart id other → after.children other = forest.children other)
    (hRoot : ∀ {above below}, forest.Reaches .root above → below ∈ after.children above →
      forest.Reaches .root below)
    (hEarlier : ∀ {first second}, ¬ forest.Reaches id first → ¬ forest.Reaches id second →
      after.Earlier first second → forest.Earlier first second) :
    forest.Advance id after (after.children id) := by
  have hSelf := hBelow (Reaches.refl forest id)
  have hProper : ∀ {other}, forest.Reaches id other → other ≠ id →
      after.children other = forest.children other := fun h _ => hBelow h
  rw [hSelf]
  refine ⟨hAfter, hMem, fun _ => hApart, hLabel, ?_, ?_, covers_children wellFormed hProper, ?_,
    hEarlier, ?_, ?_⟩
  · rw [← hSelf]
    exact hAfter.pending_children id
  · intro above other hAbove _ h
    rw [reaches_child_iff wellFormed hProper hAbove] at h
    exact (Reaches.of_mem_children hAbove).trans h
  · intro other hOther h
    clear hOther
    induction h with
    | refl => exact Reaches.refl forest .root
    | tail _ hChild ih => exact hRoot ih hChild
  · intro first second hFirst hSecond h
    exact absurd (hAfter.linked.reaches_of_earlier_child hSelf hSecond h) hFirst
  · intro depth hFits
    obtain ⟨below, hDepth, hChildren⟩ := fits_children wellFormed hProper hLabel hFits
    have hWeight := forest.weight_pos id
    exact ⟨depth - 1, by omega, fun child hChild => (hChildren child hChild).of_le (by omega)⟩

/-- To change nothing but the node, and no links, advances. -/
theorem SameLinks.advance (same : forest.SameLinks after) (wellFormed : forest.WellFormed)
    (hLabel : ∀ {other}, other ≠ id → after.label? other = forest.label? other) :
    forest.Advance id after (after.children id) := by
  refine .of_below wellFormed (same.wellFormed wellFormed) same.mem_iff.mpr (fun _ => hLabel)
    (fun _ => same.children_eq _) (fun _ => same.children_eq _) ?_ ?_
  · intro above below hAbove hBelow
    rw [same.children_eq] at hBelow
    exact hAbove.trans (Reaches.of_mem_children hBelow)
  · rintro first second - - ⟨parent, h⟩
    rw [same.children_eq] at h
    exact ⟨parent, h⟩

/-- To cut off the node advances. -/
theorem WellFormed.advance_cut (wellFormed : forest.WellFormed) (id : NodeId) :
    forest.Advance id (forest.cut id) ((forest.cut id).children id) := by
  have linked := wellFormed.linked
  refine .of_below wellFormed (wellFormed.cut id) mem_cut.mpr (fun _ _ => label?_cut)
    wellFormed.children_cut_of_reaches ?_ ?_ ?_
  · intro other h
    rw [linked.children_cut, List.erase_of_not_mem]
    exact fun hId => h.not_reached (Reaches.of_mem_children hId)
  · intro above below hAbove hBelow
    exact hAbove.trans (Reaches.of_mem_children (linked.mem_children_cut.mp hBelow).2)
  · rintro first second - - ⟨parent, h⟩
    rw [linked.children_cut] at h
    exact ⟨parent, h.trans List.erase_sublist⟩

/-! ### Dissolving -/

/-- A pair stays in order if a part is taken out in which neither of the two occurs. -/
theorem pair_sublist_of_notMem {front middle back : List NodeId}
    (h : [first, second].Sublist (front ++ middle ++ back)) (hFirst : first ∉ middle)
    (hSecond : second ∉ middle) : [first, second].Sublist (front ++ back) := by
  -- neither of the two is in the middle, so they are left if the middle is taken out
  have hFilter := h.filter fun id => decide (id ∉ middle)
  have hPair : ([first, second].filter fun id => decide (id ∉ middle)) = [first, second] := by
    simp [hFirst, hSecond]
  have hMiddle : (middle.filter fun id => decide (id ∉ middle)) = [] := by
    simp
  rw [hPair, List.filter_append, List.filter_append, hMiddle, List.append_nil] at hFilter
  exact hFilter.trans (List.filter_sublist.append List.filter_sublist)

namespace Dissolved

variable (dissolved : forest.Dissolved after parent id)

include dissolved

/-- Every link of the new forest leads where one or two links led before. -/
theorem reaches_of_mem_children (h : child ∈ after.children other) :
    forest.Reaches other child := by
  obtain ⟨front, back, hChildren, hAfter⟩ := dissolved.children_parent
  have hListed : ∀ {other}, other ∈ front ++ id :: back → forest.Reaches parent other := by
    rw [← hChildren]
    exact Reaches.of_mem_children
  by_cases hParent : parent = other
  · subst hParent
    rw [hAfter, List.mem_append, List.mem_append] at h
    rcases h with (h | h) | h
    · exact hListed (List.mem_append_left _ h)
    · exact (hListed (List.mem_append_right _ List.mem_cons_self)).trans
        (Reaches.of_mem_children h)
    · exact hListed (List.mem_append_right _ (List.mem_cons_of_mem _ h))
  · by_cases hId : id = other
    · subst hId
      rw [dissolved.children_self] at h
      cases h
    · rw [dissolved.children_of_ne other hParent hId] at h
      exact Reaches.of_mem_children h

theorem reaches_of_reaches (h : after.Reaches other child) : forest.Reaches other child := by
  induction h with
  | refl => exact Reaches.refl forest other
  | tail _ hChild ih => exact ih.trans (dissolved.reaches_of_mem_children hChild)

/-- The order among nodes that are not children of the dissolved one was the same before. -/
theorem earlier_of_notMem (hFirst : first ∉ forest.children id)
    (hSecond : second ∉ forest.children id) (h : after.Earlier first second) :
    forest.Earlier first second := by
  obtain ⟨above, h⟩ := h
  by_cases hParent : parent = above
  · subst hParent
    obtain ⟨front, back, hChildren, hAfter⟩ := dissolved.children_parent
    rw [hAfter] at h
    refine ⟨parent, ?_⟩
    rw [hChildren]
    exact (pair_sublist_of_notMem h hFirst hSecond).trans
      ((List.Sublist.refl front).append (List.sublist_cons_self id back))
  · by_cases hId : id = above
    · subst hId
      rw [dissolved.children_self] at h
      cases h
    · rw [dissolved.children_of_ne above hParent hId] at h
      exact ⟨above, h⟩

/-- What stands before a child of the dissolved node, and is not one itself, stood before the
node. -/
theorem earlier_of_earlier_child (hFirst : first ∉ forest.children id)
    (hSecond : second ∈ forest.children id) (h : after.Earlier first second) :
    forest.Earlier first id := by
  obtain ⟨front, back, hChildren, hAfter⟩ := dissolved.children_parent
  have linked := dissolved.wellFormed.linked
  have hNodup := linked.nodup parent
  have hListed : second ∈ after.children parent := by
    rw [hAfter]
    exact List.mem_append_left _ (List.mem_append_right _ hSecond)
  obtain ⟨above, h⟩ := h
  obtain rfl := linked.eq_of_mem_children hListed (mem_of_pair_sublist h).2
  -- the first stands among what was in front of the node, among its children, or behind it
  have hPlace := (mem_of_pair_sublist h).1
  rw [hAfter, List.mem_append, List.mem_append] at hPlace
  rcases hPlace with (hFront | hMiddle) | hBack
  · refine ⟨parent, ?_⟩
    rw [hChildren]
    exact (List.singleton_sublist.mpr hFront).append
      (List.singleton_sublist.mpr List.mem_cons_self)
  · exact absurd hMiddle hFirst
  · refine absurd ?_ (not_pair_sublist_swap hNodup h)
    rw [hAfter]
    exact (List.singleton_sublist.mpr (List.mem_append_right front hSecond)).append
      (List.singleton_sublist.mpr hBack)

/-- To dissolve the node advances. -/
theorem advance (wellFormed : forest.WellFormed) (hParent : forest.parent? id = some parent) :
    forest.Advance id after (forest.children id) := by
  have linked := wellFormed.linked
  have hListed := linked.parent_iff.mp hParent
  have hBelow : ∀ {other}, forest.Reaches id other → other ≠ id →
      after.children other = forest.children other := by
    intro other h hNe
    refine dissolved.children_of_ne other ?_ (Ne.symm hNe)
    rintro rfl
    exact wellFormed.not_reaches_of_mem_children hListed h
  have hNotMem : ∀ {other}, ¬ forest.Reaches id other → other ∉ forest.children id :=
    fun h hOther => h (Reaches.of_mem_children hOther)
  refine ⟨dissolved.wellFormed, dissolved.mem_iff.mpr, ?_, fun _ _ => dissolved.label?_eq _, ?_,
    ?_, covers_children wellFormed hBelow, fun _ => dissolved.reaches_of_reaches, ?_, ?_, ?_⟩
  · intro other _ h
    refine dissolved.children_of_ne other ?_ ?_
    · rintro rfl
      exact h.not_reached (Reaches.of_mem_children hListed)
    · rintro rfl
      exact h.not_reaches (Reaches.refl forest id)
  · obtain ⟨front, back, -, hAfter⟩ := dissolved.children_parent
    have hPending := dissolved.wellFormed.pending_children parent
    rw [hAfter] at hPending
    -- the children are part of the children of the parent, which are pending
    have hSublist : (forest.children id).Sublist (front ++ forest.children id ++ back) :=
      (List.sublist_append_right _ _).trans (List.sublist_append_left _ _)
    exact ⟨fun other h => hPending.mem other (hSublist.subset h),
      hPending.apart.sublist hSublist⟩
  · intro above other hAbove _ h
    exact (Reaches.of_mem_children hAbove).trans (dissolved.reaches_of_reaches h)
  · intro first second hFirst hSecond h
    exact dissolved.earlier_of_notMem (hNotMem hFirst) (hNotMem hSecond) h
  · intro first second hFirst hSecond h
    exact dissolved.earlier_of_earlier_child (hNotMem hFirst) hSecond h
  · intro depth hFits
    obtain ⟨below, hDepth, hChildren⟩ := fits_children wellFormed hBelow
      (fun _ _ => dissolved.label?_eq _) hFits
    have hWeight := forest.weight_pos id
    exact ⟨depth - 1, by omega, fun child hChild => (hChildren child hChild).of_le (by omega)⟩

/-- What is below a child keeps its children. -/
theorem children_below_child (wellFormed : forest.WellFormed)
    (hParent : forest.parent? id = some parent) (hChild : child ∈ forest.children id)
    (h : forest.Reaches child other) : after.children other = forest.children other := by
  refine dissolved.children_of_ne other ?_ ?_
  · rintro rfl
    exact wellFormed.not_reaches_of_mem_children (wellFormed.linked.parent_iff.mp hParent)
      ((Reaches.of_mem_children hChild).trans h)
  · rintro rfl
    exact wellFormed.not_reaches_of_mem_children hChild h

/-- To dissolve the parent in which a node is alone advances at that node. -/
theorem advance_child (wellFormed : forest.WellFormed)
    (hParent : forest.parent? id = some parent) (hAlone : forest.children id = [child]) :
    forest.Advance child after (after.children child) := by
  have linked := wellFormed.linked
  have hListed := linked.parent_iff.mp hParent
  have hChild : child ∈ forest.children id := by
    rw [hAlone]
    exact List.mem_singleton_self child
  have hReaches := Reaches.of_mem_children hListed
  have hReachesChild := Reaches.of_mem_children hChild
  have hNotMem : ∀ {other}, ¬ forest.Reaches child other → other ∉ forest.children id := by
    intro other h hOther
    rw [hAlone, List.mem_singleton] at hOther
    exact h (hOther ▸ Reaches.refl forest child)
  refine .of_below wellFormed dissolved.wellFormed dissolved.mem_iff.mpr
    (fun _ _ => dissolved.label?_eq _) (dissolved.children_below_child wellFormed hParent hChild)
    ?_ ?_ ?_
  · intro other h
    refine dissolved.children_of_ne other ?_ ?_
    · rintro rfl
      exact h.not_reached (hReaches.trans hReachesChild)
    · rintro rfl
      exact h.not_reached hReachesChild
  · exact fun hAbove hBelow => hAbove.trans (dissolved.reaches_of_mem_children hBelow)
  · intro first second hFirst hSecond h
    exact dissolved.earlier_of_notMem (hNotMem hFirst) (hNotMem hSecond) h

end Dissolved

/-! ### Wrapping and filing -/

/-- What is reached once the wrapper is there, and is not the wrapper, was reached before. -/
theorem Wrapped.reaches_of_reaches {wrapper : NodeId} {kind : Kind}
    (wrapped : forest.Wrapped after id wrapper kind) (linked : forest.Linked) (hId : id ∈ forest)
    (hAbove : above ∈ forest) (h : after.Reaches above other) :
    (other ∈ forest → forest.Reaches above other) ∧
      (other = wrapper → forest.Reaches above id) := by
  induction h with
  | refl => exact ⟨fun _ => Reaches.refl forest above,
      fun h => absurd (h ▸ hAbove) wrapped.notMem⟩
  | @tail middle below _ hBelow ih =>
    by_cases hMiddle : middle = id
    -- the way goes from the node to the wrapper
    · rw [hMiddle, wrapped.children_self, List.mem_singleton] at hBelow
      exact ⟨fun h => absurd (hBelow ▸ h) wrapped.notMem, fun _ => hMiddle ▸ ih.1 (hMiddle ▸ hId)⟩
    · have hListed : ∃ parent, below ∈ forest.children parent ∧ forest.Reaches above parent := by
        by_cases hWrapper : middle = wrapper
        · rw [hWrapper, wrapped.children_wrapper] at hBelow
          exact ⟨id, hBelow, ih.2 hWrapper⟩
        · rw [wrapped.children_of_ne middle hMiddle hWrapper] at hBelow
          exact ⟨middle, hBelow, ih.1 (mem_of_mem_children hBelow)⟩
      obtain ⟨parent, hListed, hParent⟩ := hListed
      exact ⟨fun _ => hParent.trans (Reaches.of_mem_children hListed),
        fun h => absurd (h ▸ linked.mem_children_right hListed) wrapped.notMem⟩

section

variable {wrapper : NodeId} {kind : Kind} (same : forest.SameLinks relabelled)
  (wellFormed : forest.WellFormed) (hId : id ∈ forest)
  (wrapped : relabelled.Wrapped after id wrapper kind)

include same wrapped

/-- Nodes other than the one that is wrapped keep their children. -/
private theorem Wrapped.children_eq (hOther : other ∈ forest) (hNe : other ≠ id) :
    after.children other = forest.children other := by
  have hWrapper : other ≠ wrapper := fun h => wrapped.notMem (same.mem_iff.mpr (h ▸ hOther))
  rw [wrapped.children_of_ne other hNe hWrapper, same.children_eq]

/-- Nodes that were not below the node keep their order. -/
private theorem Wrapped.earlier_of_not_reaches (hFirst : ¬ forest.Reaches id first)
    (h : after.Earlier first second) : forest.Earlier first second := by
  obtain ⟨above, h⟩ := h
  by_cases hAbove : above = id
  · rw [hAbove, wrapped.children_self] at h
    exact absurd h.length_le (Nat.not_succ_le_self 1)
  by_cases hWrapper : above = wrapper
  · rw [hWrapper, wrapped.children_wrapper, same.children_eq] at h
    exact absurd (Reaches.of_mem_children (mem_of_pair_sublist h).1) hFirst
  · rw [wrapped.children_of_ne above hAbove hWrapper, same.children_eq] at h
    exact ⟨above, h⟩

include wellFormed hId

/-- The wrapper needs one level less than the style, which has two. -/
private theorem Wrapped.fits_wrapper
    (hLabel : ∀ {other}, other ∈ forest → other ≠ id → after.label? other = forest.label? other)
    (hStyle : forest.kind? id = some .style) (hKind : kind ≠ .style) {depth : Nat}
    (hFits : forest.Fits depth id) : ∃ below, depth = below + 1 ∧ after.Fits below wrapper := by
  obtain ⟨below, hDepth, hChildren⟩ := fits_children wellFormed
    (fun h => wrapped.children_eq same (wellFormed.linked.mem_of_reaches hId h)) hLabel hFits
  have hWeight : forest.weight id = 2 := by
    rw [weight, if_pos hStyle]
  have hWrapperWeight : after.weight wrapper = 1 := by
    rw [weight, kind?_eq_map_label?, wrapped.label?_wrapper, if_neg]
    simpa using hKind
  have hWrapper : after.children wrapper = forest.children id := by
    rw [wrapped.children_wrapper, same.children_eq]
  exact ⟨below + 1, by omega, .of_children (by omega) (hWrapper ▸ hChildren)⟩

/-- To wrap what is below a style advances. -/
theorem Wrapped.advance
    (hLabel : ∀ {other}, other ≠ id → relabelled.label? other = forest.label? other)
    (hStyle : forest.kind? id = some .style) (hKind : kind ≠ .style) :
    forest.Advance id after [wrapper] := by
  have linked := wellFormed.linked
  have hNe : ∀ {other}, other ∈ forest → other ≠ wrapper := fun h hOther =>
    wrapped.notMem (same.mem_iff.mpr (hOther ▸ h))
  have hWrapper : after.children wrapper = forest.children id := by
    rw [wrapped.children_wrapper, same.children_eq]
  have hBelow : ∀ {other}, forest.Reaches id other → other ≠ id →
      after.children other = forest.children other :=
    fun h => wrapped.children_eq same (linked.mem_of_reaches hId h)
  have hKeptLabel : ∀ {other}, other ∈ forest → other ≠ id →
      after.label? other = forest.label? other := by
    intro other hOther hOtherNe
    rw [wrapped.label?_eq other (hNe hOther), hLabel hOtherNe]
  refine ⟨wrapped.wellFormed, ?_, ?_, hKeptLabel, ⟨?_, List.pairwise_singleton _ _⟩, ?_, ?_, ?_,
    fun hFirst _ => wrapped.earlier_of_not_reaches same hFirst, ?_, ?_⟩
  · exact fun h => wrapped.mem_iff.mpr (.inl (same.mem_iff.mpr h))
  · intro other hOther h
    refine wrapped.children_eq same hOther ?_
    rintro rfl
    exact h.not_reaches (Reaches.refl forest other)
  · intro other h
    exact wrapped.mem_iff.mpr (.inr (List.mem_singleton.mp h))
  · intro above other hAbove hOther h
    rw [List.mem_singleton.mp hAbove, reaches_iff_child, hWrapper] at h
    rcases h with h | ⟨child, hChild, h⟩
    · exact absurd h.symm (hNe hOther)
    · rw [reaches_child_iff wellFormed hBelow hChild] at h
      exact (Reaches.of_mem_children hChild).trans h
  · intro other h
    refine (covers_children wellFormed hBelow h).imp_right ?_
    rintro ⟨child, hChild, h⟩
    rw [← hWrapper] at hChild
    exact ⟨wrapper, List.mem_singleton_self _, (Reaches.of_mem_children hChild).trans h⟩
  · intro other hOther h
    exact same.reaches_iff.mp ((wrapped.reaches_of_reaches (same.linked linked)
      (same.mem_iff.mpr hId) relabelled.root_mem h).1 (same.mem_iff.mpr hOther))
  · rintro first second - hSecond ⟨above, h⟩
    -- the wrapper is alone below the node, so nothing comes before it
    have hListed : second ∈ after.children id := by
      rw [wrapped.children_self]
      exact hSecond
    obtain rfl :=
      wrapped.wellFormed.linked.eq_of_mem_children hListed (mem_of_pair_sublist h).2
    rw [wrapped.children_self] at h
    exact absurd h.length_le (Nat.not_succ_le_self 1)
  · intro depth hFits
    obtain ⟨below, hDepth, hWrapperFits⟩ :=
      wrapped.fits_wrapper same wellFormed hId hKeptLabel hStyle hKind hFits
    refine ⟨below, hDepth, fun other hOther => ?_⟩
    rw [List.mem_singleton.mp hOther]
    exact hWrapperFits

end

/-! ### Filing -/

theorem SameLinks.earlier (same : forest.SameLinks after) (h : forest.Earlier left right) :
    after.Earlier left right := by
  obtain ⟨parent, hPair⟩ := h
  exact ⟨parent, by rwa [same.children_eq]⟩

/-- A node may be filed in a list that stands before it. -/
theorem Earlier.placeable {list : NodeId} (wellFormed : forest.WellFormed)
    (h : forest.Earlier list id) : forest.Placeable list id := by
  have linked := wellFormed.linked
  have ⟨parent, hPair⟩ := h
  obtain ⟨hList, hId⟩ := mem_of_pair_sublist hPair
  refine ⟨linked.mem_children_right hId, linked.mem_children_right hList, ?_, ?_⟩
  · rintro rfl
    exact linked.notMem_children_root hId
  · exact fun hReaches => h.not_reaches wellFormed (Reaches.refl forest list) hReaches

section

variable {list : NodeId} (wellFormed : forest.WellFormed) (hEarlier : forest.Earlier list id)

include wellFormed hEarlier

theorem children_file : (forest.move list (forest.children list).length id).children list =
    forest.children list ++ [id] := by
  have hCut : (forest.cut id).children list = forest.children list ++ [] := by
    rw [wellFormed.linked.children_cut, List.append_nil,
      List.erase_of_not_mem (hEarlier.notMem_children wellFormed)]
  exact children_move_self (hEarlier.placeable wellFormed).parent_mem hCut

theorem wellFormed_file :
    (forest.move list (forest.children list).length id).WellFormed := by
  refine wellFormed.move (hEarlier.placeable wellFormed) ?_
  rw [wellFormed.linked.children_cut,
    List.erase_of_not_mem (hEarlier.notMem_children wellFormed)]

end

/-- To file the node behind the entries of a list that stands before it advances. -/
theorem advance_move {list : NodeId} (same : forest.SameLinks relabelled)
    (wellFormed : forest.WellFormed) (hEarlier : forest.Earlier list id)
    (hLabel : ∀ {other}, other ≠ id → relabelled.label? other = forest.label? other) :
    forest.Advance id (relabelled.move list (forest.children list).length id)
      ((relabelled.move list (forest.children list).length id).children id) := by
  have linked := wellFormed.linked
  have relinked := same.linked linked
  have ⟨parent, hPair⟩ := hEarlier
  have hList := linked.parent_iff.mpr (mem_of_pair_sublist hPair).1
  have hListed := (mem_of_pair_sublist hPair).2
  have hFile := same.earlier hEarlier
  have hPlaceable := hFile.placeable (same.wellFormed wellFormed)
  -- the list takes the node up at its end
  have hSelf := children_file (same.wellFormed wellFormed) hFile
  have hWellFormed := wellFormed_file (same.wellFormed wellFormed) hFile
  rw [same.children_eq] at hSelf hWellFormed
  have hOthers : ∀ other, list ≠ other →
      (relabelled.move list (forest.children list).length id).children other =
        (forest.children other).erase id := by
    intro other hNe
    rw [children_move_of_ne relinked hPlaceable.parent_mem hNe, same.children_eq]
  have hKept : ∀ other, list ≠ other → id ∉ forest.children other →
      (relabelled.move list (forest.children list).length id).children other =
        forest.children other := by
    intro other hNe hNot
    rw [hOthers other hNe, List.erase_of_not_mem hNot]
  refine .of_below wellFormed hWellFormed ?_ ?_ ?_ ?_ ?_ ?_
  · exact fun h => mem_move.mpr (same.mem_iff.mpr h)
  · intro other _ hNe
    rw [label?_move, hLabel hNe]
  · intro other h
    refine hKept other ?_ fun hId => wellFormed.not_reaches_of_mem_children hId h
    rintro rfl
    exact hPlaceable.not_reaches (same.reaches_iff.mpr h)
  · intro other h
    refine hKept other ?_ fun hId => h.not_reached (Reaches.of_mem_children hId)
    rintro rfl
    exact h.not_earlier hEarlier
  · intro above below hAbove hBelow
    by_cases hNe : list = above
    · subst hNe
      rw [hSelf, List.mem_append, List.mem_singleton] at hBelow
      rcases hBelow with hBelow | rfl
      · exact hAbove.trans (Reaches.of_mem_children hBelow)
      -- the list is below the root by its parent, who is the parent of the node too
      · exact ((linked.root_reaches_iff_parent hList).mp hAbove).trans
          (Reaches.of_mem_children hListed)
    · rw [hOthers above hNe] at hBelow
      exact hAbove.trans (Reaches.of_mem_children (List.mem_of_mem_erase hBelow))
  · rintro first second hFirst hSecond ⟨above, h⟩
    by_cases hNe : list = above
    · subst hNe
      have hNotId : ∀ {other}, ¬ forest.Reaches id other → other ∉ [id] := by
        intro other hOther hMem
        exact hOther (List.mem_singleton.mp hMem ▸ Reaches.refl forest id)
      rw [hSelf, ← List.append_nil (_ ++ [id])] at h
      have hFormer := pair_sublist_of_notMem h (hNotId hFirst) (hNotId hSecond)
      rw [List.append_nil] at hFormer
      exact ⟨list, hFormer⟩
    · rw [hOthers above hNe] at h
      exact ⟨above, h.trans List.erase_sublist⟩

end Forest

end WikiMarkup
