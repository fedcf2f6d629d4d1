import WikiMarkup.Proofs.Forest.Advance
import WikiMarkup.Proofs.Forest.Surroundings

/-!
# Reading order

The nodes below a node are listed in reading order: each before what is below it, and what is below
one child before what is below the next (`Deepens.selfAndDescendants_eq`). `Forest.Before` says
the same of two nodes without a list: one is above the other, or it is reached from a child that
stands before one that reaches the other.

**Key results.** In a well-formed forest the two agree (`WellFormed.pairwise_before`), nothing is
listed twice, and a list is settled by its members and their order
(`filter_selfAndDescendants_eq`).
-/

namespace WikiMarkup

namespace Forest

variable {forest after : Forest} {id other above parent child first second left right : NodeId}

/-! ### Listings -/

/-- Going down leads from nodes that are met to others with more nodes above them. -/
def Deepens (forest : Forest) (Met : NodeId → Prop) : Prop :=
  ∀ parent child : NodeId, Met parent → child ∈ forest.children parent →
    Met child ∧ forest.height parent < forest.height child

namespace Deepens

variable {Met : NodeId → Prop} (deepens : forest.Deepens Met)

include deepens

/-- What holds of a node if it holds of its children holds of every node that is met. -/
theorem descend {motive : NodeId → Prop}
    (step : ∀ id, Met id → (∀ child ∈ forest.children id, motive child) → motive id)
    (h : Met id) : motive id := by
  induction hLevels : forest.size - forest.height id using Nat.strongRec generalizing id with
  | _ levels ih =>
    refine step id h fun child hChild => ?_
    obtain ⟨hMet, hLower⟩ := deepens id child h hChild
    have hHeight := forest.height_le_size child
    exact ih _ (by omega) hMet rfl

/-- Two searches that are deep enough find the same. -/
theorem below_eq_below {depth deeper : Nat} (h : Met id)
    (hDepth : forest.size < depth + forest.height id)
    (hDeeper : forest.size < deeper + forest.height id) :
    forest.below depth id = forest.below deeper id := by
  have hHeight := forest.height_le_size id
  induction depth generalizing deeper id with
  | zero => omega
  | succ depth ih =>
    cases deeper with
    | zero => omega
    | succ deeper =>
      rw [below, below]
      refine congrArg (id :: ·) (List.flatMap_congr fun child hChild => ?_)
      obtain ⟨hMet, hLower⟩ := deepens id child h hChild
      exact ih hMet (by omega) (by omega) (forest.height_le_size child)

/-- A node is listed before what is below it. -/
theorem selfAndDescendants_eq (h : Met id) :
    forest.selfAndDescendants id = id :: forest.descendants id := by
  rw [selfAndDescendants, below, descendants]
  refine congrArg (id :: ·) (List.flatMap_congr fun child hChild => ?_)
  obtain ⟨hMet, hLower⟩ := deepens id child h hChild
  exact deepens.below_eq_below hMet (by omega) (by omega)

/-- What is listed below a node is what it reaches. -/
theorem mem_selfAndDescendants_iff (h : Met id) :
    other ∈ forest.selfAndDescendants id ↔ forest.Reaches id other := by
  refine ⟨reaches_of_mem_below, ?_⟩
  refine deepens.descend (motive := fun id => forest.Reaches id other →
    other ∈ forest.selfAndDescendants id) (fun id h ih hOther => ?_) h
  rw [deepens.selfAndDescendants_eq h, List.mem_cons, descendants, List.mem_flatMap]
  rcases reaches_iff_child.mp hOther with rfl | ⟨child, hChild, hOther⟩
  · exact .inl rfl
  · exact .inr ⟨child, hChild, ih child hChild hOther⟩

end Deepens

theorem WellFormed.deepens (wellFormed : forest.WellFormed) : forest.Deepens fun _ => True :=
  fun _ _ _ hChild => ⟨trivial, wellFormed.height_lt (wellFormed.linked.parent_iff.mpr hChild)⟩

/-- What holds of a node if it holds of its children holds of every node. -/
theorem WellFormed.descend (wellFormed : forest.WellFormed) {motive : NodeId → Prop}
    (step : ∀ id, (∀ child ∈ forest.children id, motive child) → motive id) (id : NodeId) :
    motive id :=
  wellFormed.deepens.descend (fun id _ => step id) trivial

theorem WellFormed.selfAndDescendants_eq (wellFormed : forest.WellFormed) (id : NodeId) :
    forest.selfAndDescendants id = id :: forest.descendants id :=
  wellFormed.deepens.selfAndDescendants_eq trivial

theorem WellFormed.mem_selfAndDescendants_iff (wellFormed : forest.WellFormed) :
    other ∈ forest.selfAndDescendants id ↔ forest.Reaches id other :=
  wellFormed.deepens.mem_selfAndDescendants_iff trivial

theorem WellFormed.mem_reachable_iff (wellFormed : forest.WellFormed) :
    id ∈ forest.reachable ↔ forest.Reaches .root id :=
  wellFormed.mem_selfAndDescendants_iff

theorem WellFormed.mem_descendants_iff (wellFormed : forest.WellFormed) :
    other ∈ forest.descendants id ↔ id ≠ other ∧ forest.Reaches id other := by
  simp only [descendants, List.mem_flatMap, wellFormed.mem_selfAndDescendants_iff]
  constructor
  · rintro ⟨child, hChild, h⟩
    refine ⟨?_, (Reaches.of_mem_children hChild).trans h⟩
    rintro rfl
    exact wellFormed.not_reaches_of_mem_children hChild h
  · rintro ⟨hNe, h⟩
    exact (reaches_iff_child.mp h).resolve_left hNe

theorem WellFormed.descendantsOfKind_eq (wellFormed : forest.WellFormed) {kind : Kind}
    (h : forest.kind? id ≠ some kind) : forest.descendantsOfKind id kind =
      (forest.selfAndDescendants id).filter fun other => forest.kind? other = some kind := by
  rw [wellFormed.selfAndDescendants_eq, List.filter_cons_of_neg (by simpa using h),
    descendantsOfKind]

/-- What is listed below a node is settled by the children of the nodes that it reaches. -/
theorem selfAndDescendants_congr (wellFormed : forest.WellFormed) (hAfter : after.WellFormed)
    (h : ∀ below, forest.Reaches id below → after.children below = forest.children below) :
    after.selfAndDescendants id = forest.selfAndDescendants id := by
  induction id using wellFormed.descend with
  | step id ih =>
    rw [wellFormed.selfAndDescendants_eq, hAfter.selfAndDescendants_eq, descendants, descendants,
      h id (Reaches.refl forest id)]
    refine congrArg (id :: ·) (List.flatMap_congr fun child hChild => ?_)
    exact ih child hChild fun below hBelow =>
      h below ((Reaches.of_mem_children hChild).trans hBelow)

/-- Forests with the same children have the same listings, whatever the links upwards are. -/
theorem selfAndDescendants_eq_of_children_eq
    (h : ∀ id, after.children id = forest.children id) (hSize : after.size = forest.size)
    (id : NodeId) : after.selfAndDescendants id = forest.selfAndDescendants id := by
  have hBelow : ∀ depth id, after.below depth id = forest.below depth id := by
    intro depth
    induction depth with
    | zero => exact fun _ => rfl
    | succ depth ih =>
      intro id
      rw [below, below, h, funext ih]
  rw [selfAndDescendants, selfAndDescendants, hSize, hBelow]

/-! ### Order -/

/-- One node comes before another in reading order: it is above it, or a child that reaches it
stands before one that reaches the other. -/
def Before (forest : Forest) (first second : NodeId) : Prop :=
  (first ≠ second ∧ forest.Reaches first second) ∨
    ∃ left right, forest.Earlier left right ∧ forest.Reaches left first ∧
      forest.Reaches right second

/-- Nodes that stand one before the other reach nothing in common. -/
theorem Earlier.not_reaches (wellFormed : forest.WellFormed) (h : forest.Earlier left right)
    (hLeft : forest.Reaches left id) : ¬ forest.Reaches right id := by
  obtain ⟨parent, hPair⟩ := h
  have hApart : forest.Apart left right :=
    List.pairwise_iff_forall_sublist.mp (wellFormed.pairwise_apart_children parent) hPair
  intro hRight
  rcases wellFormed.linked.reaches_total hLeft hRight with hReaches | hReaches
  · exact hApart.not_reaches hReaches
  · exact hApart.not_reached hReaches

theorem Earlier.ne (wellFormed : forest.WellFormed) (h : forest.Earlier left right) :
    left ≠ right := by
  rintro rfl
  exact h.not_reaches wellFormed (Reaches.refl forest left) (Reaches.refl forest left)

theorem Earlier.asymm (wellFormed : forest.WellFormed) (h : forest.Earlier left right) :
    ¬ forest.Earlier right left := by
  obtain ⟨parent, hPair⟩ := h
  exact (List.pairwise_iff_forall_sublist.mp
    (wellFormed.pairwise_apart_children parent) hPair).not_earlier

/-- What reaches a child without being one of the children reaches the parent, and so whatever
stands beside the child. -/
theorem Earlier.reaches_left (linked : forest.Linked) (h : forest.Earlier left right)
    (hRight : forest.Reaches above right) : above = right ∨ forest.Reaches above left := by
  refine (linked.reaches_iff_parent.mp hRight).imp_right ?_
  rintro ⟨parent, hParent, hReaches⟩
  rw [← h.parent?_eq linked, linked.parent_iff] at hParent
  exact hReaches.trans (Reaches.of_mem_children hParent)

theorem Earlier.reaches_right (linked : forest.Linked) (h : forest.Earlier left right)
    (hLeft : forest.Reaches above left) : above = left ∨ forest.Reaches above right := by
  refine (linked.reaches_iff_parent.mp hLeft).imp_right ?_
  rintro ⟨parent, hParent, hReaches⟩
  rw [h.parent?_eq linked, linked.parent_iff] at hParent
  exact hReaches.trans (Reaches.of_mem_children hParent)

/-- **Reading order is an order**: of two nodes only one comes before the other. -/
theorem Before.asymm (wellFormed : forest.WellFormed) (h : forest.Before first second) :
    ¬ forest.Before second first := by
  have linked := wellFormed.linked
  rintro (⟨hNe, hBack⟩ | ⟨left, right, hEarlier, hLeft, hRight⟩) <;>
    rcases h with ⟨-, h⟩ | ⟨left', right', hEarlier', hLeft', hRight'⟩
  · exact hNe (wellFormed.reaches_antisymm hBack h)
  · exact hEarlier'.not_reaches wellFormed hLeft' (hRight'.trans hBack)
  · exact hEarlier.not_reaches wellFormed hLeft (hRight.trans h)
  · -- of the children that reach a common node neither lies further down than the other
    have hSame : right = left' := by
      rcases linked.reaches_total hRight hLeft' with hReaches | hReaches
      · refine (hEarlier'.reaches_right linked hReaches).resolve_right fun hBelow => ?_
        exact hEarlier.not_reaches wellFormed hLeft (hBelow.trans hRight')
      · refine ((hEarlier.reaches_left linked hReaches).resolve_right fun hBelow => ?_).symm
        exact hEarlier'.not_reaches wellFormed (hBelow.trans hLeft) hRight'
    subst hSame
    rcases linked.reaches_total hLeft hRight' with hReaches | hReaches
    · rcases hEarlier'.reaches_left linked hReaches with rfl | hReaches
      · exact hEarlier.asymm wellFormed hEarlier'
      · exact hEarlier.not_reaches wellFormed hReaches (Reaches.refl forest right)
    · rcases hEarlier.reaches_right linked hReaches with rfl | hReaches
      · exact hEarlier.asymm wellFormed hEarlier'
      · exact hEarlier'.not_reaches wellFormed (Reaches.refl forest right) hReaches

/-- Nodes are listed in reading order. -/
theorem WellFormed.pairwise_before (wellFormed : forest.WellFormed) (id : NodeId) :
    (forest.selfAndDescendants id).Pairwise forest.Before := by
  induction id using wellFormed.descend with
  | step id ih =>
    rw [wellFormed.selfAndDescendants_eq, List.pairwise_cons]
    refine ⟨fun other hOther => .inl (wellFormed.mem_descendants_iff.mp hOther), ?_⟩
    rw [descendants, List.pairwise_flatMap]
    refine ⟨ih, List.pairwise_iff_forall_sublist.mpr fun {left right} hPair => ?_⟩
    intro first hFirst second hSecond
    rw [wellFormed.mem_selfAndDescendants_iff] at hFirst hSecond
    exact .inr ⟨left, right, ⟨id, hPair⟩, hFirst, hSecond⟩

theorem WellFormed.nodup_selfAndDescendants (wellFormed : forest.WellFormed) (id : NodeId) :
    (forest.selfAndDescendants id).Nodup := by
  refine (wellFormed.pairwise_before id).imp fun {first second} h => ?_
  rintro rfl
  exact h.asymm wellFormed h

theorem pair_sublist_or_of_mem {ids : List NodeId} (hFirst : first ∈ ids) (hSecond : second ∈ ids)
    (hNe : first ≠ second) : [first, second].Sublist ids ∨ [second, first].Sublist ids := by
  have hSymmetric : Std.Symm fun first second : NodeId =>
      [first, second].Sublist ids ∨ [second, first].Sublist ids := ⟨fun _ _ => Or.symm⟩
  have hPairwise : ids.Pairwise fun first second =>
      [first, second].Sublist ids ∨ [second, first].Sublist ids :=
    List.pairwise_iff_forall_sublist.mpr fun h => .inl h
  exact hPairwise.forall hFirst hSecond hNe

theorem WellFormed.before_of_pair_sublist (wellFormed : forest.WellFormed)
    (h : [first, second].Sublist (forest.selfAndDescendants id)) : forest.Before first second :=
  List.pairwise_iff_forall_sublist.mp (wellFormed.pairwise_before id) h

/-- Of two nodes below a third one comes before the other. -/
theorem WellFormed.before_total (wellFormed : forest.WellFormed)
    (hFirst : forest.Reaches id first) (hSecond : forest.Reaches id second)
    (hNe : first ≠ second) : forest.Before first second ∨ forest.Before second first := by
  rw [← wellFormed.mem_selfAndDescendants_iff] at hFirst hSecond
  exact (pair_sublist_or_of_mem hFirst hSecond hNe).imp wellFormed.before_of_pair_sublist
    wellFormed.before_of_pair_sublist

/-- Two nodes are listed one before the other exactly if they come in that order. -/
theorem WellFormed.pair_sublist_iff (wellFormed : forest.WellFormed) :
    [first, second].Sublist (forest.selfAndDescendants id) ↔
      forest.Reaches id first ∧ forest.Reaches id second ∧ forest.Before first second := by
  simp only [← wellFormed.mem_selfAndDescendants_iff]
  constructor
  · intro h
    obtain ⟨hFirst, hSecond⟩ := mem_of_pair_sublist h
    exact ⟨hFirst, hSecond, wellFormed.before_of_pair_sublist h⟩
  · rintro ⟨hFirst, hSecond, h⟩
    have hNe : first ≠ second := by
      rintro rfl
      exact h.asymm wellFormed h
    refine (pair_sublist_or_of_mem hFirst hSecond hNe).resolve_right fun hPair => ?_
    exact h.asymm wellFormed (wellFormed.before_of_pair_sublist hPair)

/-- **Listings agree** on nodes of which both have the same, in the same order. -/
theorem filter_selfAndDescendants_eq {p : NodeId → Bool} (wellFormed : forest.WellFormed)
    (hAfter : after.WellFormed)
    (hMem : ∀ other, p other → (after.Reaches id other ↔ forest.Reaches id other))
    (hBefore : ∀ first second, p first → p second → forest.Reaches id first →
      forest.Reaches id second → forest.Before first second → after.Before first second) :
    (after.selfAndDescendants id).filter p = (forest.selfAndDescendants id).filter p := by
  refine List.Perm.eq_of_pairwise ?_ ((hAfter.pairwise_before id).filter p) ?_ ?_
  · intro first second _ _ h hBack
    exact absurd hBack (h.asymm hAfter)
  · have hPairwise := (wellFormed.pairwise_before id).filter p
    refine hPairwise.imp_of_mem fun {first second} h h' hOrder => ?_
    rw [List.mem_filter, wellFormed.mem_selfAndDescendants_iff] at h h'
    exact hBefore first second h.2 h'.2 h.1 h'.1 hOrder
  · refine (List.perm_ext_iff_of_nodup ((hAfter.nodup_selfAndDescendants id).filter p)
      ((wellFormed.nodup_selfAndDescendants id).filter p)).mpr fun other => ?_
    rw [List.mem_filter, List.mem_filter, wellFormed.mem_selfAndDescendants_iff,
      hAfter.mem_selfAndDescendants_iff]
    exact and_congr_left (hMem other)

end Forest

end WikiMarkup
