import WikiMarkup.Proofs.Forest.Advancing
import WikiMarkup.Proofs.Forest.ReadingOrder

/-!
# What rearrangements keep

A rearrangement may take nodes off the tree below the root. The others keep their places: what is
above another node stays above it, and what comes before another node still comes before it
(`Forest.Keeps`). There are two exceptions, both made by filing a node in a list that stands before
it: the list **grows**, since it now reaches the node, and what stood between the two has been
**passed**, since it now comes after the node.

This module says it of each rearrangement in turn: of leaving all links alone, of cutting, of
dissolving, of wrapping and of filing.
-/

namespace WikiMarkup

namespace Forest

variable {forest relabelled after : Forest} {id other above below parent child first second left
  right : NodeId}

/-- A change keeps the places of nodes, but for those that are lost. Only what has grown reaches
more, and only what has been passed comes later. -/
structure Keeps (forest after : Forest) (Lost Grown : NodeId → Prop)
    (Passed : NodeId → NodeId → Prop) : Prop where
  /-- The forest stays well-formed. -/
  wellFormed : after.WellFormed
  /-- No node goes from the table. -/
  mem : ∀ {id : NodeId}, id ∈ forest → id ∈ after
  /-- Below the root are the nodes that were there and are not lost. -/
  root_reaches_iff : ∀ {id : NodeId}, id ∈ forest →
    (after.Reaches .root id ↔ forest.Reaches .root id ∧ ¬ Lost id)
  /-- What was above another node stays above it. -/
  reaches : ∀ {above below : NodeId}, ¬ Lost above → ¬ Lost below → forest.Reaches above below →
    after.Reaches above below
  /-- What is above another node was above it, unless it has grown. -/
  reaches_back : ∀ {above below : NodeId}, above ∈ forest → below ∈ forest →
    after.Reaches above below → forest.Reaches above below ∨ Grown above
  /-- What came before another node still does, unless it has been passed. -/
  before : ∀ {first second : NodeId}, ¬ Lost first → ¬ Lost second →
    forest.Before first second → after.Before first second ∨ Passed first second

theorem Keeps.mono {Lost Grown MoreGrown : NodeId → Prop}
    {Passed MorePassed : NodeId → NodeId → Prop}
    (keeps : forest.Keeps after Lost Grown Passed) (hGrown : ∀ id, Grown id → MoreGrown id)
    (hPassed : ∀ first second, Passed first second → MorePassed first second) :
    forest.Keeps after Lost MoreGrown MorePassed :=
  { keeps with
    reaches_back := fun hAbove hBelow h =>
      (keeps.reaches_back hAbove hBelow h).imp_right (hGrown _)
    before := fun hFirst hSecond h => (keeps.before hFirst hSecond h).imp_right (hPassed _ _) }

/-! ### Pairs in lists -/

theorem pair_sublist_append_iff {front back : List NodeId} :
    [first, second].Sublist (front ++ back) ↔
      [first, second].Sublist front ∨ (first ∈ front ∧ second ∈ back) ∨
        [first, second].Sublist back := by
  constructor
  · intro h
    obtain ⟨init, last, hParts, hInit, hLast⟩ := List.sublist_append_iff.mp h
    rcases init with _ | ⟨_, _ | ⟨_, init⟩⟩
    · exact .inr (.inr (hParts ▸ hLast))
    · obtain ⟨rfl, rfl⟩ := List.cons_eq_cons.mp hParts
      exact .inr (.inl ⟨List.singleton_sublist.mp hInit, List.singleton_sublist.mp hLast⟩)
    · refine .inl (hParts ▸ ?_)
      simp only [List.cons_append, List.cons.injEq] at hParts
      rwa [(List.append_eq_nil_iff.mp hParts.2.2.symm).2, List.append_nil]
  · rintro (h | ⟨hFirst, hSecond⟩ | h)
    · exact h.trans (List.sublist_append_left front back)
    · exact (List.singleton_sublist.mpr hFirst).append (List.singleton_sublist.mpr hSecond)
    · exact h.trans (List.sublist_append_right front back)

theorem pair_sublist_cons_iff {ids : List NodeId} :
    [first, second].Sublist (id :: ids) ↔
      (first = id ∧ second ∈ ids) ∨ [first, second].Sublist ids := by
  rw [← List.singleton_append (x := id), pair_sublist_append_iff, List.mem_singleton]
  refine or_iff_right_of_imp fun h => ?_
  exact absurd h.length_le (Nat.not_succ_le_self 1)

/-- What stands behind an entry that occurs once is in the part behind it. -/
theorem mem_back_of_pair_sublist {front back : List NodeId} (hOnce : id ∉ front ++ back)
    (h : [id, second].Sublist (front ++ id :: back)) : second ∈ back := by
  rw [List.mem_append, not_or] at hOnce
  rw [pair_sublist_append_iff, pair_sublist_cons_iff] at h
  rcases h with h | ⟨h, -⟩ | ⟨-, h⟩ | h
  · exact absurd (mem_of_pair_sublist h).1 hOnce.1
  · exact absurd h hOnce.1
  · exact h
  · exact absurd (mem_of_pair_sublist h).1 hOnce.2

/-- What stands before an entry that occurs once is in the part before it. -/
theorem mem_front_of_pair_sublist {front back : List NodeId} (hOnce : id ∉ front ++ back)
    (h : [first, id].Sublist (front ++ id :: back)) : first ∈ front := by
  rw [List.mem_append, not_or] at hOnce
  rw [pair_sublist_append_iff, pair_sublist_cons_iff] at h
  rcases h with h | ⟨h, -⟩ | ⟨-, h⟩ | h
  · exact absurd (mem_of_pair_sublist h).2 hOnce.1
  · exact h
  · exact absurd h hOnce.2
  · exact absurd (mem_of_pair_sublist h).2 hOnce.2

/-- A pair stays in order if another entry is taken out. -/
theorem pair_sublist_erase {ids : List NodeId} (h : [first, second].Sublist ids)
    (hFirst : first ≠ id) (hSecond : second ≠ id) : [first, second].Sublist (ids.erase id) := by
  have hErase := h.erase id
  rwa [List.erase_cons_tail (by simpa using hFirst), List.erase_cons_tail (by simpa using hSecond),
    List.erase_nil] at hErase

theorem earlier_of_children {front back : List NodeId}
    (h : forest.children parent = front ++ back) (hLeft : left ∈ front) (hRight : right ∈ back) :
    forest.Earlier left right := by
  refine ⟨parent, ?_⟩
  rw [h, pair_sublist_append_iff]
  exact .inr (.inl ⟨hLeft, hRight⟩)

/-! ### No change of links -/

theorem SameLinks.before (same : forest.SameLinks after) (h : forest.Before first second) :
    after.Before first second := by
  refine h.imp (And.imp_right same.reaches_iff.mpr) ?_
  rintro ⟨left, right, hEarlier, hLeft, hRight⟩
  exact ⟨left, right, same.earlier hEarlier, same.reaches_iff.mpr hLeft,
    same.reaches_iff.mpr hRight⟩

/-- **Where no link changes** every node keeps its place. -/
theorem SameLinks.keeps (same : forest.SameLinks after) (wellFormed : forest.WellFormed) :
    forest.Keeps after (fun _ => False) (fun _ => False) fun _ _ => False where
  wellFormed := same.wellFormed wellFormed
  mem := same.mem_iff.mpr
  root_reaches_iff _ := by
    rw [same.reaches_iff, not_false_eq_true, and_true]
  reaches _ _ := same.reaches_iff.mpr
  reaches_back _ _ h := .inl (same.reaches_iff.mp h)
  before _ _ h := .inl (same.before h)

/-- Places are kept as well if no link has changed before. -/
theorem SameLinks.keeps_of_keeps {Lost Grown : NodeId → Prop} {Passed : NodeId → NodeId → Prop}
    (same : forest.SameLinks relabelled) (keeps : relabelled.Keeps after Lost Grown Passed) :
    forest.Keeps after Lost Grown Passed where
  wellFormed := keeps.wellFormed
  mem h := keeps.mem (same.mem_iff.mpr h)
  root_reaches_iff h := by
    rw [keeps.root_reaches_iff (same.mem_iff.mpr h), same.reaches_iff]
  reaches hAbove hBelow h := keeps.reaches hAbove hBelow (same.reaches_iff.mpr h)
  reaches_back hAbove hBelow h :=
    (keeps.reaches_back (same.mem_iff.mpr hAbove) (same.mem_iff.mpr hBelow) h).imp_left
      same.reaches_iff.mp
  before hFirst hSecond h := keeps.before hFirst hSecond (same.before h)

/-! ### Cutting -/

/-- One node reaches another after a cut if the way does not lead through the place of the cut. -/
theorem WellFormed.reaches_cut_iff (wellFormed : forest.WellFormed) :
    (forest.cut id).Reaches above below ↔
      forest.Reaches above below ∧ (forest.Reaches id below → forest.Reaches id above) := by
  have linked := wellFormed.linked
  constructor
  · intro h
    refine ⟨linked.reaches_of_reaches_cut h, ?_⟩
    induction h with
    | refl => exact fun hId => hId
    | @tail middle below _ hChild ih =>
      obtain ⟨hNe, hChild⟩ := linked.mem_children_cut.mp hChild
      intro hId
      -- the node is not the last on the way, so it reaches the last but one
      rcases linked.reaches_iff_parent.mp hId with h | ⟨parent, hParent, hId⟩
      · exact absurd h.symm hNe
      · rw [linked.parent_iff.mpr hChild, Option.some_inj] at hParent
        exact ih (hParent ▸ hId)
  · rintro ⟨h, hId⟩
    induction h with
    | refl => exact Reaches.refl _ above
    | @tail middle below hAbove hChild ih =>
      have hNe : below ≠ id := by
        rintro rfl
        -- a node that reaches where the way starts does not come after that on the way
        exact wellFormed.not_reaches_of_mem_children hChild
          ((hId (Reaches.refl forest below)).trans hAbove)
      refine (ih fun hMiddle => hId (hMiddle.trans (.of_mem_children hChild))).trans ?_
      exact Reaches.of_mem_children (linked.mem_children_cut.mpr ⟨hNe, hChild⟩)

/-- **To cut off a node** loses what it reaches. -/
theorem WellFormed.keeps_cut (wellFormed : forest.WellFormed)
    (hParent : (forest.parent? id).isSome) :
    forest.Keeps (forest.cut id) (forest.Reaches id) (fun _ => False) fun _ _ => False := by
  have linked := wellFormed.linked
  have hRoot : ¬ forest.Reaches id .root := by
    intro h
    rw [linked.eq_root_of_reaches_root h, linked.root_parent] at hParent
    cases hParent
  have hKept : ∀ {above below}, ¬ forest.Reaches id below → forest.Reaches above below →
      (forest.cut id).Reaches above below := fun hBelow h =>
    wellFormed.reaches_cut_iff.mpr ⟨h, fun hId => absurd hId hBelow⟩
  refine ⟨wellFormed.cut id, mem_cut.mpr, fun _ => ?_, fun _ hBelow => hKept hBelow,
    fun _ _ h => .inl (linked.reaches_of_reaches_cut h), ?_⟩
  · rw [wellFormed.reaches_cut_iff, imp_iff_not hRoot]
  · rintro first second hFirst hSecond (⟨hNe, h⟩ | ⟨left, right, ⟨parent, hPair⟩, hLeft, hRight⟩)
    · exact .inl (.inl ⟨hNe, hKept hSecond h⟩)
    · have hLeftNe : left ≠ id := fun hId => hFirst (hId ▸ hLeft)
      have hRightNe : right ≠ id := fun hId => hSecond (hId ▸ hRight)
      refine .inl (.inr ⟨left, right, ⟨parent, ?_⟩, hKept hFirst hLeft, hKept hSecond hRight⟩)
      rw [linked.children_cut]
      exact pair_sublist_erase hPair hLeftNe hRightNe

/-! ### Dissolving -/

namespace Dissolved

variable (dissolved : forest.Dissolved after parent id)

include dissolved

theorem mem_children_parent (h : child ∈ forest.children id) : child ∈ after.children parent := by
  obtain ⟨front, back, -, hAfter⟩ := dissolved.children_parent
  rw [hAfter]
  exact List.mem_append_left back (List.mem_append_right front h)

/-- Links that do not touch the node stay. -/
theorem mem_children_of_ne (hAbove : above ≠ id) (hChild : child ≠ id)
    (h : child ∈ forest.children above) : child ∈ after.children above := by
  by_cases hParent : parent = above
  · subst hParent
    obtain ⟨front, back, hChildren, hAfter⟩ := dissolved.children_parent
    rw [hChildren, List.mem_append, List.mem_cons] at h
    rw [hAfter, List.append_assoc, List.mem_append, List.mem_append]
    exact h.imp_right fun h => .inr (h.resolve_left hChild)
  · rwa [dissolved.children_of_ne above hParent (Ne.symm hAbove)]

/-- A pair of siblings stays in order. -/
theorem earlier_of_ne (hLeft : left ≠ id) (hRight : right ≠ id)
    (h : forest.Earlier left right) : after.Earlier left right := by
  obtain ⟨above, hPair⟩ := h
  obtain ⟨front, back, hChildren, hAfter⟩ := dissolved.children_parent
  by_cases hParent : parent = above
  · subst hParent
    rw [hChildren, List.append_cons] at hPair
    have hApart := pair_sublist_of_notMem hPair (mt List.mem_singleton.mp hLeft)
      (mt List.mem_singleton.mp hRight)
    refine ⟨parent, hApart.trans ?_⟩
    rw [hAfter]
    exact (List.sublist_append_left front _).append (List.Sublist.refl back)
  · by_cases hId : id = above
    · subst hId
      refine ⟨parent, hPair.trans ?_⟩
      rw [hAfter]
      exact (List.sublist_append_right front _).trans (List.sublist_append_left _ back)
    · exact ⟨above, by rwa [dissolved.children_of_ne above hParent hId]⟩

variable (wellFormed : forest.WellFormed) (hParent : forest.parent? id = some parent)

include wellFormed hParent

theorem parent_ne : parent ≠ id := by
  rintro rfl
  exact wellFormed.not_reaches_parent hParent (Reaches.refl forest parent)

/-- The children stand before what stood behind the node. -/
theorem earlier_of_child_left (hChild : child ∈ forest.children id)
    (h : forest.Earlier id right) : after.Earlier child right := by
  have linked := wellFormed.linked
  obtain ⟨above, hPair⟩ := h
  obtain ⟨front, back, hChildren, hAfter⟩ := dissolved.children_parent
  obtain rfl := linked.eq_of_mem_children (mem_of_pair_sublist hPair).1
    (linked.parent_iff.mp hParent)
  rw [hChildren] at hPair
  exact earlier_of_children hAfter (List.mem_append_right front hChild)
    (mem_back_of_pair_sublist (linked.notMem_of_children hChildren) hPair)

/-- The children stand behind what stood before the node. -/
theorem earlier_of_child_right (hChild : child ∈ forest.children id)
    (h : forest.Earlier left id) : after.Earlier left child := by
  have linked := wellFormed.linked
  obtain ⟨above, hPair⟩ := h
  obtain ⟨front, back, hChildren, hAfter⟩ := dissolved.children_parent
  obtain rfl := linked.eq_of_mem_children (mem_of_pair_sublist hPair).2
    (linked.parent_iff.mp hParent)
  rw [hChildren] at hPair
  rw [List.append_assoc] at hAfter
  exact earlier_of_children hAfter
    (mem_front_of_pair_sublist (linked.notMem_of_children hChildren) hPair)
    (List.mem_append_left back hChild)

/-- What a node reaches it still reaches, but for the dissolved one. -/
theorem reaches (hAbove : above ≠ id) (hBelow : below ≠ id) (h : forest.Reaches above below) :
    after.Reaches above below := by
  have hParentNe := dissolved.parent_ne wellFormed hParent
  -- where the way leads to the dissolved node, the parent is reached instead
  have hWay : ∀ {below}, forest.Reaches above below →
      (below ≠ id → after.Reaches above below) ∧ (below = id → after.Reaches above parent) := by
    intro below h
    induction h with
    | refl => exact ⟨fun _ => Reaches.refl after above, fun h => absurd h hAbove⟩
    | @tail middle below _ hChild ih =>
      constructor
      · intro hNe
        by_cases hMiddle : middle = id
        · exact (ih.2 hMiddle).trans
            (.of_mem_children (dissolved.mem_children_parent (hMiddle ▸ hChild)))
        · exact (ih.1 hMiddle).trans
            (.of_mem_children (dissolved.mem_children_of_ne hMiddle hNe hChild))
      · rintro rfl
        rw [← wellFormed.linked.parent_iff, hParent, Option.some_inj] at hChild
        exact hChild ▸ ih.1 (hChild ▸ hParentNe)
  exact (hWay h).1 hBelow

/-- What comes before another node still comes before it. -/
theorem before (hFirst : first ≠ id) (hSecond : second ≠ id) (h : forest.Before first second) :
    after.Before first second := by
  have hReaches : ∀ {above below}, above ≠ id → below ≠ id → forest.Reaches above below →
      after.Reaches above below := dissolved.reaches wellFormed hParent
  have hChildNe : ∀ {child}, child ∈ forest.children id → child ≠ id := by
    rintro child hChild rfl
    exact wellFormed.not_reaches_of_mem_children hChild (Reaches.refl forest child)
  rcases h with ⟨hNe, h⟩ | ⟨left, right, hEarlier, hLeft, hRight⟩
  · exact .inl ⟨hNe, hReaches hFirst hSecond h⟩
  · right
    by_cases hLeftNe : left = id
    · subst hLeftNe
      obtain ⟨child, hChild, hLeft⟩ :=
        (reaches_iff_child.mp hLeft).resolve_left (Ne.symm hFirst)
      have hRightNe : right ≠ left := fun h =>
        hEarlier.not_reaches wellFormed (Reaches.refl forest left) (h ▸ Reaches.refl forest right)
      exact ⟨child, right, dissolved.earlier_of_child_left wellFormed hParent hChild hEarlier,
        hReaches (hChildNe hChild) hFirst hLeft, hReaches hRightNe hSecond hRight⟩
    by_cases hRightNe : right = id
    · subst hRightNe
      obtain ⟨child, hChild, hRight⟩ :=
        (reaches_iff_child.mp hRight).resolve_left (Ne.symm hSecond)
      exact ⟨left, child, dissolved.earlier_of_child_right wellFormed hParent hChild hEarlier,
        hReaches hLeftNe hFirst hLeft, hReaches (hChildNe hChild) hSecond hRight⟩
    · exact ⟨left, right, dissolved.earlier_of_ne hLeftNe hRightNe hEarlier,
        hReaches hLeftNe hFirst hLeft, hReaches hRightNe hSecond hRight⟩

/-- **To dissolve a node** loses the node alone. -/
theorem keeps : forest.Keeps after (· = id) (fun _ => False) fun _ _ => False where
  wellFormed := dissolved.wellFormed
  mem := dissolved.mem_iff.mpr
  root_reaches_iff {other} _ := by
    have hRoot := wellFormed.linked.ne_root hParent
    refine ⟨fun h => ⟨dissolved.reaches_of_reaches h, ?_⟩, fun h => ?_⟩
    · rintro rfl
      exact hRoot (dissolved.wellFormed.linked.eq_root_of_reaches h
        (dissolved.parent?_self wellFormed))
    · exact dissolved.reaches wellFormed hParent hRoot.symm h.2 h.1
  reaches := dissolved.reaches wellFormed hParent
  reaches_back _ _ h := .inl (dissolved.reaches_of_reaches h)
  before hFirst hSecond h := .inl (dissolved.before wellFormed hParent hFirst hSecond h)

end Dissolved

/-! ### Wrapping -/

namespace Wrapped

variable {wrapper : NodeId} {kind : Kind} (wrapped : forest.Wrapped after id wrapper kind)

include wrapped

/-- What was listed under the node is listed under the wrapper, and all else where it was. -/
theorem exists_children_eq (hParent : parent ∈ forest) :
    ∃ lister, after.children lister = forest.children parent ∧ after.Reaches parent lister := by
  by_cases hId : parent = id
  · subst hId
    refine ⟨wrapper, wrapped.children_wrapper, Reaches.of_mem_children ?_⟩
    rw [wrapped.children_self]
    exact List.mem_singleton_self wrapper
  · have hWrapper : parent ≠ wrapper := fun h => wrapped.notMem (h ▸ hParent)
    exact ⟨parent, wrapped.children_of_ne parent hId hWrapper, Reaches.refl after parent⟩

theorem reaches (h : forest.Reaches above below) : after.Reaches above below := by
  induction h with
  | refl => exact Reaches.refl after above
  | tail _ hChild ih =>
    obtain ⟨lister, hChildren, hLister⟩ :=
      wrapped.exists_children_eq (mem_of_mem_children hChild)
    exact (ih.trans hLister).trans (Reaches.of_mem_children (hChildren ▸ hChild))

theorem earlier (h : forest.Earlier left right) : after.Earlier left right := by
  obtain ⟨parent, hPair⟩ := h
  obtain ⟨lister, hChildren, -⟩ :=
    wrapped.exists_children_eq (mem_of_mem_children (mem_of_pair_sublist hPair).1)
  exact ⟨lister, hChildren ▸ hPair⟩

/-- **To wrap what is below a node** loses nothing. -/
theorem keeps (linked : forest.Linked) (hId : id ∈ forest) :
    forest.Keeps after (fun _ => False) (fun _ => False) fun _ _ => False where
  wellFormed := wrapped.wellFormed
  mem h := wrapped.mem_iff.mpr (.inl h)
  root_reaches_iff hOther := by
    rw [not_false_eq_true, and_true]
    exact ⟨fun h => (wrapped.reaches_of_reaches linked hId forest.root_mem h).1 hOther,
      wrapped.reaches⟩
  reaches _ _ := wrapped.reaches
  reaches_back hAbove hBelow h :=
    .inl ((wrapped.reaches_of_reaches linked hId hAbove h).1 hBelow)
  before _ _ h := by
    refine .inl (h.imp (And.imp_right wrapped.reaches) ?_)
    rintro ⟨left, right, hEarlier, hLeft, hRight⟩
    exact ⟨left, right, wrapped.earlier hEarlier, wrapped.reaches hLeft, wrapped.reaches hRight⟩

end Wrapped

/-! ### Filing -/

section

variable {list : NodeId} (wellFormed : forest.WellFormed) (hEarlier : forest.Earlier list id)

include wellFormed hEarlier

/-- By filing the list comes to reach what the node reaches, and nothing else changes. -/
theorem reaches_file_iff :
    (forest.move list (forest.children list).length id).Reaches above below ↔
      forest.Reaches above below ∨ above = list ∧ forest.Reaches id below := by
  have linked := wellFormed.linked
  have hPlaceable := hEarlier.placeable wellFormed
  have hPosition : (forest.children list).length ≤ ((forest.cut id).children list).length := by
    rw [linked.children_cut, List.erase_of_not_mem (hEarlier.notMem_children wellFormed)]
  rw [move, reaches_link (mem_cut.mpr hPlaceable.parent_mem) hPosition]
  simp only [wellFormed.reaches_cut_iff]
  constructor
  · rintro (⟨h, -⟩ | ⟨⟨hAbove, -⟩, hBelow, -⟩)
    · exact .inl h
    · rcases hEarlier.reaches_right linked hAbove with h | h
      · exact .inr ⟨h, hBelow⟩
      · exact .inl (h.trans hBelow)
  · rintro (h | ⟨rfl, h⟩)
    · by_cases hBelow : forest.Reaches id below → forest.Reaches id above
      · exact .inl ⟨h, hBelow⟩
      · obtain ⟨hBelow, hAbove⟩ := Classical.not_imp.mp hBelow
        -- the way leads to the node from above, so it passes the parent, and from there the list
        have hId := (linked.reaches_total h hBelow).resolve_right hAbove
        have hList := (hEarlier.reaches_left linked hId).resolve_left
          fun h => hAbove (h ▸ Reaches.refl forest id)
        exact .inr ⟨⟨hList, fun h => absurd h hPlaceable.not_reaches⟩, hBelow,
          fun _ => Reaches.refl forest id⟩
    · exact .inr ⟨⟨Reaches.refl forest above, fun h => h⟩, h, fun _ => Reaches.refl forest id⟩

theorem earlier_file (hLeft : left ≠ id) (hRight : right ≠ id) (h : forest.Earlier left right) :
    (forest.move list (forest.children list).length id).Earlier left right := by
  obtain ⟨parent, hPair⟩ := h
  refine ⟨parent, ?_⟩
  by_cases hParent : list = parent
  · subst hParent
    rw [children_file wellFormed hEarlier]
    exact hPair.trans (List.sublist_append_left _ _)
  · rw [children_move_of_ne wellFormed.linked (hEarlier.placeable wellFormed).parent_mem hParent]
    exact pair_sublist_erase hPair hLeft hRight

end

section

variable {list : NodeId} {front middle back : List NodeId} (wellFormed : forest.WellFormed)
  (hChildren : forest.children parent = (front ++ list :: middle) ++ id :: back)

include hChildren

/-- The list stands before the node. -/
theorem earlier_of_filing : forest.Earlier list id :=
  earlier_of_children hChildren (List.mem_append_right front List.mem_cons_self) List.mem_cons_self

include wellFormed

/-- What stands behind the node stands behind the list in the end. -/
theorem earlier_file_left (h : forest.Earlier id right) :
    (forest.move list (forest.children list).length id).Earlier list right := by
  have linked := wellFormed.linked
  have hList := earlier_of_filing hChildren
  have ⟨lister, hPair⟩ := h
  obtain rfl : lister = parent := linked.eq_of_mem_children (mem_of_pair_sublist hPair).1
    (hChildren ▸ List.mem_append_right _ List.mem_cons_self)
  rw [hChildren] at hPair
  have hBack := mem_back_of_pair_sublist (linked.notMem_of_children hChildren) hPair
  refine earlier_file wellFormed hList (hList.ne wellFormed) (h.ne wellFormed).symm ?_
  exact earlier_of_children hChildren (List.mem_append_right front List.mem_cons_self)
    (List.mem_cons_of_mem id hBack)

/-- What stands before the node stands before the list, or is the list, or stands in between. -/
theorem earlier_file_right (h : forest.Earlier left id) :
    (forest.move list (forest.children list).length id).Earlier left list ∨
      left = list ∨ left ∈ middle := by
  have linked := wellFormed.linked
  have hList := earlier_of_filing hChildren
  have ⟨lister, hPair⟩ := h
  obtain rfl : lister = parent := linked.eq_of_mem_children (mem_of_pair_sublist hPair).2
    (hChildren ▸ List.mem_append_right _ List.mem_cons_self)
  rw [hChildren] at hPair
  have hFront := mem_front_of_pair_sublist (linked.notMem_of_children hChildren) hPair
  refine (List.mem_append.mp hFront).imp (fun hFront => ?_) List.mem_cons.mp
  rw [List.append_assoc] at hChildren
  exact earlier_file wellFormed hList (h.ne wellFormed) (hList.ne wellFormed)
    (earlier_of_children hChildren hFront List.mem_cons_self)

omit hChildren in
/-- The list and its entries come before what the list is given. -/
theorem before_file_of_list (hList : forest.Earlier list id) (hFirst : forest.Reaches list first)
    (hSecond : forest.Reaches id second) :
    (forest.move list (forest.children list).length id).Before first second := by
  rcases reaches_iff_child.mp hFirst with rfl | ⟨child, hChild, hFirst⟩
  · refine .inl ⟨?_, (reaches_file_iff wellFormed hList).mpr (.inr ⟨rfl, hSecond⟩)⟩
    rintro rfl
    exact hList.not_reaches wellFormed (Reaches.refl forest list) hSecond
  · refine .inr ⟨child, id, ?_, (reaches_file_iff wellFormed hList).mpr (.inl hFirst),
      (reaches_file_iff wellFormed hList).mpr (.inl hSecond)⟩
    exact earlier_of_children (children_file wellFormed hList) hChild (List.mem_singleton_self id)

/-- What comes before another node comes before it after the filing, unless the other is filed and
it is in between. -/
theorem before_file (h : forest.Before first second) :
    (forest.move list (forest.children list).length id).Before first second ∨
      ∃ passed ∈ middle, forest.Reaches passed first ∧ forest.Reaches id second := by
  have hList := earlier_of_filing hChildren
  have hKept : ∀ {above below}, forest.Reaches above below →
      (forest.move list (forest.children list).length id).Reaches above below :=
    fun h => (reaches_file_iff wellFormed hList).mpr (.inl h)
  have hFiled : ∀ {below}, forest.Reaches id below →
      (forest.move list (forest.children list).length id).Reaches list below :=
    fun h => (reaches_file_iff wellFormed hList).mpr (.inr ⟨rfl, h⟩)
  rcases h with ⟨hNe, h⟩ | ⟨left, right, hEarlier, hLeft, hRight⟩
  · exact .inl (.inl ⟨hNe, hKept h⟩)
  by_cases hLeftNe : left = id
  · subst hLeftNe
    exact .inl (.inr ⟨list, right, earlier_file_left wellFormed hChildren hEarlier, hFiled hLeft,
      hKept hRight⟩)
  by_cases hRightNe : right = id
  · subst hRightNe
    rcases earlier_file_right wellFormed hChildren hEarlier with h | rfl | hMiddle
    · exact .inl (.inr ⟨left, list, h, hKept hLeft, hFiled hRight⟩)
    · exact .inl (before_file_of_list wellFormed hList hLeft hRight)
    · exact .inr ⟨left, hMiddle, hLeft, hRight⟩
  · exact .inl (.inr ⟨left, right, earlier_file wellFormed hList hLeftNe hRightNe hEarlier,
      hKept hLeft, hKept hRight⟩)

/-- **To file a node in a list** that stands before it loses nothing. The list grows, and what
stands between the two is passed. -/
theorem keeps_file :
    forest.Keeps (forest.move list (forest.children list).length id) (fun _ => False) (· = list)
      fun first second =>
        ∃ passed ∈ middle, forest.Reaches passed first ∧ forest.Reaches id second := by
  have linked := wellFormed.linked
  have hList := earlier_of_filing hChildren
  have hRoot : NodeId.root ≠ list := by
    rintro rfl
    obtain ⟨parent, hPair⟩ := hList
    exact linked.notMem_children_root (mem_of_pair_sublist hPair).1
  refine ⟨wellFormed_file wellFormed hList, mem_move.mpr, ?_, ?_, ?_, ?_⟩
  · intro other _
    rw [reaches_file_iff wellFormed hList, not_false_eq_true, and_true]
    exact or_iff_left fun h => hRoot h.1
  · exact fun _ _ h => (reaches_file_iff wellFormed hList).mpr (.inl h)
  · exact fun _ _ h => ((reaches_file_iff wellFormed hList).mp h).imp_right And.left
  · exact fun _ _ h => before_file wellFormed hChildren h

end

end Forest

end WikiMarkup
