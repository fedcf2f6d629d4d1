import WikiMarkup.Proofs.Forest.Links
import Mathlib.Logic.Relation
import Mathlib.Order.WellFounded
import Mathlib.Data.Finset.Card

/-!
# Above and below

Two ways to get around in a forest: `Ancestor` climbs along parents and `Reaches` goes down along
children. In a forest whose links agree they are converse to each other
(`Linked.reaches_iff_eq_or_ancestor`).

**Well-formed forests.** Checking the links does not look for cycles of parents. A forest is
`WellFormed` if the check finds nothing and climbing comes to an end from every node. Then no
node reaches its own parent, and two nodes that reach a common node reach one another.
-/

namespace WikiMarkup

open Relation (ReflTransGen TransGen)

namespace Forest

/-- One node is an ancestor of another if climbing along parents leads from the other to it. -/
def Ancestor (forest : Forest) (ancestor id : NodeId) : Prop :=
  TransGen (fun child parent => forest.parent? child = some parent) id ancestor

/-- One node reaches another if going down along children leads to the other, in any number of
steps. -/
def Reaches (forest : Forest) (above id : NodeId) : Prop :=
  ReflTransGen (fun parent child => child ∈ forest.children parent) above id

/-- The check finds nothing, and climbing along parents comes to an end from every node. -/
structure WellFormed (forest : Forest) : Prop where
  /-- The links agree. -/
  check_eq_ok : forest.check = .ok ()
  /-- There is no cycle of parents. -/
  climb : WellFounded fun parent child => forest.parent? child = some parent

variable {forest after : Forest} {id other above parent child : NodeId}

/-! ### Going down -/

@[refl] theorem Reaches.refl (forest : Forest) (id : NodeId) : forest.Reaches id id :=
  ReflTransGen.refl

theorem Reaches.trans (hAbove : forest.Reaches above id) (hBelow : forest.Reaches id other) :
    forest.Reaches above other :=
  ReflTransGen.trans hAbove hBelow

theorem Reaches.of_mem_children (h : child ∈ forest.children parent) :
    forest.Reaches parent child :=
  ReflTransGen.single h

/-- A node is reached if it is where one starts or it is reached from a child. -/
theorem reaches_iff_child : forest.Reaches above id ↔
    above = id ∨ ∃ child ∈ forest.children above, forest.Reaches child id := by
  constructor
  · intro h
    rcases ReflTransGen.cases_head h with h | ⟨child, hChild, h⟩
    · exact .inl h
    · exact .inr ⟨child, hChild, h⟩
  · rintro (rfl | ⟨child, hChild, h⟩)
    · exact Reaches.refl forest above
    · exact (Reaches.of_mem_children hChild).trans h

/-- More children reach more. -/
theorem Reaches.mono
    (hChildren : ∀ {parent child}, child ∈ forest.children parent → child ∈ after.children parent)
    (h : forest.Reaches above id) : after.Reaches above id :=
  ReflTransGen.mono (fun _ _ hChild => hChildren hChild) above id h

/-- What a node reaches is settled by the children of the nodes that it reaches. -/
theorem reaches_congr
    (h : ∀ id, forest.Reaches above id → after.children id = forest.children id) :
    after.Reaches above id ↔ forest.Reaches above id := by
  constructor <;> intro hReaches
  · induction hReaches with
    | refl => exact Reaches.refl forest above
    | tail _ hChild ih => exact ih.trans (Reaches.of_mem_children (h _ ih ▸ hChild))
  · induction hReaches with
    | refl => exact Reaches.refl after above
    | tail hAbove hChild ih => exact ih.trans (Reaches.of_mem_children (h _ hAbove ▸ hChild))

/-- Two nodes that reach a common node reach one another, unless two of the nodes below them list
the same child. -/
theorem Reaches.total (h : forest.Reaches above id) (hOther : forest.Reaches other id)
    (unique : ∀ left right child, forest.Reaches above left → forest.Reaches other right →
      child ∈ forest.children left → child ∈ forest.children right → left = right) :
    forest.Reaches above other ∨ forest.Reaches other above := by
  induction h with
  | refl => exact .inr hOther
  | @tail parent child h hChild ih =>
    rcases ReflTransGen.cases_tail hOther with rfl | ⟨last, hLast, hListed⟩
    · exact .inl (h.trans (Reaches.of_mem_children hChild))
    · exact ih (unique parent last child h hLast hChild hListed ▸ hLast)

namespace Linked

variable (linked : forest.Linked)

include linked

/-- A node is reached if it is where one starts or its parent is reached. -/
theorem reaches_iff_parent : forest.Reaches above id ↔
    above = id ∨ ∃ parent, forest.parent? id = some parent ∧ forest.Reaches above parent := by
  constructor
  · intro h
    rcases ReflTransGen.cases_tail h with h | ⟨parent, h, hChild⟩
    · exact .inl h.symm
    · exact .inr ⟨parent, linked.parent_iff.mpr hChild, h⟩
  · rintro (rfl | ⟨parent, hParent, h⟩)
    · exact Reaches.refl forest above
    · exact h.trans (Reaches.of_mem_children (linked.parent_iff.mp hParent))

theorem ancestor_iff_reaches_parent : forest.Ancestor above id ↔
    ∃ parent, forest.parent? id = some parent ∧ forest.Reaches above parent := by
  have hStep : (fun parent child => child ∈ forest.children parent) =
      Function.swap fun child parent => forest.parent? child = some parent := by
    funext parent child
    exact propext linked.parent_iff.symm
  rw [Ancestor, Relation.TransGen.head'_iff]
  refine exists_congr fun parent => and_congr_right fun _ => ?_
  rw [Reaches, hStep, Relation.reflTransGen_swap]

/-- Going down leads to a node from itself and from its ancestors. -/
theorem reaches_iff_eq_or_ancestor :
    forest.Reaches above id ↔ above = id ∨ forest.Ancestor above id := by
  rw [linked.reaches_iff_parent, linked.ancestor_iff_reaches_parent]

theorem mem_children_right (h : child ∈ forest.children parent) : child ∈ forest :=
  mem_of_parent? (linked.parent_iff.mpr h)

theorem length_children_le (parent : NodeId) : (forest.children parent).length ≤ forest.size := by
  have hSubset : forest.children parent ⊆ forest.ids := fun child hChild =>
    mem_ids.mpr (linked.mem_children_right hChild)
  have hLength := ((linked.nodup parent).subperm hSubset).length_le
  rwa [ids, List.length_map, List.length_range] at hLength

theorem mem_of_parent?_right (h : forest.parent? child = some parent) : parent ∈ forest :=
  mem_of_mem_children (linked.parent_iff.mp h)

theorem mem_of_reaches (hAbove : above ∈ forest) (h : forest.Reaches above id) :
    id ∈ forest := by
  rcases linked.reaches_iff_parent.mp h with rfl | ⟨parent, hParent, -⟩
  · exact hAbove
  · exact mem_of_parent? hParent

theorem notMem_children_root : .root ∉ forest.children parent :=
  linked.notMem_children linked.root_parent

/-- A node that has a parent is not the root. -/
theorem ne_root (h : forest.parent? id = some parent) : id ≠ .root := by
  rintro rfl
  rw [linked.root_parent] at h
  cases h

/-- The root is reached from itself alone. -/
theorem eq_root_of_reaches_root (h : forest.Reaches above .root) : above = .root := by
  rcases linked.reaches_iff_parent.mp h with h | ⟨parent, hParent, -⟩
  · exact h
  · exact absurd rfl (linked.ne_root hParent)

/-- A node below the root that has no parent is the root. -/
theorem eq_root_of_reaches (hReaches : forest.Reaches .root id)
    (hParent : forest.parent? id = none) : id = .root := by
  rcases linked.reaches_iff_parent.mp hReaches with h | ⟨parent, hAbove, -⟩
  · exact h.symm
  · rw [hParent] at hAbove
    cases hAbove

/-- A node that has a parent is below the root exactly if the parent is. -/
theorem root_reaches_iff_parent (h : forest.parent? id = some parent) :
    forest.Reaches .root id ↔ forest.Reaches .root parent := by
  rw [linked.reaches_iff_parent, or_iff_right (linked.ne_root h).symm, h]
  simp only [Option.some_inj, exists_eq_left']

/-- Two nodes that reach a common node reach one another. -/
theorem reaches_total (h : forest.Reaches above id) (hOther : forest.Reaches other id) :
    forest.Reaches above other ∨ forest.Reaches other above :=
  h.total hOther fun _ _ _ _ _ hChild hListed => linked.eq_of_mem_children hChild hListed

end Linked

/-! ### Well-formed forests -/

theorem wellFormed_iff : forest.WellFormed ↔ forest.Linked ∧
    WellFounded fun parent child => forest.parent? child = some parent :=
  ⟨fun h => ⟨check_eq_ok_iff.mp h.check_eq_ok, h.climb⟩,
    fun h => ⟨check_eq_ok_iff.mpr h.1, h.2⟩⟩

/-- A forest of one node is well-formed. -/
theorem wellFormed_singleton (kind : Kind) : (singleton kind).WellFormed := by
  have hParent : ∀ id, (singleton kind).parent? id = none := by
    rintro ⟨_ | index⟩ <;> rfl
  refine ⟨rfl, ⟨fun id => Acc.intro id fun above hAbove => ?_⟩⟩
  rw [hParent] at hAbove
  cases hAbove

namespace WellFormed

variable (wellFormed : forest.WellFormed)

include wellFormed

theorem linked : forest.Linked := check_eq_ok_iff.mp wellFormed.check_eq_ok

/-- No node is an ancestor of its own. -/
theorem not_ancestor_self : ¬ forest.Ancestor id id := by
  -- one step of climbing is well-founded, hence any number of steps
  have hAncestor : WellFounded forest.Ancestor :=
    Subrelation.wf (fun h => Relation.transGen_swap.mp h) wellFormed.climb.transGen
  exact hAncestor.irrefl.irrefl id

/-- No node reaches its own parent. -/
theorem not_reaches_parent (h : forest.parent? child = some parent) :
    ¬ forest.Reaches child parent := fun hReaches =>
  wellFormed.not_ancestor_self
    (wellFormed.linked.ancestor_iff_reaches_parent.mpr ⟨parent, h, hReaches⟩)

theorem not_reaches_of_mem_children (h : child ∈ forest.children parent) :
    ¬ forest.Reaches child parent :=
  wellFormed.not_reaches_parent (wellFormed.linked.parent_iff.mpr h)

/-- Nodes that reach one another are the same. -/
theorem reaches_antisymm (h : forest.Reaches id other) (hBack : forest.Reaches other id) :
    id = other := by
  rcases wellFormed.linked.reaches_iff_parent.mp h with h | ⟨parent, hParent, h⟩
  · exact h
  · exact absurd (hBack.trans h) (wellFormed.not_reaches_parent hParent)

/-- Children of one node that reach one another are the same. -/
theorem eq_of_reaches_of_mem_children (hChild : child ∈ forest.children parent)
    (hOther : other ∈ forest.children parent) (h : forest.Reaches child other) :
    child = other := by
  have linked := wellFormed.linked
  rcases linked.reaches_iff_parent.mp h with h | ⟨above, hAbove, h⟩
  · exact h
  · rw [linked.parent_iff.mpr hOther, Option.some_inj] at hAbove
    exact absurd (hAbove ▸ h) (wellFormed.not_reaches_of_mem_children hChild)

/-- Climbing ends at a node without parent. -/
theorem exists_top (id : NodeId) :
    ∃ top, forest.parent? top = none ∧ (top = id ∨ forest.Ancestor top id) := by
  have linked := wellFormed.linked
  simp only [← linked.reaches_iff_eq_or_ancestor]
  induction id using wellFormed.climb.induction with
  | _ id ih =>
    cases hParent : forest.parent? id with
    | none => exact ⟨id, hParent, Reaches.refl forest id⟩
    | some parent =>
      obtain ⟨top, hTop, hReaches⟩ := ih parent hParent
      exact ⟨top, hTop, hReaches.trans (Reaches.of_mem_children (linked.parent_iff.mp hParent))⟩

end WellFormed

/-! ### Heights -/

open Classical in
/-- The number of nodes that reach a node. -/
noncomputable def height (forest : Forest) (id : NodeId) : Nat :=
  ((Finset.range forest.size).filter fun index => forest.Reaches ⟨index⟩ id).card

theorem height_le_size (forest : Forest) (id : NodeId) : forest.height id ≤ forest.size := by
  classical
  rw [height]
  exact (Finset.card_filter_le _ _).trans (Finset.card_range _).le

/-- What is reached, and does not reach back, has more nodes above it. -/
theorem height_lt_of_not_reaches (hMem : child ∈ forest) (h : forest.Reaches parent child)
    (hNot : ¬ forest.Reaches child parent) : forest.height parent < forest.height child := by
  classical
  -- all that reaches the parent reaches the child, and so does the child itself
  refine Finset.card_lt_card (Finset.ssubset_iff.mpr ⟨child.index, ?_, ?_⟩)
  · simp only [Finset.mem_filter, not_and]
    exact fun _ => hNot
  · rw [Finset.insert_subset_iff, Finset.mem_filter, Finset.mem_range]
    refine ⟨⟨hMem, Reaches.refl forest child⟩, fun index hIndex => ?_⟩
    rw [Finset.mem_filter] at hIndex ⊢
    exact ⟨hIndex.1, hIndex.2.trans h⟩

/-- Climbing lowers the height. -/
theorem WellFormed.height_lt (wellFormed : forest.WellFormed)
    (h : forest.parent? child = some parent) : forest.height parent < forest.height child :=
  height_lt_of_not_reaches (mem_of_parent? h)
    (Reaches.of_mem_children (wellFormed.linked.parent_iff.mp h)) (wellFormed.not_reaches_parent h)

end Forest

end WikiMarkup
