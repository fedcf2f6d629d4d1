import WikiMarkup.Forest.Edit
import WikiMarkup.Proofs.Forest.Ancestry
import Mathlib.Data.List.Perm.Basic

/-!
# Cutting and linking

Every edit of the links is made of two steps. `Forest.cut` takes a node away from its parent, and
`Forest.link` puts a node without parent under another. For each of them this module says what
becomes of the children, of the parents and of what a node reaches, and that a well-formed
forest stays well-formed: always if a node is cut, and if it is linked, as long as it is not the
root and does not reach the node that it is put under.
-/

namespace WikiMarkup

namespace Forest

/-- The forest in which a node is cut off from its parent, if it has one. -/
def cut (forest : Forest) (id : NodeId) : Forest :=
  match forest.parent? id with
  | none => forest
  | some parent => forest.unlink parent ((forest.children parent).idxOf id) id

variable {forest : Forest} {id other above parent child : NodeId}

/-! ### Cutting -/

/-- To cut off what has no parent changes nothing. -/
theorem cut_of_parent?_eq_none (h : forest.parent? id = none) : forest.cut id = forest := by
  rw [cut, h]

theorem cut_of_parent?_eq_some (h : forest.parent? id = some parent) :
    forest.cut id = forest.unlink parent ((forest.children parent).idxOf id) id := by
  rw [cut, h]

@[simp] theorem mem_cut : other ∈ forest.cut id ↔ other ∈ forest := by
  unfold cut
  split
  · exact Iff.rfl
  · exact mem_unlink

@[simp] theorem label?_cut : (forest.cut id).label? other = forest.label? other := by
  unfold cut
  split
  · rfl
  · exact label?_unlink

/-- What has been cut off has no parent, and all else keeps its own. -/
theorem parent?_cut :
    (forest.cut id).parent? other = if id = other then none else forest.parent? other := by
  unfold cut
  split
  next h =>
    split
    next hId => rw [← hId, h]
    next => rfl
  next => exact parent?_unlink

@[simp] theorem parent?_cut_self : (forest.cut id).parent? id = none := by
  rw [parent?_cut, if_pos rfl]

/-- To cut off counts up if there was a parent. -/
theorem revision_cut : (forest.cut id).revision =
    forest.revision + if (forest.parent? id).isSome then 1 else 0 := by
  unfold cut
  split
  next h => simp [h]
  next h => simp [h]

namespace Linked

variable (linked : forest.Linked)

include linked

/-- A node that is cut off is listed nowhere. -/
theorem children_cut : (forest.cut id).children other = (forest.children other).erase id := by
  cases hParent : forest.parent? id with
  | none =>
    rw [cut_of_parent?_eq_none hParent, List.erase_of_not_mem (linked.notMem_children hParent)]
  | some parent =>
    rw [cut_of_parent?_eq_some hParent, children_unlink]
    split
    next h => rw [h, List.erase_eq_eraseIdx_of_idxOf rfl]
    next h => rw [List.erase_of_not_mem (linked.notMem_children_of_ne hParent h)]

/-- What has been cut off is listed nowhere, and all else where it was. -/
theorem mem_children_cut :
    child ∈ (forest.cut id).children other ↔ child ≠ id ∧ child ∈ forest.children other := by
  rw [linked.children_cut, (linked.nodup other).mem_erase_iff]

theorem cut (id : NodeId) : (forest.cut id).Linked where
  root_parent := by
    rw [parent?_cut, linked.root_parent, ite_self]
  parent_iff := by
    intro child parent
    rw [linked.mem_children_cut, parent?_cut, ← linked.parent_iff]
    split
    next h => simp [h]
    next h => simp [Ne.symm h]
  nodup parent := by
    rw [linked.children_cut]
    exact (linked.nodup parent).erase id

/-- Cutting makes nothing reachable. -/
theorem reaches_of_reaches_cut (h : (forest.cut id).Reaches above other) :
    forest.Reaches above other :=
  h.mono fun hChild => (linked.mem_children_cut.mp hChild).2

end Linked

namespace WellFormed

variable (wellFormed : forest.WellFormed)

include wellFormed

theorem cut (id : NodeId) : (forest.cut id).WellFormed := by
  refine wellFormed_iff.mpr ⟨wellFormed.linked.cut id, ?_⟩
  refine Subrelation.wf (fun {parent child} h => ?_) wellFormed.climb
  rw [parent?_cut] at h
  split at h
  · cases h
  · exact h

/-- The children of a node that does not reach the parent of what is cut off stay. -/
theorem children_cut_of_reaches (h : forest.Reaches id other) :
    (forest.cut id).children other = forest.children other := by
  rw [wellFormed.linked.children_cut, List.erase_of_not_mem]
  exact fun hId => wellFormed.not_reaches_of_mem_children hId h

end WellFormed

/-! ### Linking -/

section

variable {position : Nat}

/-- A child is put before the children from the insertion point on. -/
theorem children_link_self {front back : List NodeId} (hParent : parent ∈ forest)
    (h : forest.children parent = front ++ back) :
    (forest.link parent front.length child).children parent = front ++ child :: back := by
  rw [children_link hParent, if_pos rfl, h]
  clear h
  induction front with
  | nil => exact List.insertIdx_zero
  | cons first front ih => exact congrArg (first :: ·) ih

theorem children_link_of_ne (hParent : parent ∈ forest) (h : parent ≠ other) :
    (forest.link parent position child).children other = forest.children other := by
  rw [children_link hParent, if_neg h]

variable (hParent : parent ∈ forest) (hPosition : position ≤ (forest.children parent).length)

include hParent hPosition

/-- Linking lists the child under its parent and nothing else anew. -/
theorem mem_children_link : other ∈ (forest.link parent position child).children above ↔
    (above = parent ∧ other = child) ∨ other ∈ forest.children above := by
  rw [children_link hParent]
  split
  next h =>
    rw [← h, List.mem_insertIdx hPosition]
    simp
  next h => simp [Ne.symm h]

/-- A new link leads from what reaches the parent to what the child reaches. -/
theorem reaches_link : (forest.link parent position child).Reaches above other ↔
    forest.Reaches above other ∨ forest.Reaches above parent ∧ forest.Reaches child other := by
  have hMem : ∀ above other : NodeId,
      other ∈ (forest.link parent position child).children above ↔
        (above = parent ∧ other = child) ∨ other ∈ forest.children above := fun _ _ =>
    mem_children_link hParent hPosition
  have hMono : ∀ {above other : NodeId}, forest.Reaches above other →
      (forest.link parent position child).Reaches above other := fun h =>
    h.mono fun hChild => (hMem _ _).mpr (.inr hChild)
  constructor
  · intro h
    induction h with
    | refl => exact .inl (Reaches.refl forest above)
    | @tail middle below _ hBelow ih =>
      rcases (hMem middle below).mp hBelow with ⟨rfl, rfl⟩ | hBelow
      -- the way takes the new link: what came before reaches the parent
      · exact .inr ⟨ih.elim id And.left, Reaches.refl forest _⟩
      · exact ih.imp (·.trans (Reaches.of_mem_children hBelow))
          (And.imp_right (·.trans (Reaches.of_mem_children hBelow)))
  · rintro (h | ⟨hAbove, hBelow⟩)
    · exact hMono h
    · have hLink := Reaches.of_mem_children ((hMem parent child).mpr (.inl ⟨rfl, rfl⟩))
      exact (hMono hAbove).trans (hLink.trans (hMono hBelow))

/-- To link what has no parent and is not the root keeps a forest linked. -/
theorem Linked.link (linked : forest.Linked) (hChild : child ∈ forest)
    (hDetached : forest.parent? child = none) (hRoot : child ≠ .root) :
    (forest.link parent position child).Linked where
  root_parent := by
    rw [parent?_link hChild, if_neg hRoot, linked.root_parent]
  parent_iff := by
    intro other above
    rw [mem_children_link hParent hPosition, parent?_link hChild]
    split
    next h => simp [← h, linked.notMem_children hDetached, eq_comm]
    next h => simp [Ne.symm h, linked.parent_iff]
  nodup above := by
    rw [children_link hParent]
    split
    next h =>
      rw [(List.perm_insertIdx child _ (h ▸ hPosition)).nodup_iff, List.nodup_cons]
      exact ⟨linked.notMem_children hDetached, linked.nodup above⟩
    next => exact linked.nodup above

/-- **Linking makes no cycle** if the child does not reach the parent. -/
theorem WellFormed.link (wellFormed : forest.WellFormed) (hChild : child ∈ forest)
    (hDetached : forest.parent? child = none) (hRoot : child ≠ .root)
    (hReaches : ¬ forest.Reaches child parent) :
    (forest.link parent position child).WellFormed := by
  have linked := wellFormed.linked
  refine wellFormed_iff.mpr ⟨linked.link hParent hPosition hChild hDetached hRoot, ?_⟩
  -- nodes that the child does not reach climb as before, the parent among them
  have hApart : ∀ id, ¬ forest.Reaches child id →
      Acc (fun above below => (forest.link parent position child).parent? below = some above)
        id := by
    intro id
    induction id using wellFormed.climb.induction with
    | _ id ih =>
      intro hId
      refine Acc.intro id fun above hAbove => ?_
      have hNe : child ≠ id := fun h => hId (h ▸ Reaches.refl forest child)
      rw [parent?_link hChild, if_neg hNe] at hAbove
      exact ih above hAbove fun h =>
        hId (h.trans (Reaches.of_mem_children (linked.parent_iff.mp hAbove)))
  -- every other node climbs as before until it comes to the child, and then to the parent
  refine ⟨fun id => ?_⟩
  induction id using wellFormed.climb.induction with
  | _ id ih =>
    refine Acc.intro id fun above hAbove => ?_
    rw [parent?_link hChild] at hAbove
    split at hAbove
    · cases hAbove
      exact hApart parent hReaches
    · exact ih above hAbove

end

/-! ### Adding -/

/-- To add a node changes nothing about what is reached from what. -/
theorem reaches_add {node : Node} :
    (forest.add node).2.Reaches above other ↔ forest.Reaches above other :=
  reaches_congr fun id _ => children_add forest node id

theorem WellFormed.add (wellFormed : forest.WellFormed) (node : Node) :
    (forest.add node).2.WellFormed := by
  have linked := wellFormed.linked
  refine wellFormed_iff.mpr ⟨⟨?_, ?_, ?_⟩, ?_⟩
  · rw [parent?_add, linked.root_parent]
  · intro child parent
    rw [parent?_add, children_add, linked.parent_iff]
  · intro parent
    rw [children_add]
    exact linked.nodup parent
  · simp only [parent?_add]
    exact wellFormed.climb

/-! ### Moving -/

/-- Whether a node may be placed under another. -/
structure Placeable (forest : Forest) (parent child : NodeId) : Prop where
  /-- The node exists. -/
  child_mem : child ∈ forest
  /-- So does the other. -/
  parent_mem : parent ∈ forest
  /-- The root may not be placed anywhere. -/
  ne_root : child ≠ .root
  /-- No node may be placed below itself. -/
  not_reaches : ¬ forest.Reaches child parent

theorem placeable_iff : forest.Placeable parent child ↔
    child ∈ forest ∧ child ≠ .root ∧ parent ∈ forest ∧ ¬ forest.Reaches child parent :=
  ⟨fun h => ⟨h.child_mem, h.ne_root, h.parent_mem, h.not_reaches⟩,
    fun h => ⟨h.1, h.2.2.1, h.2.1, h.2.2.2⟩⟩

/-- Cutting forbids no placement. -/
theorem Placeable.cut (linked : forest.Linked) (h : forest.Placeable parent child) :
    (forest.cut id).Placeable parent child where
  child_mem := mem_cut.mpr h.child_mem
  parent_mem := mem_cut.mpr h.parent_mem
  ne_root := h.ne_root
  not_reaches hReaches := h.not_reaches (linked.reaches_of_reaches_cut hReaches)

/-- A new node may be placed anywhere. -/
theorem placeable_add (hParent : parent ∈ forest) (node : Node) :
    (forest.add node).2.Placeable parent (forest.add node).1 where
  child_mem := mem_add.mpr (.inr rfl)
  parent_mem := mem_add.mpr (.inl hParent)
  ne_root h := notMem_add_fst forest node (h ▸ root_mem forest)
  not_reaches h := by
    rw [reaches_add, reaches_iff_child] at h
    rcases h with h | ⟨child, hChild, -⟩
    · exact notMem_add_fst forest node (h ▸ hParent)
    · exact notMem_add_fst forest node (mem_of_mem_children hChild)

/-- The forest in which a node is cut off and then put under a parent. -/
def move (forest : Forest) (parent : NodeId) (position : Nat) (id : NodeId) : Forest :=
  (forest.cut id).link parent position id

section

variable {position : Nat}

@[simp] theorem mem_move : other ∈ forest.move parent position id ↔ other ∈ forest := by
  rw [move, mem_link, mem_cut]

@[simp] theorem label?_move :
    (forest.move parent position id).label? other = forest.label? other := by
  rw [move, label?_link, label?_cut]

/-- A node that has moved has its new parent, and all else keeps its own. -/
theorem parent?_move (hId : id ∈ forest) : (forest.move parent position id).parent? other =
    if id = other then some parent else forest.parent? other := by
  rw [move, parent?_link (mem_cut.mpr hId), parent?_cut]
  split <;> rfl

/-- To move counts up twice if there was a parent, and else once. -/
theorem revision_move : (forest.move parent position id).revision =
    forest.revision + (if (forest.parent? id).isSome then 1 else 0) + 1 := by
  rw [move, revision_link, revision_cut]

/-- The new parent lists the node at its position. -/
theorem children_move_self {front back : List NodeId} (hParent : parent ∈ forest)
    (h : (forest.cut id).children parent = front ++ back) :
    (forest.move parent front.length id).children parent = front ++ id :: back :=
  children_link_self (mem_cut.mpr hParent) h

/-- All other nodes list what they listed, apart from the node that has moved. -/
theorem children_move_of_ne (linked : forest.Linked) (hParent : parent ∈ forest)
    (h : parent ≠ other) :
    (forest.move parent position id).children other = (forest.children other).erase id := by
  rw [move, children_link_of_ne (mem_cut.mpr hParent) h, linked.children_cut]

variable (hPlaceable : forest.Placeable parent id)
  (hPosition : position ≤ ((forest.cut id).children parent).length)

include hPlaceable hPosition

/-- **Moving keeps a forest well-formed** if the node may be placed under the parent. -/
theorem WellFormed.move (wellFormed : forest.WellFormed) :
    (forest.move parent position id).WellFormed :=
  (wellFormed.cut id).link (mem_cut.mpr hPlaceable.parent_mem) hPosition
    (mem_cut.mpr hPlaceable.child_mem) parent?_cut_self hPlaceable.ne_root
    (hPlaceable.cut wellFormed.linked).not_reaches

/-- What may be placed under the parent may still be placed there after a move. -/
theorem Placeable.move (linked : forest.Linked) (h : forest.Placeable parent other) :
    (forest.move parent position id).Placeable parent other where
  child_mem := mem_move.mpr h.child_mem
  parent_mem := mem_move.mpr h.parent_mem
  ne_root := h.ne_root
  not_reaches hReaches := by
    rcases (reaches_link (mem_cut.mpr hPlaceable.parent_mem) hPosition).mp hReaches with
      hReaches | ⟨hReaches, -⟩
    all_goals exact h.not_reaches (linked.reaches_of_reaches_cut hReaches)

end

end Forest

end WikiMarkup
