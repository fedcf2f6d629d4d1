import WikiMarkup.Forest.Integrity
import Mathlib.Data.List.Nodup
import Mathlib.Data.List.Count
import Mathlib.Data.List.Range

/-!
# Links that agree

A forest stores every link twice. `Forest.Linked` says that the two copies tell the same story:
the root has no parent, a node has a parent exactly if that parent lists it, and no node is
listed twice. `check_eq_ok_iff` says that `Forest.check` decides this, for any table whatsoever.

**Reading after writing.** `children`, `parent?` and `label?` are three views of a node, and a
node is nothing else (`get?_eq_iff`). For each way of writing there is one lemma for each view.
-/

namespace WikiMarkup

/-- A node without its links. -/
def Node.unlinked (node : Node) : Node := { node with children := [], parent := none }

/-- A node is what it is without links, together with its links. -/
theorem Node.eq_iff_unlinked {first second : Node} :
    first = second ↔ first.unlinked = second.unlinked ∧ first.children = second.children ∧
      first.parent = second.parent := by
  constructor
  · rintro rfl
    exact ⟨rfl, rfl, rfl⟩
  · rintro ⟨hLabel, hChildren, hParent⟩
    simp only [Node.unlinked, Node.mk.injEq] at hLabel
    exact Node.ext hLabel.1 hLabel.2.1 hChildren hParent hLabel.2.2.2.2.1 hLabel.2.2.2.2.2

namespace Forest

/-- A forest has an identifier as a member if there is a node for it. -/
instance : Membership NodeId Forest := ⟨fun forest id => id.index < forest.size⟩

instance (id : NodeId) (forest : Forest) : Decidable (id ∈ forest) :=
  inferInstanceAs (Decidable (id.index < forest.size))

/-- What a node is, apart from its links. -/
def label? (forest : Forest) (id : NodeId) : Option Node := (forest.get? id).map Node.unlinked

/-- There is a node for an identifier, and it has a property, which is about all but its links. -/
def Has (forest : Forest) (property : Node → Prop) (id : NodeId) : Prop :=
  ∃ label, forest.label? id = some label ∧ property label

variable {forest : Forest} {id other parent child : NodeId}

theorem mem_def : id ∈ forest ↔ id.index < forest.size := Iff.rfl

theorem root_mem (forest : Forest) : NodeId.root ∈ forest := forest.nonempty

/-- There is nothing at an identifier that is not one of the forest. -/
theorem get?_eq_none_iff_notMem : forest.get? id = none ↔ id ∉ forest := by
  rw [get?_eq_none_iff, mem_def, Nat.not_lt]

/-- The identifiers of a forest are those at which there is a node. -/
theorem mem_iff_exists_get? : id ∈ forest ↔ ∃ node, forest.get? id = some node := by
  rw [← Option.ne_none_iff_exists', ne_eq, get?_eq_none_iff_notMem, not_not]

theorem mem_of_get? {node : Node} (h : forest.get? id = some node) : id ∈ forest :=
  mem_iff_exists_get?.mpr ⟨node, h⟩

theorem mem_ids : id ∈ forest.ids ↔ id ∈ forest := by
  simp only [ids, List.mem_map, List.mem_range, mem_def]
  exact ⟨fun ⟨index, hIndex, hId⟩ => hId ▸ hIndex, fun h => ⟨id.index, h, rfl⟩⟩

theorem children_of_get? {node : Node} (h : forest.get? id = some node) :
    forest.children id = node.children := by
  rw [children, h, Option.map_some, Option.getD_some]

theorem parent?_of_get? {node : Node} (h : forest.get? id = some node) :
    forest.parent? id = node.parent := by
  rw [parent?, h, Option.bind_some]

theorem label?_of_get? {node : Node} (h : forest.get? id = some node) :
    forest.label? id = some node.unlinked := by
  rw [label?, h, Option.map_some]

/-- Where there is a kind there is a label with this kind and with the caption. -/
theorem exists_label?_of_kind? {kind : Kind} (h : forest.kind? id = some kind) :
    ∃ label, forest.label? id = some label ∧ label.kind = kind ∧
      label.caption = forest.caption id := by
  obtain ⟨node, hNode, hKind⟩ := Option.map_eq_some_iff.mp h
  refine ⟨node.unlinked, label?_of_get? hNode, hKind, ?_⟩
  rw [caption, hNode]
  rfl

theorem mem_of_label? {label : Node} (h : forest.label? id = some label) : id ∈ forest := by
  obtain ⟨node, hNode, -⟩ := Option.map_eq_some_iff.mp h
  exact mem_of_get? hNode

/-- Only nodes of a forest have properties. -/
theorem Has.mem {property : Node → Prop} (h : forest.Has property id) : id ∈ forest := by
  obtain ⟨label, hLabel, -⟩ := h
  exact mem_of_label? hLabel

theorem Has.imp {property other : Node → Prop} (hImp : ∀ label, property label → other label)
    (h : forest.Has property id) : forest.Has other id := by
  obtain ⟨label, hLabel, h⟩ := h
  exact ⟨label, hLabel, hImp label h⟩

theorem has_iff_of_label? {property : Node → Prop} {label : Node}
    (h : forest.label? id = some label) : forest.Has property id ↔ property label := by
  simp [Has, h]

instance (property : Node → Prop) [DecidablePred property] (id : NodeId) :
    Decidable (forest.Has property id) :=
  match h : forest.label? id with
  | none => isFalse (by simp [Has, h])
  | some _ => decidable_of_iff _ (has_iff_of_label? h).symm

theorem exists_label?_of_mem (h : id ∈ forest) : ∃ label, forest.label? id = some label := by
  obtain ⟨node, hNode⟩ := mem_iff_exists_get?.mp h
  exact ⟨node.unlinked, label?_of_get? hNode⟩

/-- An identifier that is not one of the forest has no children. -/
theorem children_eq_nil (h : id ∉ forest) : forest.children id = [] := by
  rw [children, get?_eq_none_iff_notMem.mpr h, Option.map_none, Option.getD_none]

/-- The kind is part of the label. -/
theorem kind?_eq_map_label? (forest : Forest) (id : NodeId) :
    forest.kind? id = (forest.label? id).map Node.kind := by
  rw [kind?, label?, Option.map_map]
  rfl

theorem has_kind_iff {kind : Kind} :
    forest.Has (·.kind = kind) id ↔ forest.kind? id = some kind := by
  rw [kind?_eq_map_label?, Option.map_eq_some_iff, Has]

theorem kind?_congr {after : Forest} (h : after.label? id = forest.label? id) :
    after.kind? id = forest.kind? id := by
  rw [kind?_eq_map_label?, kind?_eq_map_label?, h]

/-- The caption is part of the label. -/
theorem caption_eq_map_label? (forest : Forest) (id : NodeId) :
    forest.caption id = ((forest.label? id).map Node.caption).getD "" := by
  rw [caption, label?, Option.map_map]
  rfl

theorem caption_congr {after : Forest} (h : after.label? id = forest.label? id) :
    after.caption id = forest.caption id := by
  rw [caption_eq_map_label?, caption_eq_map_label?, h]

/-- Only nodes of a forest list children. -/
theorem mem_of_mem_children (h : child ∈ forest.children parent) : parent ∈ forest := by
  by_contra hParent
  rw [← get?_eq_none_iff_notMem] at hParent
  simp [children, hParent] at h

/-- Only nodes of a forest have parents. -/
theorem mem_of_parent? (h : forest.parent? child = some parent) : child ∈ forest := by
  by_contra hChild
  rw [← get?_eq_none_iff_notMem] at hChild
  simp [parent?, hChild] at h

/-- A node of one forest is that of another exactly if the three views agree. -/
theorem get?_eq_iff {after : Forest} : after.get? id = forest.get? id ↔
    after.label? id = forest.label? id ∧ after.children id = forest.children id ∧
      after.parent? id = forest.parent? id := by
  constructor
  · intro h
    simp only [label?, children, parent?, h, and_self]
  · rintro ⟨hLabel, hChildren, hParent⟩
    simp only [label?, children, parent?] at hLabel hChildren hParent
    cases hAfter : after.get? id with
    | none => exact (Option.map_eq_none_iff.mp (by rw [← hLabel, hAfter, Option.map_none])).symm
    | some node =>
      cases hBefore : forest.get? id with
      | none => simp [hAfter, hBefore] at hLabel
      | some former =>
        simp only [hAfter, hBefore, Option.map_some, Option.some.injEq, Option.getD_some,
          Option.bind_some] at hLabel hChildren hParent
        rw [Node.eq_iff_unlinked.mpr ⟨hLabel, hChildren, hParent⟩]

/-- Two forests are the same if their revisions and all their nodes are. -/
theorem ext_get? {after : Forest} (hRevision : after.revision = forest.revision)
    (h : ∀ id, after.get? id = forest.get? id) : after = forest := by
  refine Forest.ext (Array.ext_getElem? fun index => ?_) hRevision
  exact h ⟨index⟩

/-! ### Links that agree -/

/-- The two copies of every link agree. -/
structure Linked (forest : Forest) : Prop where
  /-- The root has no parent. -/
  root_parent : forest.parent? .root = none
  /-- A node has a parent exactly if the parent lists it. -/
  parent_iff : ∀ {child parent : NodeId},
    forest.parent? child = some parent ↔ child ∈ forest.children parent
  /-- No node lists another twice. -/
  nodup : ∀ parent : NodeId, (forest.children parent).Nodup

private theorem forM_eq_ok_iff {α : Type} {items : List α} {test : α → Except Error Unit} :
    items.forM test = .ok () ↔ ∀ item ∈ items, test item = .ok () := by
  rw [List.forM_eq_forM]
  induction items with
  | nil => simp [pure, Except.pure]
  | cons item rest ih =>
    rw [List.forM_cons, List.forall_mem_cons, ← ih]
    cases test item with
    | error _ => simp [bind, Except.bind]
    | ok _ => simp [bind, Except.bind]

/-- A child passes the check if it points back. -/
theorem checkChild_eq_ok_iff :
    forest.checkChild id child = .ok () ↔ forest.parent? child = some id := by
  unfold checkChild
  cases hNode : forest.get? child with
  | none => simp [throw, throwThe, MonadExceptOf.throw, parent?, hNode]
  | some node =>
    rw [parent?_of_get? hNode]
    by_cases h : node.parent = some id <;>
      simp [h, pure, Except.pure, throw, throwThe, MonadExceptOf.throw]

/-- A node passes the check of its parent if the parent lists it once. -/
theorem checkParent_eq_ok_iff {above : Option NodeId} :
    forest.checkParent id above = .ok () ↔
      ∀ parent, above = some parent → (forest.children parent).count id = 1 := by
  cases above with
  | none => simp [checkParent, pure, Except.pure]
  | some parent =>
    unfold checkParent
    cases hNode : forest.get? parent with
    | none => simp [throw, throwThe, MonadExceptOf.throw, children, hNode]
    | some node =>
      by_cases h : forest.count parent id = 1 <;>
        simp_all [pure, Except.pure, throw, throwThe, MonadExceptOf.throw, count]

/-- A node passes the check if its children point back and its parent lists it once. -/
theorem checkNode_eq_ok_iff : forest.checkNode id = .ok () ↔
    (∀ child ∈ forest.children id, forest.parent? child = some id) ∧
      ∀ parent, forest.parent? id = some parent → (forest.children parent).count id = 1 := by
  have hChild : ∀ child, forest.parent? child = some id ↔ forest.checkChild id child = .ok () :=
    fun _ => checkChild_eq_ok_iff.symm
  simp only [hChild]
  rw [← forM_eq_ok_iff, ← checkParent_eq_ok_iff, checkNode]
  cases (forest.children id).forM (forest.checkChild id) <;> simp [bind, Except.bind]

/-- **Checking decides agreement**, for any table whatsoever. -/
theorem check_eq_ok_iff : forest.check = .ok () ↔ forest.Linked := by
  have hCheck : forest.check = .ok () ↔ forest.parent? .root = none ∧
      ∀ id ∈ forest.ids, forest.checkNode id = .ok () := by
    unfold check
    cases forest.parent? .root with
    | none => exact forM_eq_ok_iff.trans (and_iff_right rfl).symm
    | some parent => simp [throw, throwThe, MonadExceptOf.throw]
  rw [hCheck]
  simp only [mem_ids, checkNode_eq_ok_iff]
  constructor
  · rintro ⟨hRoot, hNodes⟩
    have hListed : ∀ {child parent : NodeId}, child ∈ forest.children parent →
        forest.parent? child = some parent := fun h =>
      (hNodes _ (mem_of_mem_children h)).1 _ h
    refine ⟨hRoot, fun {child parent} => ⟨fun h => ?_, hListed⟩, fun parent => ?_⟩
    · have hCount := (hNodes child (mem_of_parent? h)).2 parent h
      exact List.count_pos_iff.mp (by omega)
    · rw [List.nodup_iff_count_le_one]
      intro child
      by_cases h : child ∈ forest.children parent
      · exact Nat.le_of_eq ((hNodes child (mem_of_parent? (hListed h))).2 parent (hListed h))
      · rw [List.count_eq_zero_of_not_mem h]
        exact Nat.zero_le 1
  · intro linked
    refine ⟨linked.root_parent, fun id _ => ⟨fun child h => linked.parent_iff.mpr h, ?_⟩⟩
    intro parent h
    exact List.count_eq_one_of_mem (linked.nodup parent) (linked.parent_iff.mp h)

namespace Linked

variable (linked : forest.Linked)

include linked

/-- No two nodes list the same child. -/
theorem eq_of_mem_children (h : child ∈ forest.children parent)
    (hOther : child ∈ forest.children other) : parent = other := by
  rw [← linked.parent_iff] at h hOther
  rw [h, Option.some_inj] at hOther
  exact hOther

/-- A node without parent is listed nowhere. -/
theorem notMem_children (h : forest.parent? child = none) : child ∉ forest.children parent := by
  rw [← linked.parent_iff, h]
  simp

/-- A node is listed by no other than its parent. -/
theorem notMem_children_of_ne (h : forest.parent? child = some parent) (hNe : parent ≠ other) :
    child ∉ forest.children other :=
  fun hListed => hNe (linked.eq_of_mem_children (linked.parent_iff.mp h) hListed)

/-- A child is not among its siblings. -/
theorem notMem_of_children {front back : List NodeId}
    (h : forest.children parent = front ++ child :: back) : child ∉ front ++ back := by
  have hNodup := linked.nodup parent
  rw [h, List.nodup_middle] at hNodup
  exact hNodup.notMem

end Linked

/-! ### Listings -/

theorem nodup_ids (forest : Forest) : forest.ids.Nodup :=
  List.nodup_range.map fun _ _ h => NodeId.mk.inj h

/-- All listings are found by asking one node after the other. -/
theorem listed_eq_flatMap (forest : Forest) :
    forest.listed = forest.ids.flatMap forest.children := by
  have hNodes : forest.nodes.toList =
      forest.ids.map fun id => (forest.get? id).getD default := by
    refine List.ext_getElem (by simp [ids, size]) fun index hNode hId => ?_
    simp only [ids, get?, List.getElem_map, List.getElem_range]
    rw [Array.getElem?_eq_getElem (by simpa using hNode)]
    rfl
  rw [listed, hNodes, List.flatMap_map]
  refine List.flatMap_congr fun id hId => ?_
  obtain ⟨node, hNode⟩ := mem_iff_exists_get?.mp (mem_ids.mp hId)
  rw [children_of_get? hNode, hNode, Option.getD_some]

/-- What is listed is listed under some node. -/
theorem mem_listed_iff : child ∈ forest.listed ↔ ∃ parent, child ∈ forest.children parent := by
  rw [listed_eq_flatMap, List.mem_flatMap]
  exact exists_congr fun parent =>
    and_iff_right_of_imp fun h => mem_ids.mpr (mem_of_mem_children h)

/-- In a linked forest a node is listed if it has a parent. -/
theorem Linked.mem_listed_iff (linked : forest.Linked) :
    id ∈ forest.listed ↔ (forest.parent? id).isSome := by
  rw [Forest.mem_listed_iff, Option.isSome_iff_exists]
  exact exists_congr fun parent => linked.parent_iff.symm

/-- Nothing is listed twice in the whole table. -/
theorem Linked.nodup_listed (linked : forest.Linked) : forest.listed.Nodup := by
  rw [listed_eq_flatMap, List.nodup_flatMap]
  refine ⟨fun id _ => linked.nodup id, forest.nodup_ids.imp fun {first second} hNe => ?_⟩
  exact fun child hFirst hSecond => hNe (linked.eq_of_mem_children hFirst hSecond)

/-- If nothing is listed twice, no node lists another twice. -/
theorem nodup_children_of_nodup_listed (h : forest.listed.Nodup) (parent : NodeId) :
    (forest.children parent).Nodup := by
  rw [listed_eq_flatMap, List.nodup_flatMap] at h
  by_cases hParent : parent ∈ forest
  · exact h.1 parent (mem_ids.mpr hParent)
  · rw [children_eq_nil hParent]
    exact List.nodup_nil

/-- If nothing is listed twice, no node is listed by two others. -/
theorem eq_of_nodup_listed (h : forest.listed.Nodup) (hChild : child ∈ forest.children parent)
    (hOther : child ∈ forest.children other) : parent = other := by
  rw [listed_eq_flatMap, List.nodup_flatMap] at h
  by_contra hNe
  have hSymmetric : Std.Symm (Function.onFun List.Disjoint forest.children) :=
    ⟨fun _ _ hDisjoint _ hFirst hSecond => hDisjoint hSecond hFirst⟩
  exact h.2.forall (mem_ids.mpr (mem_of_mem_children hChild))
    (mem_ids.mpr (mem_of_mem_children hOther)) hNe hChild hOther

/-! ### Reading after writing -/

@[simp] theorem mem_modify {change : Node → Node} :
    id ∈ forest.modify other change ↔ id ∈ forest := by
  rw [mem_def, mem_def, size_modify]

@[simp] theorem mem_touch : id ∈ forest.touch ↔ id ∈ forest := Iff.rfl

/-- Unlinking writes to the children of the parent and to the parent of the child. -/
theorem get?_unlink (forest : Forest) (parent : NodeId) (position : Nat) (child id : NodeId) :
    (forest.unlink parent position child).get? id = (forest.get? id).map fun node =>
      { node with
        children := if parent = id then node.children.eraseIdx position else node.children
        parent := if child = id then none else node.parent } := by
  rw [unlink, get?_touch, get?_modify, get?_modify]
  split <;> split <;> simp [Function.comp_def]

/-- Linking writes to the children of the parent and to the parent of the child. -/
theorem get?_link (forest : Forest) (parent : NodeId) (position : Nat) (child id : NodeId) :
    (forest.link parent position child).get? id = (forest.get? id).map fun node =>
      { node with
        children := if parent = id then node.children.insertIdx position child else node.children
        parent := if child = id then some parent else node.parent } := by
  rw [link, get?_touch, get?_modify, get?_modify]
  split <;> split <;> simp [Function.comp_def]

section Views

variable {position : Nat}

@[simp] theorem mem_unlink : id ∈ forest.unlink parent position child ↔ id ∈ forest := by
  simp [unlink]

@[simp] theorem mem_link : id ∈ forest.link parent position child ↔ id ∈ forest := by
  simp [link]

@[simp] theorem revision_unlink :
    (forest.unlink parent position child).revision = forest.revision + 1 := rfl

@[simp] theorem revision_link :
    (forest.link parent position child).revision = forest.revision + 1 := rfl

/-- Unlinking leaves all labels as they are. -/
@[simp] theorem label?_unlink :
    (forest.unlink parent position child).label? id = forest.label? id := by
  rw [label?, get?_unlink, label?, Option.map_map]
  rfl

/-- Linking leaves all labels as they are. -/
@[simp] theorem label?_link :
    (forest.link parent position child).label? id = forest.label? id := by
  rw [label?, get?_link, label?, Option.map_map]
  rfl

/-- After unlinking the parent no longer lists what stood at the position. -/
theorem children_unlink : (forest.unlink parent position child).children id =
    if parent = id then (forest.children id).eraseIdx position else forest.children id := by
  rw [children, get?_unlink, children]
  cases forest.get? id <;> simp

/-- After unlinking the child has no parent. -/
theorem parent?_unlink : (forest.unlink parent position child).parent? id =
    if child = id then none else forest.parent? id := by
  rw [parent?, get?_unlink, parent?]
  cases forest.get? id <;> simp

/-- After linking the parent lists the child at the position. -/
theorem children_link (hParent : parent ∈ forest) :
    (forest.link parent position child).children id =
      if parent = id then (forest.children id).insertIdx position child
      else forest.children id := by
  rw [children, get?_link, children]
  cases hNode : forest.get? id with
  | none =>
    rw [get?_eq_none_iff_notMem] at hNode
    rw [if_neg fun h : parent = id => hNode (h ▸ hParent)]
    simp
  | some node => simp

/-- After linking the child has the parent. -/
theorem parent?_link (hChild : child ∈ forest) :
    (forest.link parent position child).parent? id =
      if child = id then some parent else forest.parent? id := by
  rw [parent?, get?_link, parent?]
  cases hNode : forest.get? id with
  | none =>
    rw [get?_eq_none_iff_notMem] at hNode
    rw [if_neg fun h : child = id => hNode (h ▸ hChild)]
    simp
  | some node => simp

end Views

/-- A forest to which a node has been added has one identifier more. -/
theorem mem_add {node : Node} : id ∈ (forest.add node).2 ↔ id ∈ forest ∨ id = ⟨forest.size⟩ := by
  rw [mem_def, mem_def, size_add, NodeId.ext_iff]
  exact Nat.lt_succ_iff_lt_or_eq

/-- The identifier of a node that is added is new. -/
theorem notMem_add_fst (forest : Forest) (node : Node) : (forest.add node).1 ∉ forest :=
  Nat.lt_irrefl forest.size

@[simp] theorem revision_add (forest : Forest) (node : Node) :
    (forest.add node).2.revision = forest.revision := rfl

/-- A node that is added is listed nowhere and lists nothing. -/
@[simp] theorem children_add (forest : Forest) (node : Node) (id : NodeId) :
    (forest.add node).2.children id = forest.children id := by
  rw [children, get?_add, children]
  split
  next h => rw [get?_eq_none_iff.mpr (Nat.le_of_eq h.symm)]; rfl
  next => rfl

/-- To add a node gives no node a parent. -/
@[simp] theorem parent?_add (forest : Forest) (node : Node) (id : NodeId) :
    (forest.add node).2.parent? id = forest.parent? id := by
  rw [parent?, get?_add, parent?]
  split
  next h => rw [get?_eq_none_iff.mpr (Nat.le_of_eq h.symm)]; rfl
  next => rfl

theorem parent?_add_fst (forest : Forest) (node : Node) :
    (forest.add node).2.parent? (forest.add node).1 = none := by
  rw [parent?_add]
  cases hAbove : forest.parent? (forest.add node).1 with
  | none => rfl
  | some above => exact absurd (mem_of_parent? hAbove) (notMem_add_fst forest node)

/-- A node that is added has the label that it brings along. -/
theorem label?_add (forest : Forest) (node : Node) (id : NodeId) :
    (forest.add node).2.label? id =
      if id = (forest.add node).1 then some node.unlinked else forest.label? id := by
  rw [label?, get?_add, label?]
  simp only [add, NodeId.ext_iff]
  split <;> rfl

end Forest

end WikiMarkup
