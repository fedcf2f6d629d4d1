import WikiMarkup.Forest.Edit
import WikiMarkup.Proofs.Forest.Document
import WikiMarkup.Proofs.Forest.ReadingOrder

/-!
# What deriving the links upwards does

Where the links downwards make trees (`Downward`), linking points every node below the start at the
one that lists it, and leaves alone what is listed nowhere (`linkBelow_links`). For the forest of a
parse tree, in which all nodes are below the root, the result is well-formed and differs in nothing
else (`linkUpwards_run`). A well-formed forest comes out as it was (`linkUpwards_unchanged`), even
if anything has been written into links upwards below its root (`linkUpwards_run_of_disturbed`).
-/

namespace WikiMarkup

namespace Forest

variable {forest state : Forest} {id parent other child : NodeId} {rank : NodeId → Nat}

/-- The links downwards make trees: a listed node exists, it is listed by one node only, and it
ranks below that node. -/
structure Downward (forest : Forest) (rank : NodeId → Nat) : Prop where
  /-- What is listed exists. -/
  mem : ∀ {parent child : NodeId}, child ∈ forest.children parent → child ∈ forest
  /-- Nothing is listed by two nodes. -/
  unique : ∀ {parent other child : NodeId}, child ∈ forest.children parent →
    child ∈ forest.children other → parent = other
  /-- Ranks grow downwards. -/
  rank_lt : ∀ {parent child : NodeId}, child ∈ forest.children parent → rank parent < rank child
  /-- Ranks are bounded by the number of nodes. -/
  rank_le : ∀ id : NodeId, id ∈ forest → rank id ≤ forest.size

/-- A rank that goes down depends on the children alone. -/
theorem Downward.congr {after : Forest} (downward : forest.Downward rank)
    (hChildren : ∀ id, after.children id = forest.children id) (hSize : after.size = forest.size) :
    after.Downward rank := by
  have hMem : ∀ {id}, id ∈ after ↔ id ∈ forest := by
    intro id
    rw [mem_def, mem_def, hSize]
  have hListed : ∀ {parent child}, child ∈ after.children parent →
      child ∈ forest.children parent := fun {parent child} h => hChildren parent ▸ h
  refine ⟨fun h => hMem.mpr (downward.mem (hListed h)),
    fun h hOther => downward.unique (hListed h) (hListed hOther),
    fun h => downward.rank_lt (hListed h), fun id h => ?_⟩
  rw [hSize]
  exact downward.rank_le id (hMem.mp h)

/-- The links downwards of a well-formed forest make trees, ranked by height. -/
theorem WellFormed.downward (wellFormed : forest.WellFormed) : forest.Downward forest.height := by
  have linked := wellFormed.linked
  exact ⟨linked.mem_children_right, linked.eq_of_mem_children,
    fun h => wellFormed.height_lt (linked.parent_iff.mpr h), fun id _ => forest.height_le_size id⟩

/-- A state on the way: only links upwards have changed, and the changed ones are right. -/
structure Linking (forest state : Forest) : Prop where
  /-- No node comes or goes. -/
  mem_iff : ∀ {id : NodeId}, id ∈ state ↔ id ∈ forest
  /-- Nothing but links changes. -/
  label?_eq : ∀ id : NodeId, state.label? id = forest.label? id
  /-- Links downwards stay. -/
  children_eq : ∀ id : NodeId, state.children id = forest.children id
  /-- No change is counted. -/
  revision_eq : state.revision = forest.revision
  /-- A node keeps its parent or has the one that lists it. -/
  parent?_eq : ∀ id : NodeId, state.parent? id = forest.parent? id ∨
    ∃ parent, state.parent? id = some parent ∧ id ∈ forest.children parent

theorem Linking.refl (forest : Forest) : forest.Linking forest :=
  ⟨Iff.rfl, fun _ => rfl, fun _ => rfl, rfl, fun _ => .inl rfl⟩

/-- Two forests that are the same from the root down, links upwards apart. -/
structure SameDownwards (forest after : Forest) : Prop where
  /-- The nodes are the same. -/
  size_eq : after.size = forest.size
  /-- So is what is on them. -/
  label?_eq : ∀ id : NodeId, after.label? id = forest.label? id
  /-- So are the links downwards. -/
  children_eq : ∀ id : NodeId, after.children id = forest.children id

theorem SameDownwards.refl (forest : Forest) : forest.SameDownwards forest :=
  ⟨rfl, fun _ => rfl, fun _ => rfl⟩

/-- A forest in which anything may have been written into the links upwards of the root and of what
is below it. -/
structure Disturbed (forest disturbed : Forest) : Prop
    extends forest.SameDownwards disturbed where
  /-- No change is counted. -/
  revision_eq : disturbed.revision = forest.revision
  /-- What is not below the root keeps its parent. -/
  parent?_eq : ∀ id : NodeId, ¬ forest.Reaches .root id → disturbed.parent? id = forest.parent? id

/-- What is read is what is on a node, and what is read of its children. -/
theorem readAt_eq_map_label? (depth : Nat) (id : NodeId) :
    forest.readAt (depth + 1) id = (forest.label? id).map fun label =>
      .node label.kind label.caption ((forest.children id).filterMap (forest.readAt depth))
        label.headingLevel label.inlineHint := by
  rw [readAt, label?, children]
  cases forest.get? id <;> rfl

namespace SameDownwards

variable {after : Forest} (same : forest.SameDownwards after)

include same

/-- The forests have the same identifiers. -/
theorem mem_iff : id ∈ after ↔ id ∈ forest := by
  rw [mem_def, mem_def, same.size_eq]

theorem has_iff {property : Node → Prop} : after.Has property id ↔ forest.Has property id := by
  rw [Has, Has, same.label?_eq]

/-- The same is reached in both forests. -/
theorem reaches_iff : after.Reaches parent id ↔ forest.Reaches parent id :=
  reaches_congr fun id _ => same.children_eq id

theorem under_iff {property : Node → Prop} :
    after.Under property id ↔ forest.Under property id := by
  simp only [Under, same.reaches_iff, same.has_iff]

/-- The same is listed in both forests. -/
theorem selfAndDescendants_eq (id : NodeId) :
    after.selfAndDescendants id = forest.selfAndDescendants id :=
  selfAndDescendants_eq_of_children_eq same.children_eq same.size_eq id

/-- The same trees are read from both forests. -/
theorem readAt_eq (depth : Nat) : after.readAt depth = forest.readAt depth := by
  induction depth with
  | zero => rfl
  | succ depth ih =>
    funext id
    rw [readAt_eq_map_label?, readAt_eq_map_label?, ih, same.label?_eq, same.children_eq]

theorem parseTree?_eq (id : NodeId) : after.parseTree? id = forest.parseTree? id := by
  rw [parseTree?, parseTree?, same.size_eq, same.readAt_eq]

theorem descendants_eq (id : NodeId) : after.descendants id = forest.descendants id := by
  rw [descendants, descendants, same.children_eq, funext same.selfAndDescendants_eq]

theorem descendantsOfKind_eq (id : NodeId) (kind : Kind) :
    after.descendantsOfKind id kind = forest.descendantsOfKind id kind := by
  have hKind : ∀ id, after.kind? id = forest.kind? id := fun id => kind?_congr (same.label?_eq id)
  rw [descendantsOfKind, descendantsOfKind, same.descendants_eq, funext hKind]

end SameDownwards

/-- Linking leaves the links downwards as they are. -/
theorem Linking.sameDownwards (linking : forest.Linking state) : forest.SameDownwards state where
  size_eq := eq_of_forall_lt_iff fun index => @Linking.mem_iff _ _ linking ⟨index⟩
  label?_eq := linking.label?_eq
  children_eq := linking.children_eq

/-- To write a parent changes no other parent. -/
theorem parent?_modify_parent (hId : id ∈ forest) (above : Option NodeId) (other : NodeId) :
    (forest.modify id fun node => { node with parent := above }).parent? other =
      if id = other then above else forest.parent? other := by
  rw [parent?, get?_modify, parent?]
  split
  next h =>
    obtain ⟨node, hNode⟩ := mem_iff_exists_get?.mp hId
    rw [← h, hNode]
    rfl
  next => rfl

/-- To write a parent changes no children. -/
theorem children_modify_parent (above : Option NodeId) (other : NodeId) :
    (forest.modify id fun node => { node with parent := above }).children other =
      forest.children other := by
  rw [children, get?_modify, children]
  split
  · rw [Option.map_map]
    rfl
  · rfl

/-- To write a parent changes no label. -/
theorem label?_modify_parent (above : Option NodeId) (other : NodeId) :
    (forest.modify id fun node => { node with parent := above }).label? other =
      forest.label? other := by
  rw [label?, get?_modify, label?]
  split
  · rw [Option.map_map]
    rfl
  · rfl

/-- To write a parent leaves the links downwards as they are. -/
theorem SameDownwards.modify_parent {state : Forest} (same : forest.SameDownwards state)
    (id : NodeId) (above : Option NodeId) :
    forest.SameDownwards (state.modify id fun node => { node with parent := above }) where
  size_eq := (size_modify _ _ _).trans same.size_eq
  label?_eq other := (label?_modify_parent above other).trans (same.label?_eq other)
  children_eq other := (children_modify_parent above other).trans (same.children_eq other)

theorem Disturbed.refl (forest : Forest) : forest.Disturbed forest :=
  ⟨.refl forest, rfl, fun _ _ => rfl⟩

/-- Whatever is written into a link upwards of a node below the root disturbs. -/
theorem Disturbed.modify_parent {disturbed : Forest} (h : forest.Disturbed disturbed)
    (hReaches : forest.Reaches .root id) (above : Option NodeId) :
    forest.Disturbed (disturbed.modify id fun node => { node with parent := above }) where
  toSameDownwards := h.toSameDownwards.modify_parent id above
  revision_eq := h.revision_eq
  parent?_eq other hOther := by
    have hNe : id ≠ other := fun hSame => hOther (hSame ▸ hReaches)
    rw [parent?, get?_modify, if_neg hNe]
    exact h.parent?_eq other hOther

/-- To point a node at one that lists it is on the way. -/
theorem Linking.modify (linking : forest.Linking state) (hChild : child ∈ forest.children parent)
    (hMem : child ∈ forest) :
    forest.Linking (state.modify child fun node => { node with parent := some parent }) where
  mem_iff := mem_modify.trans linking.mem_iff
  label?_eq id := by
    rw [label?_modify_parent, linking.label?_eq]
  children_eq id := by
    rw [children_modify_parent, linking.children_eq]
  revision_eq := linking.revision_eq
  parent?_eq id := by
    rw [parent?_modify_parent (linking.mem_iff.mpr hMem)]
    split
    next h => exact .inr ⟨parent, rfl, h ▸ hChild⟩
    next => exact linking.parent?_eq id

end Forest

namespace Edit

open Forest (Downward Linking Reaches)

variable {forest disturbed : Forest} {rank : NodeId → Nat} {id parent child : NodeId}

/-- An edit makes some of the links upwards, and keeps those that have been made. -/
def Links (forest : Forest) (made : NodeId → NodeId → Prop) (edit : Edit Unit) : Prop :=
  ∀ state, forest.Linking state → ∃ after, edit.run state = .ok () after ∧
    forest.Linking after ∧ ∀ parent child, child ∈ forest.children parent →
      made parent child ∨ state.parent? child = some parent → after.parent? child = some parent

section

variable {made more : NodeId → NodeId → Prop} {edit next : Edit Unit}

theorem Links.mono (links : Links forest made edit)
    (h : ∀ parent child, child ∈ forest.children parent → more parent child → made parent child) :
    Links forest more edit := by
  intro state linking
  obtain ⟨after, hRun, hLinking, hAfter⟩ := links state linking
  refine ⟨after, hRun, hLinking, fun parent child hChild hMore => ?_⟩
  exact hAfter parent child hChild (hMore.imp_left (h parent child hChild))

/-- Two edits that link one after the other link what either of them links. -/
theorem Links.bind (links : Links forest made edit) (hNext : Links forest more next) :
    Links forest (fun parent child => made parent child ∨ more parent child)
      (do edit; next) := by
  intro state linking
  obtain ⟨middle, hFirst, hMiddle, hMade⟩ := links state linking
  obtain ⟨after, hLast, hAfter, hMore⟩ := hNext middle hMiddle
  refine ⟨after, (run_bind_of_ok hFirst).trans hLast, hAfter, ?_⟩
  rintro parent child hChild ((h | h) | h)
  · exact hMore parent child hChild (.inr (hMade parent child hChild (.inl h)))
  · exact hMore parent child hChild (.inl h)
  · exact hMore parent child hChild (.inr (hMade parent child hChild (.inr h)))

/-- An edit for each of several nodes links what any of them links. -/
theorem Links.forM {ids : List NodeId} {made : NodeId → NodeId → NodeId → Prop}
    {edit : NodeId → Edit Unit} (h : ∀ id ∈ ids, Links forest (made id) (edit id)) :
    Links forest (fun parent child => ∃ id ∈ ids, made id parent child) (ids.forM edit) := by
  induction ids with
  | nil =>
    intro state linking
    refine ⟨state, rfl, linking, ?_⟩
    rintro parent child - (⟨_, hNil, -⟩ | h)
    · cases hNil
    · exact h
  | cons id ids ih =>
    obtain ⟨hId, hIds⟩ := List.forall_mem_cons.mp h
    refine (hId.bind (ih hIds)).mono fun parent child _ => ?_
    rintro ⟨other, hOther, hMade⟩
    rcases List.mem_cons.mp hOther with rfl | hOther
    · exact .inl hMade
    · exact .inr ⟨other, hOther, hMade⟩

end

/-- To point a child at the node that lists it links these two. -/
theorem modifyNode_links (downward : forest.Downward rank)
    (hChild : child ∈ forest.children parent) :
    Links forest (fun above below => above = parent ∧ below = child)
      (modifyNode child fun node => { node with parent := some parent }) := by
  intro state linking
  have hMem := downward.mem hChild
  have hState := linking.mem_iff.mpr hMem
  refine ⟨_, modifyNode_run _ hState, linking.modify hChild hMem, ?_⟩
  intro above below hBelow h
  rw [Forest.parent?_modify_parent hState]
  split
  next hSame => rw [downward.unique hChild (hSame ▸ hBelow)]
  next hNe =>
    rcases h with ⟨-, h⟩ | h
    · exact absurd h.symm hNe
    · exact h

/-- **Linking below a node** comes to its end and makes all links upwards below it. -/
theorem linkBelow_links (downward : forest.Downward rank) :
    ∀ depth id, id ∈ forest → forest.size < depth + rank id →
      Links forest (fun parent _ => forest.Reaches id parent) (linkBelow depth id) := by
  intro depth
  induction depth with
  | zero =>
    intro id hId hDepth
    have hRank := downward.rank_le id hId
    omega
  | succ depth ih =>
    intro id hId hDepth state linking
    -- the link to a child, and all links below the child
    have hChildren : ∀ child ∈ forest.children id, Links forest
        (fun above below => (above = id ∧ below = child) ∨ forest.Reaches child above)
        (do modifyNode child fun node => { node with parent := some id }
            linkBelow depth child) := by
      intro child hChild
      have hRank := downward.rank_lt hChild
      exact (modifyNode_links downward hChild).bind
        (ih child (downward.mem hChild) (by omega))
    have hAll : Links forest (fun parent _ => forest.Reaches id parent)
        ((forest.children id).forM fun child => do
          modifyNode child fun node => { node with parent := some id }
          linkBelow depth child) := by
      refine (Links.forM hChildren).mono fun parent below hBelow hReaches => ?_
      rcases Forest.reaches_iff_child.mp hReaches with rfl | ⟨child, hChild, hReaches⟩
      · exact ⟨below, hBelow, .inl ⟨rfl, rfl⟩⟩
      · exact ⟨child, hChild, .inr hReaches⟩
    rw [linkBelow, EStateM.run_bind, EStateM.run_get]
    dsimp only
    rw [linking.children_eq]
    exact hAll state linking

/-- Linking upwards leaves all but the parents alone, and points every node below the root at the
one that lists it. -/
theorem linkUpwards_run_of_downward (downward : forest.Downward rank) :
    ∃ after, linkUpwards.run forest = .ok () after ∧
      (forest.modify .root fun node => { node with parent := none }).Linking after ∧
      ∀ parent child, child ∈ forest.children parent → forest.Reaches .root parent →
        after.parent? child = some parent := by
  have hSame : ∀ id, (forest.modify .root fun node => { node with parent := none }).children id =
      forest.children id := Forest.children_modify_parent none
  have hReaches : ∀ {id}, (forest.modify .root fun node => { node with parent := none }).Reaches
      .root id ↔ forest.Reaches .root id := Forest.reaches_congr fun id _ => hSame id
  obtain ⟨after, hRun, hLinking, hMade⟩ := linkBelow_links (downward.congr hSame (by simp))
    (forest.size + 1) .root (Forest.root_mem _) (by simp; omega) _ (Linking.refl _)
  refine ⟨after, ?_, hLinking, fun parent child hChild hParent => ?_⟩
  · have hSize : (forest.modify .root fun node => { node with parent := none }).size =
        forest.size := Forest.size_modify _ _ _
    rw [← hSize] at hRun
    exact (run_bind_of_ok rfl).trans hRun
  · exact hMade parent child (by rw [hSame]; exact hChild) (.inl (hReaches.mpr hParent))

/-- **Linking the forest of a parse tree** gives a well-formed forest, and changes nothing else. -/
theorem linkUpwards_run (tree : ParseTree) :
    ∃ after, linkUpwards.run (Forest.ofParseTree tree) = .ok () after ∧ after.WellFormed ∧
      (Forest.ofParseTree tree).SameDownwards after := by
  have hNodup : (Forest.ofParseTree tree).listed.Nodup := by
    have h := (Forest.listed_ofParseTree tree).nodup_iff.mpr (Forest.nodup_ids _)
    exact (List.nodup_cons.mp h).2
  -- numbers grow downwards, and nothing is numbered twice
  have downward : (Forest.ofParseTree tree).Downward NodeId.index :=
    ⟨fun h => (Forest.mem_listed_ofParseTree.mp (Forest.mem_listed_iff.mpr ⟨_, h⟩)).1,
      Forest.eq_of_nodup_listed hNodup, Forest.lt_of_mem_children_ofParseTree,
      fun _ h => Nat.le_of_lt h⟩
  obtain ⟨after, hRun, hLinking, hMade⟩ := linkUpwards_run_of_downward downward
  have hChildren : ∀ id, after.children id = (Forest.ofParseTree tree).children id := by
    intro id
    rw [hLinking.children_eq, Forest.children_modify_parent]
  have hParent : ∀ {parent child}, child ∈ (Forest.ofParseTree tree).children parent →
      after.parent? child = some parent := fun h =>
    hMade _ _ h (Forest.reaches_ofParseTree (Forest.mem_of_mem_children h))
  have hRoot : after.parent? .root = none := by
    rcases hLinking.parent?_eq .root with h | ⟨parent, -, h⟩
    · rw [h, Forest.parent?_modify_parent (Forest.root_mem _), if_pos rfl]
    · rw [Forest.children_modify_parent] at h
      have hListed := Forest.mem_listed_ofParseTree.mp (Forest.mem_listed_iff.mpr ⟨parent, h⟩)
      exact absurd rfl hListed.2
  have hIff : ∀ {child parent}, after.parent? child = some parent ↔
      child ∈ after.children parent := by
    intro child parent
    rw [hChildren]
    refine ⟨fun h => ?_, hParent⟩
    have hNe : child ≠ .root := by
      rintro rfl
      rw [hRoot] at h
      cases h
    have hMem := Forest.mem_modify.mp (hLinking.mem_iff.mp (Forest.mem_of_parent? h))
    obtain ⟨lister, hLister⟩ :=
      Forest.mem_listed_iff.mp (Forest.mem_listed_ofParseTree.mpr ⟨hMem, hNe⟩)
    rw [hParent hLister, Option.some_inj] at h
    exact h ▸ hLister
  refine ⟨after, hRun, Forest.wellFormed_iff.mpr ⟨⟨hRoot, hIff, fun parent => ?_⟩, ?_⟩, ?_⟩
  · rw [hChildren]
    exact Forest.nodup_children_of_nodup_listed hNodup parent
  · refine Subrelation.wf (fun {parent child} h => ?_) (measure NodeId.index).wf
    rw [hIff, hChildren] at h
    exact Forest.lt_of_mem_children_ofParseTree h
  · have hSize := hLinking.sameDownwards.size_eq.trans (Forest.size_modify _ _ _)
    refine ⟨hSize, fun id => ?_, hChildren⟩
    rw [hLinking.label?_eq, Forest.label?_modify_parent]

/-- **Linking restores** what has been overwritten. -/
theorem linkUpwards_run_of_disturbed (wellFormed : forest.WellFormed)
    (h : forest.Disturbed disturbed) : linkUpwards.run disturbed = .ok () forest := by
  have linked := wellFormed.linked
  have hReaches : ∀ {id}, disturbed.Reaches .root id ↔ forest.Reaches .root id :=
    h.toSameDownwards.reaches_iff
  obtain ⟨after, hRun, hLinking, hMade⟩ :=
    linkUpwards_run_of_downward (wellFormed.downward.congr h.children_eq h.size_eq)
  have hParent : ∀ id, after.parent? id = forest.parent? id := by
    intro id
    rcases hLinking.parent?_eq id with hSame | ⟨parent, hSame, hChild⟩
    · rw [Forest.parent?_modify_parent disturbed.root_mem] at hSame
      split at hSame
      next hRoot => rw [hSame, ← hRoot, linked.root_parent]
      next hRoot =>
        by_cases hReached : forest.Reaches .root id
        · -- it is below the root, so the node that lists it has been entered
          obtain h | ⟨parent, hAbove, hChild⟩ := Relation.ReflTransGen.cases_tail hReached
          · exact absurd h.symm hRoot
          · rw [linked.parent_iff.mpr hChild]
            exact hMade parent id (h.children_eq parent ▸ hChild) (hReaches.mpr hAbove)
        · rw [hSame, h.parent?_eq id hReached]
    · rw [Forest.children_modify_parent, h.children_eq] at hChild
      rw [hSame, linked.parent_iff.mpr hChild]
  have hAfter : after = forest := by
    refine Forest.ext_get? (hLinking.revision_eq.trans h.revision_eq) fun id =>
      Forest.get?_eq_iff.mpr ⟨?_, ?_, hParent id⟩
    · rw [hLinking.label?_eq, Forest.label?_modify_parent, h.label?_eq]
    · rw [hLinking.children_eq, Forest.children_modify_parent, h.children_eq]
  rw [hRun, hAfter]

/-- **Linking a well-formed forest** leaves it as it is. -/
theorem linkUpwards_unchanged (wellFormed : forest.WellFormed) :
    linkUpwards.run forest = .ok () forest :=
  linkUpwards_run_of_disturbed wellFormed (.refl forest)

end Edit

end WikiMarkup
