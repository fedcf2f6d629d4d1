import WikiMarkup.Proofs.Forest.Traversal

/-!
# Up and down

The ancestors of a node are found by climbing along parents (`Forest.Climbs`), its descendants by a
search along children (`Forest.Search`). The two read different copies of the links, and neither has
a bound. In a well-formed forest both come to their end, from the nodes below the root as well as
from those that are detached.

**Key result.** `ancestors_and_descendants_agree`: what is found above a node are the nodes below
which it is found, and a listing has the descendants of each of its nodes right behind the node.
-/

namespace WikiMarkup

namespace Forest

/-- Climbing from a node comes to its end with a list of nodes, the nearest first. -/
inductive Climbs (forest : Forest) : NodeId → List NodeId → Prop
  /-- The node has no parent. -/
  | top {id : NodeId} (hParent : forest.parent? id = none) : Climbs forest id []
  /-- The parent of the node is met before what is above the parent. -/
  | up {id parent : NodeId} {above : List NodeId} (hParent : forest.parent? id = some parent)
      (h : Climbs forest parent above) : Climbs forest id (parent :: above)

variable {forest : Forest} {id above parent : NodeId} {found : List NodeId} {kind : Kind}

/-! ### Climbing -/

/-- There is only one way to climb. -/
theorem Climbs.unique (h : forest.Climbs id found) {others : List NodeId}
    (hOther : forest.Climbs id others) : others = found := by
  induction h generalizing others with
  | top hParent =>
    cases hOther with
    | top => rfl
    | up hOther => cases hParent.symm.trans hOther
  | up hParent _ ih =>
    cases hOther with
    | top hOther => cases hParent.symm.trans hOther
    | up hOther h =>
      obtain rfl := Option.some_inj.mp (hOther.symm.trans hParent)
      rw [ih h]

/-- Each node that is met is the parent of the one before. -/
theorem Climbs.isChain (h : forest.Climbs id found) :
    (id :: found).IsChain fun child parent => forest.parent? child = some parent := by
  induction h with
  | top => exact .singleton _
  | up hParent _ ih => exact .cons_cons hParent ih

namespace WellFormed

variable (wellFormed : forest.WellFormed)

include wellFormed

/-- Above a node there is its parent, and what is above the parent. -/
theorem ancestorsUp_of_parent? (h : forest.parent? id = some parent) :
    forest.ancestorsUp id = parent :: forest.ancestorsUp parent := by
  have hHeight := forest.height_le_size id
  have hLower := wellFormed.height_lt h
  rw [ancestorsUp, parentChain, h, ancestorsUp]
  exact congrArg (parent :: ·) (wellFormed.parentChain_eq_parentChain (by omega) (by omega))

/-- **Climbing comes to its end** with the ancestors. -/
theorem climbs (id : NodeId) : forest.Climbs id (forest.ancestorsUp id) := by
  induction id using wellFormed.climb.induction with
  | _ id ih =>
    cases hParent : forest.parent? id with
    | none =>
      rw [ancestorsUp, parentChain, hParent]
      exact .top hParent
    | some parent =>
      rw [wellFormed.ancestorsUp_of_parent? hParent]
      exact .up hParent (ih parent hParent)

/-- Climbing never comes back to where it was. -/
theorem nodup_ancestorsUp (id : NodeId) : (forest.ancestorsUp id).Nodup := by
  have hChain : (id :: forest.ancestorsUp id).IsChain
      (Relation.TransGen fun child parent => forest.parent? child = some parent) :=
    (wellFormed.climbs id).isChain.imp fun _ _ => .single
  refine (List.isChain_iff_pairwise.mp hChain).tail.imp fun {lower upper} h => ?_
  rintro rfl
  exact wellFormed.not_ancestor_self h

/-! ### Climbing and searching -/

/-- **A search from the children comes to its end** with the descendants. -/
theorem search_descendants (id : NodeId) :
    forest.Search (forest.children id) (forest.descendants id) := by
  rw [← List.append_nil (forest.children id), ← List.append_nil (forest.descendants id)]
  exact search_flatMap (fun child _ => wellFormed.deepens.search trivial) .done

/-- **A node is above another** exactly if the other is below it. -/
theorem mem_ancestors_iff_mem_descendants :
    above ∈ forest.ancestors id ↔ id ∈ forest.descendants above := by
  rw [ancestors, List.mem_reverse, wellFormed.mem_ancestorsUp_iff, wellFormed.ancestor_iff,
    wellFormed.mem_descendants_iff]

theorem nodup_descendants (id : NodeId) : (forest.descendants id).Nodup := by
  have hNodup := wellFormed.nodup_selfAndDescendants id
  rw [wellFormed.selfAndDescendants_eq, List.nodup_cons] at hNodup
  exact hNodup.2

/-- **What is below a node is listed in one piece** wherever the node is listed. -/
theorem selfAndDescendants_infix (h : forest.Reaches above id) :
    forest.selfAndDescendants id <:+: forest.selfAndDescendants above := by
  induction h with
  | refl => exact List.infix_refl _
  | @tail parent child _ hChild ih =>
    refine List.IsInfix.trans ?_ ih
    rw [wellFormed.selfAndDescendants_eq parent]
    exact List.infix_cons (List.infix_flatMap_of_mem hChild forest.selfAndDescendants)

theorem mem_descendantsOfKind_iff {other : Kind} (h : forest.kind? id = some other) :
    id ∈ forest.descendantsOfKind above other ↔ above ≠ id ∧ forest.Reaches above id := by
  rw [descendantsOfKind, List.mem_filter, wellFormed.mem_descendants_iff]
  exact and_iff_left (decide_eq_true h)

/-- **A node of some kind is above** exactly if the node is listed among those of its own kind below
one. -/
theorem hasAncestorOfKind_iff_mem_descendantsOfKind {other : Kind}
    (h : forest.kind? id = some other) : forest.hasAncestorOfKind id kind ↔
      ∃ above, forest.kind? above = some kind ∧ id ∈ forest.descendantsOfKind above other := by
  rw [wellFormed.hasAncestorOfKind_iff, Under]
  refine exists_congr fun above => ?_
  rw [wellFormed.mem_descendantsOfKind_iff h, has_kind_iff, ← and_assoc, and_comm]

end WellFormed

/-- Going up and going down find the same. -/
structure Navigable (forest : Forest) : Prop where
  /-- Climbing comes to its end, with the ancestors. -/
  climbs_iff : ∀ id found, forest.Climbs id found ↔ found.reverse = forest.ancestors id
  /-- A search from the children comes to its end, with the descendants. -/
  search_iff : ∀ id found,
    forest.Search (forest.children id) found ↔ found = forest.descendants id
  /-- One node is above another exactly if the other is below it. -/
  mem_ancestors_iff : ∀ above id, above ∈ forest.ancestors id ↔ id ∈ forest.descendants above
  /-- Nothing is found twice on the way up. -/
  nodup_ancestors : ∀ id, (forest.ancestors id).Nodup
  /-- Nothing is found twice on the way down. -/
  nodup_descendants : ∀ id, (forest.descendants id).Nodup
  /-- Each ancestor is the parent of the next one, and the last is the parent of the node. -/
  isChain_ancestors : ∀ id, (forest.ancestors id ++ [id]).IsChain fun parent child =>
    forest.parent? child = some parent
  /-- What is below a node that is below the root is listed in one piece, right behind the node. -/
  infix_reachable : ∀ id ∈ forest.reachable, id :: forest.descendants id <:+: forest.reachable
  /-- An ancestor of some kind is found exactly if some node of that kind has the node among its
  descendants of the kind that the node has. -/
  hasAncestorOfKind_iff : ∀ id kind other, forest.kind? id = some other →
    (forest.hasAncestorOfKind id kind ↔
      ∃ above, forest.kind? above = some kind ∧ id ∈ forest.descendantsOfKind above other)

/-- **Ancestors and descendants agree.** In a well-formed forest climbing and searching come to
their end from every node, detached ones included, and one finds what the other does. -/
theorem ancestors_and_descendants_agree (wellFormed : forest.WellFormed) : forest.Navigable where
  climbs_iff id found := by
    rw [ancestors, List.reverse_inj]
    exact ⟨(wellFormed.climbs id).unique, fun h => h ▸ wellFormed.climbs id⟩
  search_iff id found :=
    ⟨(wellFormed.search_descendants id).unique, fun h => h ▸ wellFormed.search_descendants id⟩
  mem_ancestors_iff _ _ := wellFormed.mem_ancestors_iff_mem_descendants
  nodup_ancestors id := List.nodup_reverse.mpr (wellFormed.nodup_ancestorsUp id)
  nodup_descendants := wellFormed.nodup_descendants
  isChain_ancestors id := by
    rw [ancestors, ← List.reverse_cons, List.isChain_reverse]
    exact (wellFormed.climbs id).isChain
  infix_reachable id h := by
    rw [wellFormed.mem_reachable_iff] at h
    rw [← wellFormed.selfAndDescendants_eq]
    exact wellFormed.selfAndDescendants_infix h
  hasAncestorOfKind_iff _ _ _ := wellFormed.hasAncestorOfKind_iff_mem_descendantsOfKind

/-- A page of a section and a text, and a group off the page. -/
def pageWithScrap : Forest where
  nodes := #[{ kind := .article, children := [⟨1⟩, ⟨4⟩] },
    { kind := .docSection, children := [⟨2⟩], parent := some .root },
    { kind := .paragraph, children := [⟨3⟩], parent := some ⟨1⟩ },
    { kind := .text, caption := "a", parent := some ⟨2⟩ },
    { kind := .text, caption := "b", parent := some .root },
    { kind := .group, children := [⟨6⟩] },
    { kind := .strong, children := [⟨7⟩], parent := some ⟨5⟩ },
    { kind := .text, caption := "c", parent := some ⟨6⟩ }]
  nonempty := by decide

theorem wellFormed_pageWithScrap : pageWithScrap.WellFormed := by
  have hLower : ∀ id ∈ pageWithScrap.ids, ∀ parent ∈ pageWithScrap.parent? id,
      parent.index < id.index := by decide
  refine ⟨rfl, Subrelation.wf (fun {parent child} h => ?_) (measure NodeId.index).wf⟩
  exact hLower child (mem_ids.mpr (mem_of_parent? h)) parent h

/-- Below the page and off it, climbing and searching find the same. -/
theorem ancestors_and_descendants_agree_pageWithScrap :
    pageWithScrap.WellFormed ∧ pageWithScrap.Climbs ⟨3⟩ [⟨2⟩, ⟨1⟩, ⟨0⟩] ∧
      pageWithScrap.Search [⟨6⟩] [⟨6⟩, ⟨7⟩] ∧ ⟨7⟩ ∈ pageWithScrap.descendants ⟨5⟩ ∧
      [⟨1⟩, ⟨2⟩, ⟨3⟩] <:+: pageWithScrap.reachable ∧
      pageWithScrap.hasAncestorOfKind ⟨7⟩ .group := by
  have navigable := ancestors_and_descendants_agree wellFormed_pageWithScrap
  refine ⟨wellFormed_pageWithScrap, (navigable.climbs_iff _ _).mpr (by decide),
    (navigable.search_iff ⟨5⟩ _).mpr (by decide), (navigable.mem_ancestors_iff _ _).mp (by decide),
    navigable.infix_reachable ⟨1⟩ (by decide), ?_⟩
  exact (navigable.hasAncestorOfKind_iff ⟨7⟩ .group .text rfl).mpr ⟨⟨5⟩, rfl, by decide⟩

end Forest

end WikiMarkup
