import WikiMarkup.Generic
import WikiMarkup.Proofs.Generic.Narrowing

/-!
# What resolving tags does

After the pass no tag below the root has a name that means anything (`resolveTags_run`). If that
was so before, the pass leaves the forest as it is (`resolveTags_unchanged`), though it warns again.
-/

namespace WikiMarkup

namespace Node

/-- A tag, if it is one, has a name without meaning. -/
def TagResolved (node : Node) : Prop :=
  node.kind = .tag →
    levelOfHeading? node.caption = none ∧ Kind.ofTagName? node.caption = none

theorem tagResolved_of_not_isGeneric {node : Node} (h : ¬ node.kind.isGeneric) :
    node.TagResolved := fun hTag => absurd (hTag ▸ rfl) h

theorem resolvedTag?_eq_none_iff {node : Node} : node.resolvedTag? = none ↔
    levelOfHeading? node.caption = none ∧ Kind.ofTagName? node.caption = none := by
  unfold resolvedTag?
  cases levelOfHeading? node.caption <;> simp

/-- The warning about a tag whose name has no meaning. -/
def tagReport? (id : NodeId) (node : Node) : Option Warning :=
  if node.kind = .tag ∧
      levelOfHeading? node.caption = none ∧ Kind.ofTagName? node.caption = none then
    some (.unknownTag id node.caption)
  else none

theorem isSome_tagReport?_iff {id : NodeId} {node : Node} : (tagReport? id node).isSome ↔
    node.kind = .tag ∧
      levelOfHeading? node.caption = none ∧ Kind.ofTagName? node.caption = none := by
  unfold tagReport?
  split <;> simp_all

end Node

namespace Forest

/-- The tags below the root have names without meaning. -/
def TagsResolved (forest : Forest) : Prop :=
  ∀ id, forest.Reaches .root id → HasLabel (fun _ => Node.TagResolved) forest id

theorem Narrows.tagsResolved {forest after : Forest} (h : forest.Narrows after)
    (hTags : forest.TagsResolved) : after.TagsResolved :=
  h.hasLabel (fun _ _ => Node.tagResolved_of_not_isGeneric) hTags

end Forest

namespace Pass

open Forest (Resolves)

variable {draft : Draft} {id : NodeId} {found : Node}

/-- A visit does no more than warn at a node that is not to be resolved. -/
theorem resolveTag_unchanged (hFound : draft.forest.get? id = some found)
    (hResolved : found.TagResolved) : (resolveTag id).run draft =
      .ok () ⟨draft.forest, draft.warnings ++ (found.tagReport? id).toList⟩ := by
  rw [resolveTag, run_bind_of_ok (node?_run hFound), Node.tagReport?]
  dsimp only
  split
  next hTag =>
    rw [Node.resolvedTag?_eq_none_iff.mpr (hResolved hTag), if_pos ⟨hTag, hResolved hTag⟩]
    rfl
  next hTag =>
    rw [if_neg fun h => hTag h.1, Option.toList_none, List.append_nil]
    rfl

/-- A visit puts in the place of a tag what it is resolved to. -/
theorem resolveTag_modifies (draft : Draft) (hFound : draft.forest.get? id = some found)
    (hTag : ¬ found.TagResolved) :
    ∃ resolved, (resolveTag id).run draft =
        .ok () ⟨draft.forest.modify id fun _ => resolved, draft.warnings⟩ ∧
      found.kind = .tag ∧ found.resolvedTag? = some resolved := by
  obtain ⟨forest, warnings⟩ := draft
  obtain ⟨hKind, hMeaning⟩ := Classical.not_imp.mp hTag
  rw [← Node.resolvedTag?_eq_none_iff] at hMeaning
  obtain ⟨resolved, hResolved⟩ := Option.ne_none_iff_exists'.mp hMeaning
  refine ⟨resolved, ?_, hKind, hResolved⟩
  rw [resolveTag, run_bind_of_ok (node?_run hFound)]
  dsimp only
  rw [if_pos hKind, hResolved]
  rfl

/-- A visit leaves the forest as it is, or it resolves a tag. -/
theorem resolveTag_cases (draft : Draft) (id : NodeId) :
    (∃ warnings, (resolveTag id).run draft = .ok () ⟨draft.forest, warnings⟩) ∨
      ∃ found resolved, draft.forest.get? id = some found ∧ found.kind = .tag ∧
        found.resolvedTag? = some resolved ∧ (resolveTag id).run draft =
          .ok () ⟨draft.forest.modify id fun _ => resolved, draft.warnings⟩ := by
  cases hFound : draft.forest.get? id with
  | none =>
    refine .inl ⟨draft.warnings, ?_⟩
    rw [resolveTag, run_bind_of_ok (node?_run hFound)]
    rfl
  | some found =>
    by_cases hTag : found.TagResolved
    · exact .inl ⟨_, resolveTag_unchanged hFound hTag⟩
    · obtain ⟨resolved, hRun, hKind, hResolved⟩ := resolveTag_modifies draft hFound hTag
      exact .inr ⟨found, resolved, rfl, hKind, hResolved, hRun⟩

/-- To put in the place of a tag what it is resolved to relabels it. -/
theorem relabelled_of_resolvedTag? {forest : Forest} {resolved : Node}
    (hFound : forest.get? id = some found) (hKind : found.kind = .tag)
    (hResolved : found.resolvedTag? = some resolved) :
    forest.Relabelled (forest.modify id fun _ => resolved) id := by
  obtain ⟨hChildren, hParent, hResolvedKind, -⟩ := Node.resolvedTag?_eq_some hResolved
  have hUnlinked : found.unlinked.resolvedTag? = some resolved.unlinked := by
    rw [Node.resolvedTag?_unlinked, hResolved, Option.map_some]
  exact Forest.relabelled_modify hFound ⟨hChildren, hParent⟩
    (Node.becomes_of_resolvedTag? hKind hUnlinked)
    (Kind.not_isGeneric_of_isResolved hResolvedKind)

theorem resolver_resolveTag : Resolver Node.TagResolved Node.tagReport? resolveTag where
  of_not_isGeneric := Node.tagResolved_of_not_isGeneric
  of_isSome_report h := by
    obtain ⟨hTag, hMeaning⟩ := Node.isSome_tagReport?_iff.mp h
    exact ⟨hTag ▸ rfl, fun _ => hMeaning⟩
  skips := resolveTag_unchanged
  resolves wellFormed hFound hTag := by
    obtain ⟨resolved, hRun, hKind, hResolved⟩ := resolveTag_modifies _ hFound hTag
    have relabelled := relabelled_of_resolvedTag? hFound hKind hResolved
    exact ⟨_, hRun,
      relabelled.resolves wellFormed fun _ => Node.tagResolved_of_not_isGeneric,
      Forest.listsSame_of_children_eq wellFormed (relabelled.same.wellFormed wellFormed)
        (Forest.mem_of_get? hFound) fun below _ => relabelled.same.children_eq below⟩

/-- **Resolving tags** comes to its end, makes nothing generic, leaves no tag to resolve, and warns
about all tags whose names have no meaning. -/
theorem resolveTags_run (draft : Draft) (wellFormed : draft.forest.WellFormed) :
    ∃ after, resolveTags.run draft =
        .ok () ⟨after, draft.warnings ++ draft.forest.reports Node.tagReport? .root⟩ ∧
      after.WellFormed ∧ draft.forest.Narrows after ∧ after.TagsResolved :=
  resolver_resolveTag.walk_run draft wellFormed

/-- Where no tag is to be resolved the pass leaves the forest as it is. -/
theorem resolveTags_unchanged {forest : Forest} (wellFormed : forest.WellFormed)
    (hTags : forest.TagsResolved) (warnings : List Warning) :
    resolveTags.run ⟨forest, warnings⟩ =
      .ok () ⟨forest, warnings ++ forest.reports Node.tagReport? .root⟩ :=
  resolver_resolveTag.walk_unchanged_run wellFormed hTags warnings

end Pass

end WikiMarkup
