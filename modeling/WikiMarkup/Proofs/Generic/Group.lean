import WikiMarkup.Generic
import WikiMarkup.Proofs.Generic.Narrowing

/-!
# What flattening groups does

After the pass the root is the only group that there may be below the root (`flattenGroups_run`).
If that was so before, the pass leaves the forest as it is (`flattenGroups_unchanged`).
-/

namespace WikiMarkup

namespace Forest

/-- The root is the only group that there may be below the root. -/
def GroupsFlat (forest : Forest) : Prop :=
  ∀ id, forest.Reaches .root id →
    HasLabel (fun id label => label.kind = .group → id = .root) forest id

theorem Narrows.groupsFlat {forest after : Forest} (h : forest.Narrows after)
    (hGroups : forest.GroupsFlat) : after.GroupsFlat :=
  h.hasLabel (fun _ _ hGeneric hGroup => absurd (hGroup ▸ rfl) hGeneric) hGroups

end Forest

namespace Edit

open Forest (Resolves HasLabel)

variable {forest : Forest} {id parent : NodeId}

/-- A visit changes nothing at a node that is no group or has no parent. -/
theorem flattenGroup_unchanged
    (h : forest.kind? id = some .group → forest.parent? id = none) :
    (flattenGroup id).run forest = .ok () forest := by
  rw [flattenGroup, EStateM.run_bind, EStateM.run_get]
  dsimp only
  split
  next hKind =>
    rw [h hKind]
    rfl
  next => rfl

/-- A visit dissolves a group that has a parent. -/
theorem flattenGroup_dissolves (wellFormed : forest.WellFormed)
    (hKind : forest.kind? id = some .group) (hParent : forest.parent? id = some parent) :
    ∃ after, (flattenGroup id).run forest = .ok () after ∧
      forest.Dissolved after parent id := by
  rw [flattenGroup, EStateM.run_bind, EStateM.run_get]
  dsimp only
  rw [if_pos hKind, hParent]
  exact dissolve_run wellFormed hParent

/-- A visit leaves the forest as it is, or it dissolves a group. -/
theorem flattenGroup_cases (wellFormed : forest.WellFormed) (id : NodeId) :
    ((flattenGroup id).run forest = .ok () forest ∧
        (forest.kind? id = some .group → forest.parent? id = none)) ∨
      ∃ parent after, forest.kind? id = some .group ∧ forest.parent? id = some parent ∧
        (flattenGroup id).run forest = .ok () after ∧ forest.Dissolved after parent id := by
  by_cases h : forest.kind? id = some .group → forest.parent? id = none
  · exact .inl ⟨flattenGroup_unchanged h, h⟩
  · obtain ⟨hKind, hParent⟩ := Classical.not_imp.mp h
    obtain ⟨parent, hParent⟩ := Option.ne_none_iff_exists'.mp hParent
    obtain ⟨after, hRun, dissolved⟩ := flattenGroup_dissolves wellFormed hKind hParent
    exact .inr ⟨parent, after, hKind, hParent, hRun, dissolved⟩

/-- A visit resolves. -/
theorem flattenGroup_run (wellFormed : forest.WellFormed) (id : NodeId) :
    ∃ after, (flattenGroup id).run forest = .ok () after ∧
      Resolves (fun id label => label.kind = .group → id = .root) forest id after
        (forest.children id) := by
  have linked := wellFormed.linked
  rcases flattenGroup_cases wellFormed id with
    ⟨hRun, h⟩ | ⟨parent, after, hKind, hParent, hRun, dissolved⟩
  · refine ⟨forest, hRun, wellFormed.resolves_self ?_⟩
    intro hReaches label hLabel hGroup
    refine linked.eq_root_of_reaches hReaches (h ?_)
    rw [Forest.kind?_eq_map_label?, hLabel, Option.map_some, hGroup]
  · refine ⟨after, hRun, dissolved.advance wellFormed hParent, ?_, ?_, ?_⟩
    · intro label hLabel _
      rw [← dissolved.label?_eq, hLabel]
    · intro other label hOther hLabel
      exact absurd (dissolved.mem_iff.mp (Forest.mem_of_label? hLabel)) hOther
    · -- a dissolved group has no parent
      intro hReaches label _ _
      exact dissolved.wellFormed.linked.eq_root_of_reaches hReaches
        (dissolved.parent?_self wellFormed)

/-- **Flattening groups** comes to its end, makes nothing generic, and leaves no group but the
root. -/
theorem flattenGroups_run (wellFormed : forest.WellFormed) :
    ∃ after, flattenGroups.run forest = .ok () after ∧ after.WellFormed ∧
      forest.Narrows after ∧ after.GroupsFlat := by
  have hStep : Advances (fun forest => forest) flattenStep (fun state => forest.Narrows state)
      (HasLabel fun id label => label.kind = .group → id = .root) := by
    refine advances_of_resolves forest
      (fun _ _ hGeneric hGroup => absurd (hGroup ▸ rfl) hGeneric) fun before id wellFormed _ => ?_
    obtain ⟨after, hRun, resolves⟩ := flattenGroup_run wellFormed id
    exact ⟨_, after, flattenStep_run hRun, resolves⟩
  rw [flattenGroups_run_eq]
  obtain ⟨after, hRun, hNarrows, hAfter, hGroups⟩ := explore_covers hStep (.refl _) wellFormed
  exact ⟨after, hRun, hAfter, hNarrows, hGroups⟩

/-- Where the root is the only group the pass leaves the forest as it is. -/
theorem flattenGroups_unchanged (wellFormed : forest.WellFormed)
    (hGroups : forest.GroupsFlat) : flattenGroups.run forest = .ok () forest := by
  have linked := wellFormed.linked
  have hStep : ∀ before id, before = forest → forest.Reaches .root id →
      ∃ after, (flattenStep id).run before = .ok (forest.children id) after ∧ after = forest := by
    rintro _ id rfl hReaches
    refine ⟨_, flattenStep_run (flattenGroup_unchanged fun hKind => ?_), rfl⟩
    rw [Forest.kind?_eq_map_label?, Option.map_eq_some_iff] at hKind
    obtain ⟨label, hLabel, hGroup⟩ := hKind
    rw [hGroups id hReaches label hLabel hGroup]
    exact linked.root_parent
  obtain ⟨after, hRun, hAfter⟩ := explore_unchanged wellFormed hStep rfl
  rw [flattenGroups_run_eq, hRun, hAfter]

end Edit

end WikiMarkup
