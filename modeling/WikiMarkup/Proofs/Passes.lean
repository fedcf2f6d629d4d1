import WikiMarkup.Proofs.Revisions

/-!
# The passes of a run

A run that comes to its end is made of runs of the single passes (`Pass.Passes`). This tells what
has become of tags and styles. All tags with a meaning are resolved by the first pass, which comes
to every node and changes no link (`Passes.tagResolved`). Styles are resolved later, and by then the
flow has been tidied once: a style below blank text may be gone, and then stays what it is
(`Passes.styleResolved`).
-/

namespace WikiMarkup

namespace Forest

/-! ### Styles -/

/-- What is a style in the end and was below the root still is, unless there was blank text above
it. -/
structure Spares (forest after : Forest) : Prop where
  /-- The forest is preserved. -/
  preserves : forest.Preserves after
  /-- Styles stay below the root. -/
  stays : ∀ {id : NodeId}, after.Has (·.kind = .style) id → forest.Reaches .root id →
    after.Reaches .root id ∨ forest.Under Node.IsBlankText id

variable {settings : Settings} {forest middle after : Forest} {id : NodeId}

/-- What is a style has been one before. -/
theorem Preserves.has_style (preserves : forest.Preserves after)
    (h : after.Has (·.kind = .style) id) : forest.Has (·.kind = .style) id := by
  obtain ⟨label, hLabel, hKind⟩ := h
  exact ⟨label, preserves.label?_eq_of_isGeneric hLabel (by rw [hKind]; rfl), hKind⟩

theorem WellFormed.spares_self (wellFormed : forest.WellFormed) : forest.Spares forest :=
  ⟨wellFormed.preserves_self, fun _ h => .inl h⟩

/-- Two changes that spare styles do so one after the other. -/
theorem Spares.trans (linked : forest.Linked) (h : forest.Spares middle)
    (hAfter : middle.Spares after) : forest.Spares after where
  preserves := h.preserves.trans linked hAfter.preserves
  stays hStyle hReaches := by
    rcases h.stays (hAfter.preserves.has_style hStyle) hReaches with hMiddle | hBlank
    · exact (hAfter.stays hStyle hMiddle).imp_right
        (h.preserves.under_of_under Node.settled_isBlankText
          (linked.mem_of_reaches forest.root_mem hReaches))
    · exact .inr hBlank

/-- A change that takes no style off the tree but below blank text spares styles. -/
theorem Keeps.spares {Lost Grown : NodeId → Prop} {Passed : NodeId → NodeId → Prop}
    (keeps : forest.Keeps after Lost Grown Passed) (preserves : forest.Preserves after)
    (hLost : ∀ {id}, forest.Has (·.kind = .style) id → Lost id →
      forest.Under Node.IsBlankText id) : forest.Spares after where
  preserves := preserves
  stays {id} hStyle hReaches := by
    have hFormer := preserves.has_style hStyle
    by_cases hId : Lost id
    · exact .inr (hLost hFormer hId)
    · exact .inl ((keeps.root_reaches_iff hFormer.mem).mpr ⟨hReaches, hId⟩)

/-- Visits spare styles if each of them does. -/
theorem spares_of_visits {visit : NodeId → Pass Unit} {draft last : Draft}
    (hVisit : ∀ {draft last : Draft} {id : NodeId}, draft.forest.WellFormed →
      (visit id).run draft = .ok () last → draft.forest.Spares last.forest)
    (wellFormed : draft.forest.WellFormed) (hVisits : Visits visit draft last) :
    draft.forest.Spares last.forest := by
  induction hVisits with
  | refl => exact wellFormed.spares_self
  | tail _ hRun ih =>
    obtain ⟨id, hRun⟩ := hRun
    exact ih.trans wellFormed.linked (hVisit ih.preserves.wellFormed hRun)

end Forest

namespace Pass

variable {settings : Settings} {draft last : Draft} {id : NodeId}

/-- Resolving tags changes no links. -/
theorem sameLinks_of_visits (hVisits : Visits resolveTag draft last) :
    draft.forest.SameLinks last.forest := by
  induction hVisits with
  | refl => exact .refl draft.forest
  | @tail before last _ hVisit ih =>
    obtain ⟨id, hRun⟩ := hVisit
    rcases resolveTag_cases before id with
      ⟨_, hCase⟩ | ⟨found, resolved, hFound, hKind, hResolved, hCase⟩
    · rw [hCase] at hRun
      cases hRun
      exact ih
    · rw [hCase] at hRun
      cases hRun
      exact ih.trans (relabelled_of_resolvedTag? hFound hKind hResolved).same

/-! From there to where styles have been resolved, no visit takes a style off the tree but below
blank text. -/

section

variable (wellFormed : draft.forest.WellFormed)

include wellFormed

/-- Dissolving a group takes the group off and nothing else. -/
theorem spares_of_flattenGroup (hRun : (edit (Edit.flattenGroup id)).run draft = .ok () last) :
    draft.forest.Spares last.forest := by
  have preserves := Visit.preserves_of_perform {} (.flattenGroup id) wellFormed hRun
  rcases Edit.flattenGroup_cases wellFormed id with
    ⟨hCase, -⟩ | ⟨parent, after, hKind, hParent, hCase, dissolved⟩
  · rw [edit_run hCase] at hRun
    cases hRun
    exact wellFormed.spares_self
  · rw [edit_run hCase] at hRun
    cases hRun
    refine (dissolved.keeps wellFormed hParent).spares preserves fun hStyle hLost => ?_
    rw [hLost, Forest.has_kind_iff, hKind] at hStyle
    cases hStyle

theorem spares_of_tidyText (hRun : (edit (Edit.tidyText settings id)).run draft = .ok () last) :
    draft.forest.Spares last.forest := by
  have preserves := Visit.preserves_of_perform settings (.tidyText id) wellFormed hRun
  by_cases hTidy : draft.forest.Tidy settings id
  · rw [edit_run (Edit.tidyText_unchanged hTidy)] at hRun
    cases hRun
    exact wellFormed.spares_self
  · obtain ⟨found, hFound, hText, hParent, -, h⟩ := Edit.tidyText_cases wellFormed hTidy
    have hLabel := Forest.label?_of_get? hFound
    rcases h with ⟨⟨hBlank, -⟩, hCase⟩ | ⟨folded, -, -, -, hCase⟩
    · rw [edit_run hCase] at hRun
      cases hRun
      refine (wellFormed.keeps_cut hParent).spares preserves fun hStyle hLost => ?_
      refine ⟨id, ?_, hLost, _, hLabel, hText, hBlank⟩
      rintro rfl
      rw [Forest.has_iff_of_label? hLabel] at hStyle
      exact nomatch hText.symm.trans hStyle
    · rw [edit_run hCase] at hRun
      cases hRun
      have same : draft.forest.SameLinks
          (draft.forest.modify id fun node => { node with caption := folded }) :=
        Forest.sameLinks_modify fun _ _ => ⟨rfl, rfl⟩
      exact (same.keeps wellFormed).spares preserves fun _ => False.elim

theorem spares_of_resolveStyle (hRun : (resolveStyle id).run draft = .ok () last) :
    draft.forest.Spares last.forest := by
  have preserves := Visit.preserves_of_perform {} (.resolveStyle id) wellFormed hRun
  rcases resolveStyle_cases draft id with
    ⟨_, hCase⟩ | ⟨found, mark, hFound, hKind, hMark, hCase⟩
  · rw [hCase] at hRun
    cases hRun
    exact wellFormed.spares_self
  · obtain ⟨after, hApply, marked⟩ := Edit.applyMark_run wellFormed hFound hKind hMark
    rw [hCase after hApply] at hRun
    cases hRun
    exact (marked.keeps wellFormed ⟨_, Forest.label?_of_get? hFound, hKind⟩).spares preserves
      fun _ => False.elim

end

/-! ### A whole run -/

/-- The passes that a run is made of after linking, each with what it comes to. -/
structure Passes (settings : Settings) (linked tagged : Draft) (flat tidied : Forest)
    (styled : Draft) (lifted dropped : Forest) (rounds : Nat) (last : Draft) : Prop where
  /-- Tags are resolved. -/
  tags : resolveTags.run linked = .ok () tagged
  /-- Groups are flattened. -/
  groups : Edit.flattenGroups.run tagged.forest = .ok () flat
  /-- Text is tidied. -/
  texts : (Edit.tidyTexts settings).run flat = .ok () tidied
  /-- Styles are resolved. -/
  styles : resolveStyles.run ⟨tidied, tagged.warnings⟩ = .ok () styled
  /-- Lists are lifted. -/
  lists : Edit.liftLists.run styled.forest = .ok () lifted
  /-- Forced line breaks are dropped. -/
  breaks : (Edit.dropBreaks settings).run lifted = .ok () dropped
  /-- The flow settles. -/
  flow : (Edit.settle settings).run dropped = .ok rounds last.forest

/-- A run of normalization is a run of one pass after another. -/
theorem exists_passes {forest linked : Forest} {warnings : List Warning} {rounds : Nat}
    (hLink : Edit.linkUpwards.run forest = .ok () linked)
    (hRun : (normalize settings).run ⟨forest, warnings⟩ = .ok rounds last) :
    ∃ tagged flat tidied styled lifted dropped,
      Passes settings ⟨linked, warnings⟩ tagged flat tidied styled lifted dropped rounds last := by
  obtain ⟨_, _, hRead, hRun⟩ := run_bind_eq_ok_iff.mp hRun
  rw [edit_run hLink] at hRead
  cases hRead
  obtain ⟨_, tagged, hTags, hRun⟩ := run_bind_eq_ok_iff.mp hRun
  obtain ⟨_, _, hGroups, hRun⟩ := run_bind_eq_ok_iff.mp hRun
  obtain ⟨flat, hFlat, rfl⟩ := exists_run_of_edit hGroups
  obtain ⟨_, _, hTexts, hRun⟩ := run_bind_eq_ok_iff.mp hRun
  obtain ⟨tidied, hTidied, rfl⟩ := exists_run_of_edit hTexts
  obtain ⟨_, styled, hStyles, hRun⟩ := run_bind_eq_ok_iff.mp hRun
  obtain ⟨_, _, hLists, hRun⟩ := run_bind_eq_ok_iff.mp hRun
  obtain ⟨lifted, hLifted, rfl⟩ := exists_run_of_edit hLists
  obtain ⟨_, _, hBreaks, hRun⟩ := run_bind_eq_ok_iff.mp hRun
  obtain ⟨dropped, hDropped, rfl⟩ := exists_run_of_edit hBreaks
  obtain ⟨after, hSettled, rfl⟩ := exists_run_of_edit hRun
  exact ⟨tagged, flat, tidied, styled, lifted, dropped, hTags, hFlat, hTidied, hStyles, hLifted,
    hDropped, hSettled⟩

namespace Passes

variable {linked tagged styled : Draft} {start flat tidied lifted dropped : Forest} {rounds : Nat}
  (passes : Passes settings linked tagged flat tidied styled lifted dropped rounds last)

include passes

section

variable (hStart : start.Linked)

include hStart

/-! What has been revised up to one pass is revised up to a later one. -/

theorem revised_tagged (revised : start.Revised settings linked.forest) :
    start.Revised settings tagged.forest :=
  revised.visits hStart .resolveTag (fun _ => rfl) (fun _ => nofun) (visits_of_walk passes.tags)

theorem revised_tidied (revised : start.Revised settings tagged.forest) :
    start.Revised settings tidied := by
  have hFlat : start.Revised settings flat :=
    revised.visits hStart .flattenGroup (fun _ => rfl) (fun _ => nofun)
      (visits_edit (visits_of_flattenGroups passes.groups) tagged.warnings)
  exact hFlat.tidyTexts hStart passes.texts

theorem revised_styled (revised : start.Revised settings tidied) :
    start.Revised settings styled.forest := by
  refine Forest.Revised.visits hStart ?_ .resolveStyle (fun _ => rfl) (fun _ => nofun)
    (visits_of_walk passes.styles)
  exact revised

theorem revised_last (revised : start.Revised settings styled.forest) :
    start.Revised settings last.forest := by
  have hLifted := revised.walk hStart .liftList (fun _ => rfl) (fun _ => nofun) passes.lists
  have hDropped := hLifted.walk hStart .dropBreak (fun _ => rfl) (fun _ => nofun) passes.breaks
  exact hDropped.settle hStart passes.flow

end

/-- From tags to styles no style is taken off the tree but below blank text. -/
theorem spares (wellFormed : tagged.forest.WellFormed) :
    tagged.forest.Spares styled.forest := by
  have hFlat := Forest.spares_of_visits spares_of_flattenGroup wellFormed
    (visits_edit (visits_of_flattenGroups passes.groups) tagged.warnings)
  have hTidied := Forest.spares_of_visits (@spares_of_tidyText settings)
    hFlat.preserves.wellFormed (visits_edit (visits_of_walk passes.texts) tagged.warnings)
  have hStyled := Forest.spares_of_visits spares_of_resolveStyle hTidied.preserves.wellFormed
    (visits_of_walk passes.styles)
  exact (hFlat.trans wellFormed.linked hTidied).trans wellFormed.linked hStyled

variable {id : NodeId} {label : Node} (wellFormed : linked.forest.WellFormed)

include wellFormed

/-- **A run revises.** -/
theorem revised : linked.forest.Revised settings last.forest := by
  have hTagged := passes.revised_tagged wellFormed.linked wellFormed.revised_self
  have hTidied := passes.revised_tidied wellFormed.linked hTagged
  exact passes.revised_last wellFormed.linked (passes.revised_styled wellFormed.linked hTidied)

variable (hReaches : linked.forest.Reaches .root id)
  (hLabel : last.forest.label? id = some label)

include hReaches hLabel

/-- **Tags.** What still is a tag has a name without meaning, wherever it is in the end. -/
theorem tagResolved : label.TagResolved := by
  intro hTag
  have same := sameLinks_of_visits (visits_of_walk passes.tags)
  have hTagged := same.wellFormed wellFormed
  obtain ⟨_, hEnds, -, -, hResolved⟩ := resolveTags_run linked wellFormed
  rw [passes.tags] at hEnds
  cases hEnds
  have hTidied := passes.revised_tidied hTagged.linked hTagged.revised_self
  have hLast := passes.revised_last hTagged.linked (passes.revised_styled hTagged.linked hTidied)
  have hFormer := hLast.preserves.label?_eq_of_isGeneric hLabel (by rw [hTag]; rfl)
  exact hResolved id (same.reaches_iff.mpr hReaches) label hFormer hTag

/-- **Styles.** What still is a style has a token without meaning, unless it has been taken off the
tree below blank text. -/
theorem styleResolved : label.StyleResolved ∨
    (¬ last.forest.Reaches .root id ∧ linked.forest.Under Node.IsBlankText id) := by
  rw [or_iff_not_imp_left]
  intro hStyle
  obtain ⟨hKind, -⟩ := Classical.not_imp.mp hStyle
  have same := sameLinks_of_visits (visits_of_walk passes.tags)
  have hTagged := passes.revised_tagged wellFormed.linked wellFormed.revised_self
  have hTaggedWellFormed := hTagged.preserves.wellFormed
  have spares := passes.spares hTaggedWellFormed
  have hTidied := passes.revised_tidied hTaggedWellFormed.linked hTaggedWellFormed.revised_self
  obtain ⟨_, hEnds, hStyledWellFormed, -, hResolved⟩ :=
    resolveStyles_run ⟨tidied, tagged.warnings⟩ hTidied.preserves.wellFormed
  rw [passes.styles] at hEnds
  cases hEnds
  have hLast := passes.revised_last hStyledWellFormed.linked hStyledWellFormed.revised_self
  have hFormer := hLast.preserves.label?_eq_of_isGeneric hLabel (by rw [hKind]; rfl)
  -- where styles are resolved the node is not below the root, so it has been taken off before
  have hGone := mt (fun hStyled => hResolved id hStyled label hFormer) hStyle
  have hUnder := (spares.stays ⟨label, hFormer, hKind⟩ (same.reaches_iff.mpr hReaches)).resolve_left
    hGone
  refine ⟨fun hLeft =>
    hGone (hLast.preserves.root_reaches (Forest.mem_of_label? hFormer) hLeft), ?_⟩
  exact hTagged.preserves.under_of_under Node.settled_isBlankText
    (wellFormed.linked.mem_of_reaches (Forest.root_mem _) hReaches) hUnder

end Passes

end Pass

end WikiMarkup
