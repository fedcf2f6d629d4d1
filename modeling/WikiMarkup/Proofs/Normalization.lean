import WikiMarkup.Normalization
import WikiMarkup.Proofs.Flow.Cleanup
import WikiMarkup.Proofs.Forest.Linking
import WikiMarkup.Proofs.Generic.Style
import WikiMarkup.Proofs.Generic.Tag
import WikiMarkup.Proofs.Visits

/-!
# What normalization does

**Normal form.** `normalize_normalForm`: whatever a parser hands over, normalization comes to its
end, and the document is then in `NormalForm`: generic nodes that could be resolved have been
resolved, and nothing is left in the flow that is there only because of the way a page is written
down.

**Idempotence.** `normalize_idempotent`: to normalize again, as a whole or by one of the passes,
leaves such a document exactly as it is.

Both follow from what holds at the end of a run (`Forest.Normalized`). Each pass establishes its
part, and all later passes narrow, so no part is lost. How a run gets there is kept too
(`Pass.Course`): by visits, one after the other, and with which warnings.
-/

namespace WikiMarkup

namespace Forest

variable {forest : Forest} {settings : Settings} {id : NodeId}

/-- What a run of normalization has established when it ends. -/
structure Normalized (settings : Settings) (forest : Forest) : Prop where
  /-- The forest is well-formed. -/
  wellFormed : forest.WellFormed
  /-- No tag is left to resolve. -/
  tags : forest.TagsResolved
  /-- No group is left to flatten. -/
  groups : forest.GroupsFlat
  /-- No style is left to resolve. -/
  styles : forest.StylesResolved
  /-- Nothing is left to clean up. -/
  clean : forest.Clean settings

/-- The normal form of a document. All of it is about the nodes below the root, which is one of
them. -/
structure NormalForm (settings : Settings) (forest : Forest) : Prop where
  /-- No node but the root is a group. -/
  group : ∀ id ∈ forest.reachable, id ≠ .root → forest.kind? id ≠ some .group
  /-- No tag has a name that means anything. -/
  tag : ∀ id ∈ forest.reachable, forest.kind? id = some .tag →
    levelOfHeading? (forest.caption id) = none ∧ Kind.ofTagName? (forest.caption id) = none
  /-- No style has a token that means anything. -/
  style : ∀ id ∈ forest.reachable, forest.kind? id = some .style →
    forest.caption id ∉ ["''", "'''", "'''''", ";"] ∧
      (forest.caption id).toList.head? ≠ some ':' ∧
      Kind.ofStyleToken? (forest.caption id) = none
  /-- No blank text touches a block, unless it is preformatted. -/
  blank : ∀ id ∈ forest.reachable, id ≠ .root → forest.kind? id = some .text →
    isBlank (forest.caption id) → ¬ forest.hasAncestorOfKind id .preFormatted →
      ¬ forest.touchesBlock settings id
  /-- No paragraph but the root holds a list and nothing else. -/
  list : ∀ paragraph ∈ forest.reachable, paragraph ≠ .root →
    forest.kind? paragraph = some .paragraph →
      ∀ id, forest.children paragraph = [id] → forest.kind? id ≠ some .itemList
  /-- No forced line break touches a block. -/
  break_ : ∀ id ∈ forest.reachable, id ≠ .root → forest.kind? id = some .breakingReturn →
    ¬ forest.touchesBlock settings id
  /-- No line breaks in text, if folding is asked for, unless the text is preformatted. -/
  folded : settings.foldLines → ∀ id ∈ forest.reachable, id ≠ .root →
    forest.kind? id = some .text → ¬ forest.hasAncestorOfKind id .preFormatted →
      ∀ c ∈ (forest.caption id).toList, c ≠ '\n' ∧ c ≠ '\t' ∧ c ≠ '\r'

namespace Normalized

variable (normalized : forest.Normalized settings)

include normalized

theorem reaches_of_mem (h : id ∈ forest.reachable) : forest.Reaches .root id :=
  normalized.wellFormed.mem_reachable_iff.mp h

theorem isSome_parent? (h : id ∈ forest.reachable) (hRoot : id ≠ .root) :
    (forest.parent? id).isSome := by
  rw [Option.isSome_iff_ne_none]
  exact fun hParent => hRoot
    (normalized.wellFormed.linked.eq_root_of_reaches (normalized.reaches_of_mem h) hParent)

theorem tidy (h : id ∈ forest.reachable) (hRoot : id ≠ .root)
    (hText : forest.kind? id = some .text)
    (hPlain : ¬ forest.hasAncestorOfKind id .preFormatted) :
    ¬ (isBlank (forest.caption id) ∧ forest.touchesBlock settings id) ∧
      (settings.foldLines → foldLines? (forest.caption id) = none) := by
  obtain ⟨label, hLabel, hKind, hCaption⟩ := exists_label?_of_kind? hText
  rw [← hCaption]
  exact normalized.clean.tidy id (normalized.reaches_of_mem h) label hLabel hKind
    (normalized.isSome_parent? h hRoot) hPlain

/-- **What a run has established is the normal form.** -/
theorem normalForm : forest.NormalForm settings where
  group id h hRoot hKind := by
    obtain ⟨label, hLabel, hGroup, -⟩ := exists_label?_of_kind? hKind
    exact hRoot (normalized.groups id (normalized.reaches_of_mem h) label hLabel hGroup)
  tag id h hKind := by
    obtain ⟨label, hLabel, hTag, hCaption⟩ := exists_label?_of_kind? hKind
    rw [← hCaption]
    exact normalized.tags id (normalized.reaches_of_mem h) label hLabel hTag
  style id h hKind := by
    obtain ⟨label, hLabel, hStyle, hCaption⟩ := exists_label?_of_kind? hKind
    rw [← hCaption]
    exact StyleMark.of_ofToken_eq_none
      (normalized.styles id (normalized.reaches_of_mem h) label hLabel hStyle)
  blank id h hRoot hText hBlank hPlain hTouches :=
    (normalized.tidy h hRoot hText hPlain).1 ⟨hBlank, hTouches⟩
  list paragraph h hRoot hParagraph id hChildren hList := by
    have linked := normalized.wellFormed.linked
    have hReaches := normalized.reaches_of_mem h
    have hChild : id ∈ forest.children paragraph := by
      rw [hChildren]
      exact List.mem_singleton_self id
    have hParent := linked.parent_iff.mpr hChild
    have hSiblings : forest.siblings id = [] := by
      rw [siblings, siblingsAndSelf_of_parent? hParent, hChildren]
      simp
    have hLifted := normalized.clean.lifted id (hReaches.trans (Reaches.of_mem_children hChild))
    exact hRoot (linked.eq_root_of_reaches hReaches
      (hLifted hList paragraph hParent hParagraph hSiblings))
  break_ id h hRoot hKind :=
    normalized.clean.unbroken id (normalized.reaches_of_mem h) hKind
      (normalized.isSome_parent? h hRoot)
  folded hFold id h hRoot hText hPlain c hC := by
    have hLines := (normalized.tidy h hRoot hText hPlain).2 hFold
    have hBreak := foldLines?_eq_none_iff.mp hLines c hC
    simpa [isLineBreak, not_or, and_assoc] using hBreak

end Normalized

end Forest

namespace Pass

open Visit (Steps)

variable {settings : Settings}

/-- The course of a run of normalization: the forest is linked, text is tidied before styles are
resolved, and in the end the forest is normalized. -/
structure Course (settings : Settings) (forest : Forest) (warnings : List Warning)
    (linked tidied after : Forest) (rounds : Nat) : Prop where
  /-- Linking comes to its end. -/
  link : Edit.linkUpwards.run forest = .ok () linked
  /-- It gives a well-formed forest. -/
  linked_wellFormed : linked.WellFormed
  /-- The run comes to its end, and it has warned about tags and then about styles. -/
  run : (normalize settings).run ⟨forest, warnings⟩ =
    .ok rounds ⟨after, warnings ++ linked.reports Node.tagReport? .root ++
      tidied.reports Node.styleReport? .root⟩
  /-- The outcome is normalized. -/
  normalized : after.Normalized settings
  /-- The first half of the run is a sequence of visits. -/
  early : Steps settings ⟨linked, warnings⟩
    ⟨tidied, warnings ++ linked.reports Node.tagReport? .root⟩
  /-- So is the second half. -/
  late : Steps settings ⟨tidied, warnings ++ linked.reports Node.tagReport? .root⟩
    ⟨after, warnings ++ linked.reports Node.tagReport? .root ++
      tidied.reports Node.styleReport? .root⟩

/-- All that a run does to a linked forest is a sequence of visits. -/
theorem Course.steps {forest linked tidied after : Forest} {warnings : List Warning} {rounds : Nat}
    (course : Course settings forest warnings linked tidied after rounds) :
    Steps settings ⟨linked, warnings⟩
      ⟨after, warnings ++ linked.reports Node.tagReport? .root ++
        tidied.reports Node.styleReport? .root⟩ :=
  course.early.trans course.late

/-- **Normalization comes to its end** with a normalized forest if linking gives a well-formed
one. -/
theorem normalize_run_of_linkUpwards {forest linked : Forest} (settings : Settings)
    (hLink : Edit.linkUpwards.run forest = .ok () linked) (hLinked : linked.WellFormed)
    (warnings : List Warning) :
    ∃ tidied after rounds, Course settings forest warnings linked tidied after rounds := by
  obtain ⟨tagged, hTag, hTagged, -, hTags⟩ := resolveTags_run ⟨linked, warnings⟩ hLinked
  obtain ⟨flat, hFlatten, hFlat, hFlatNarrows, hGroups⟩ := Edit.flattenGroups_run hTagged
  obtain ⟨tidied, hTidy, hTidied, hTidyCleaned, -⟩ := Edit.tidyTexts_run settings hFlat
  obtain ⟨styled, hStyle, hStyled, hStyledNarrows, hStyles⟩ :=
    resolveStyles_run ⟨tidied, warnings ++ linked.reports Node.tagReport? .root⟩ hTidied
  obtain ⟨lifted, hLift, hLifted, hLiftCleaned, -⟩ := Edit.liftLists_run hStyled
  obtain ⟨dropped, hDrop, hDropped, hDropCleaned, -⟩ := Edit.dropBreaks_run settings hLifted
  obtain ⟨rounds, after, hSettle, hAfter, hSettleCleaned, clean⟩ :=
    Edit.settle_run settings hDropped
  -- what a pass has resolved is kept by all passes after it
  have hLast : styled.Narrows after :=
    hLiftCleaned.narrows.trans (hDropCleaned.narrows.trans hSettleCleaned.narrows)
  have hMiddle : flat.Narrows after :=
    hTidyCleaned.narrows.trans (hStyledNarrows.trans hLast)
  have normalized : after.Normalized settings :=
    ⟨hAfter, (hFlatNarrows.trans hMiddle).tagsResolved hTags, hMiddle.groupsFlat hGroups,
      hLast.stylesResolved hStyles, clean⟩
  refine ⟨tidied, after, rounds, hLink, hLinked, ?_, normalized, ?_, ?_⟩
  · exact (run_bind_of_ok (edit_run hLink)).trans <| (run_bind_of_ok hTag).trans <|
      (run_bind_of_ok (edit_run hFlatten)).trans <| (run_bind_of_ok (edit_run hTidy)).trans <|
      (run_bind_of_ok hStyle).trans <| (run_bind_of_ok (edit_run hLift)).trans <|
      (run_bind_of_ok (edit_run hDrop)).trans <| edit_run hSettle
  · have hVisits := visits_edit (visits_of_flattenGroups hFlatten)
    exact (Visit.steps_of_visits .resolveTag (fun _ => rfl) (visits_of_walk hTag)).trans <|
      (Visit.steps_of_visits .flattenGroup (fun _ => rfl) (hVisits _)).trans <|
      steps_of_walk .tidyText (fun _ => rfl) hTidy _
  · exact (Visit.steps_of_visits .resolveStyle (fun _ => rfl) (visits_of_walk hStyle)).trans <|
      (steps_of_walk .liftList (fun _ => rfl) hLift _).trans <|
      (steps_of_walk .dropBreak (fun _ => rfl) hDrop _).trans <|
      steps_of_settle hSettle _

/-- Whatever a parser hands over, normalization takes its course. -/
theorem exists_course (tree : ParseTree) (settings : Settings) :
    ∃ linked tidied after rounds, (Forest.ofParseTree tree).SameDownwards linked ∧
      Course settings (Forest.ofParseTree tree) [] linked tidied after rounds := by
  obtain ⟨linked, hLink, hLinked, same⟩ := Edit.linkUpwards_run tree
  obtain ⟨tidied, after, rounds, course⟩ :=
    normalize_run_of_linkUpwards settings hLink hLinked []
  exact ⟨linked, tidied, after, rounds, same, course⟩

/-- Whatever a parser hands over, normalization comes to its end with a normalized forest. -/
theorem normalize_run (tree : ParseTree) (settings : Settings) :
    ∃ rounds draft, (Forest.ofParseTree tree).normalize settings = .ok rounds draft ∧
      draft.forest.Normalized settings := by
  obtain ⟨_, _, _, rounds, -, course⟩ := exists_course tree settings
  exact ⟨rounds, _, course.run, course.normalized⟩

/-- **Normalized forests stay as they are**, and are warned about again. -/
theorem normalize_unchanged {forest : Forest} (normalized : forest.Normalized settings)
    (warnings : List Warning) :
    (normalize settings).run ⟨forest, warnings⟩ =
      .ok 1 ⟨forest, warnings ++ forest.reports Node.tagReport? .root ++
        forest.reports Node.styleReport? .root⟩ := by
  have wellFormed := normalized.wellFormed
  have clean := normalized.clean
  have hLink := Edit.linkUpwards_unchanged wellFormed
  have hTag := resolveTags_unchanged wellFormed normalized.tags warnings
  have hFlatten := Edit.flattenGroups_unchanged wellFormed normalized.groups
  have hTidy := Edit.tidyTexts_unchanged wellFormed clean
  have hStyle := resolveStyles_unchanged wellFormed normalized.styles
    (warnings ++ forest.reports Node.tagReport? .root)
  have hLift := Edit.liftLists_unchanged wellFormed clean
  have hDrop := Edit.dropBreaks_unchanged wellFormed clean
  have hSettle := Edit.settle_unchanged wellFormed clean
  exact (run_bind_of_ok (edit_run hLink)).trans <| (run_bind_of_ok hTag).trans <|
    (run_bind_of_ok (edit_run hFlatten)).trans <| (run_bind_of_ok (edit_run hTidy)).trans <|
    (run_bind_of_ok hStyle).trans <| (run_bind_of_ok (edit_run hLift)).trans <|
    (run_bind_of_ok (edit_run hDrop)).trans <| edit_run hSettle

end Pass

namespace Forest

/-- **Normal form.** Whatever a parser hands over, normalization comes to its end, and then the
document is in normal form. -/
theorem normalize_normalForm (tree : ParseTree) (settings : Settings) :
    ∃ rounds draft, (ofParseTree tree).normalize settings = .ok rounds draft ∧
      draft.forest.NormalForm settings := by
  obtain ⟨rounds, draft, hRun, normalized⟩ := Pass.normalize_run tree settings
  exact ⟨rounds, draft, hRun, normalized.normalForm⟩

/-- **Idempotence.** Whatever a parser hands over, normalization comes to its end. Each of the seven
passes alone, and normalization as a whole, then leave the forest exactly as it is. -/
theorem normalize_idempotent (tree : ParseTree) (settings : Settings) :
    ∃ rounds draft, (ofParseTree tree).normalize settings = .ok rounds draft ∧
      Edit.linkUpwards.run draft.forest = .ok () draft.forest ∧
      (∀ warnings, ∃ after, Pass.resolveTags.run ⟨draft.forest, warnings⟩ =
        .ok () ⟨draft.forest, after⟩) ∧
      Edit.flattenGroups.run draft.forest = .ok () draft.forest ∧
      (Edit.tidyTexts settings).run draft.forest = .ok () draft.forest ∧
      (∀ warnings, ∃ after, Pass.resolveStyles.run ⟨draft.forest, warnings⟩ =
        .ok () ⟨draft.forest, after⟩) ∧
      Edit.liftLists.run draft.forest = .ok () draft.forest ∧
      (Edit.dropBreaks settings).run draft.forest = .ok () draft.forest ∧
      ∃ again after, draft.forest.normalize settings = .ok again ⟨draft.forest, after⟩ := by
  obtain ⟨rounds, draft, hRun, normalized⟩ := Pass.normalize_run tree settings
  have wellFormed := normalized.wellFormed
  have clean := normalized.clean
  exact ⟨rounds, draft, hRun, Edit.linkUpwards_unchanged wellFormed,
    fun warnings => ⟨_, Pass.resolveTags_unchanged wellFormed normalized.tags warnings⟩,
    Edit.flattenGroups_unchanged wellFormed normalized.groups,
    Edit.tidyTexts_unchanged wellFormed clean,
    fun warnings => ⟨_, Pass.resolveStyles_unchanged wellFormed normalized.styles warnings⟩,
    Edit.liftLists_unchanged wellFormed clean, Edit.dropBreaks_unchanged wellFormed clean,
    1, _, Pass.normalize_unchanged normalized []⟩

end Forest

end WikiMarkup
