import WikiMarkup.Proofs.Forest.Preservation
import WikiMarkup.Proofs.Normalization

/-!
# What visits change

Whatever a visit does to a forest is one of a few changes (`Forest.Change`): a node is relabelled, a
mark is applied, a group is flattened, a list is lifted, or blank text or a break is cut off.

**Key results.** `Change.preserves`: each of them preserves, and so does any sequence of visits
(`Steps.preserves`). If a paragraph is gone in the end, and not for what is above it, then one visit
has lifted a list into its place (`History.exists_lifts`).
-/

namespace WikiMarkup

open Relation (ReflTransGen)

namespace Forest

variable {forest after : Forest} {id : NodeId}

/-- What a visit may do to a forest. -/
inductive Change (forest : Forest) (id : NodeId) : Forest → Prop
  /-- It may do nothing. -/
  | unchanged : Change forest id forest
  /-- It may relabel a node other than preformatted text. -/
  | relabelled {after : Forest} (h : forest.Relabelled after id)
      (hPlain : forest.Has (·.kind = .text) id → ¬ forest.Under (·.kind = .preFormatted) id) :
      Change forest id after
  /-- It may apply the mark of a style. -/
  | marked {after : Forest} (hStyle : forest.Has (·.kind = .style) id)
      (h : forest.Marked id after) : Change forest id after
  /-- It may flatten a group below another node. -/
  | flattened {after : Forest} {parent : NodeId} (hGroup : forest.Has (·.kind = .group) id)
      (hParent : forest.parent? id = some parent) (dissolved : forest.Dissolved after parent id) :
      Change forest id after
  /-- It may lift a list. -/
  | lifted {after : Forest} {paragraph parent : NodeId}
      (lifts : forest.Lifts after id paragraph parent) : Change forest id after
  /-- It may cut off a break, or blank text that is not preformatted. -/
  | detached (hParent : (forest.parent? id).isSome)
      (h : forest.Has Node.IsBreak id ∨
        (forest.Has Node.IsBlankText id ∧ ¬ forest.Under (·.kind = .preFormatted) id)) :
      Change forest id (forest.cut id)

theorem Has.unique {kind other : Kind} (h : forest.Has (·.kind = kind) id)
    (hOther : forest.Has (·.kind = other) id) : kind = other := by
  obtain ⟨label, hLabel, rfl⟩ := h
  exact (has_iff_of_label? hLabel).mp hOther

variable (wellFormed : forest.WellFormed)

include wellFormed

/-- To apply a mark loses nothing. -/
theorem Marked.keeps (h : forest.Marked id after) (hStyle : forest.Has (·.kind = .style) id) :
    forest.Keeps after (fun _ => False) (after.Has (·.kind = .definitionList)) forest.Jumps := by
  have linked := wellFormed.linked
  cases h with
  | relabelled h =>
    exact (h.same.keeps wellFormed).mono (fun _ => False.elim) fun _ _ => False.elim
  | wrapped h wrapped hKind =>
    have keeps := wrapped.keeps (h.same.linked linked) (h.same.mem_iff.mpr hStyle.mem)
    exact (h.same.keeps_of_keeps keeps).mono (fun _ => False.elim) fun _ _ => False.elim
  | @filed relabelled list h hList hMark =>
    obtain ⟨parent, front, middle, back, hChildren, ⟨label, hLabel, hKind⟩, hBlank⟩ :=
      linked.children_of_openList? hList
    have hRelabelled := hChildren
    rw [← h.same.children_eq] at hRelabelled
    have keeps := keeps_file (h.same.wellFormed wellFormed) hRelabelled
    rw [h.same.children_eq] at keeps
    refine (h.same.keeps_of_keeps keeps).mono ?_ ?_
    · rintro _ rfl
      refine ⟨label, ?_, hKind⟩
      rw [label?_move, h.others, hLabel]
      rintro rfl
      exact nomatch hStyle.unique ⟨label, hLabel, hKind⟩
    · rintro first second ⟨passed, hPassed, hFirst, hSecond⟩
      rw [h.same.reaches_iff] at hFirst hSecond
      have hEarlier : forest.Earlier passed id :=
        earlier_of_children hChildren
          (List.mem_append_right front (List.mem_cons_of_mem list hPassed)) List.mem_cons_self
      exact ⟨passed, id, hBlank passed hPassed, hFirst, hMark, hSecond,
        hEarlier.not_reaches wellFormed hFirst⟩

omit wellFormed in
theorem Marked.relabels (h : forest.Marked id after) (hStyle : forest.Has (·.kind = .style) id) :
    forest.Relabels after := by
  have hPlain : forest.Has (·.kind = .text) id → ¬ forest.Under (·.kind = .preFormatted) id :=
    fun hText => nomatch hText.unique hStyle
  cases h with
  | relabelled h => exact h.relabels hPlain
  | wrapped h wrapped hKind =>
    exact (h.relabels hPlain).wrapped wrapped (fun _ => h.same.mem_iff.mpr) hKind
  | filed h => exact (h.relabels hPlain).congr fun _ => label?_move

/-- To dissolve a group or a paragraph preserves. -/
theorem Dissolved.preserves {parent : NodeId} (dissolved : forest.Dissolved after parent id)
    (hParent : forest.parent? id = some parent) (hHull : forest.Has Node.IsHull id) :
    forest.Preserves after := by
  have keeps : forest.Keeps after (· = id) (after.Has (·.kind = .definitionList)) forest.Jumps :=
    (dissolved.keeps wellFormed hParent).mono (fun _ => False.elim) fun _ _ => False.elim
  refine keeps.preserves wellFormed.linked (relabels_of_label?_eq dissolved.label?_eq) ?_ ?_
  · rintro above below - rfl -
    exact hHull
  · rintro other - rfl
    exact .inl ⟨wellFormed.linked.ne_root hParent, hHull⟩

/-- **Every change preserves.** -/
theorem Change.preserves (h : forest.Change id after) : forest.Preserves after := by
  have linked := wellFormed.linked
  cases h with
  | unchanged => exact wellFormed.preserves_self
  | relabelled h hPlain =>
    exact ((h.same.keeps wellFormed).mono (fun _ => False.elim) fun _ _ => False.elim).preserves
      linked (h.relabels hPlain) (fun _ _ _ => False.elim) fun _ _ => False.elim
  | marked hStyle h =>
    exact (h.keeps wellFormed hStyle).preserves linked (h.relabels hStyle)
      (fun _ _ _ => False.elim) fun _ _ => False.elim
  | flattened hGroup hParent dissolved =>
    obtain ⟨label, hLabel, hKind⟩ := hGroup
    exact dissolved.preserves wellFormed hParent ⟨label, hLabel, .inl hKind⟩
  | lifted lifts =>
    obtain ⟨label, hLabel, hKind⟩ := has_kind_iff.mpr lifts.kind_paragraph
    exact lifts.dissolved.preserves wellFormed lifts.parent?_eq ⟨label, hLabel, .inr hKind⟩
  | detached hParent h =>
    refine ((wellFormed.keeps_cut hParent).mono (fun _ => False.elim)
      fun _ _ => False.elim).preserves linked (relabels_of_label?_eq fun _ => label?_cut) ?_ ?_
    · exact fun above below hReaches hAbove hBelow => absurd (hAbove.trans hReaches) hBelow
    · exact fun other _ hReaches => .inr ⟨id, hReaches, h⟩

/-- If a change takes away a paragraph, and not for what is above it, it lifts a list into its
place. -/
theorem Change.exists_lifts (h : forest.Change id after) {paragraph : NodeId}
    (hKind : forest.Has (·.kind = .paragraph) paragraph)
    (hReaches : forest.Reaches .root paragraph) (hGone : ¬ after.Reaches .root paragraph)
    (hAbove : ¬ forest.Under Node.IsTextOrBreak paragraph) :
    ∃ list parent, forest.Lifts after list paragraph parent := by
  cases h with
  | unchanged => exact absurd hReaches hGone
  | relabelled h => exact absurd (h.same.reaches_iff.mpr hReaches) hGone
  | marked hStyle h =>
    have keeps := h.keeps wellFormed hStyle
    exact absurd ((keeps.root_reaches_iff hKind.mem).mpr ⟨hReaches, fun h => h⟩) hGone
  | flattened hGroup hParent dissolved =>
    refine absurd (((dissolved.keeps wellFormed hParent).root_reaches_iff hKind.mem).mpr
      ⟨hReaches, ?_⟩) hGone
    rintro rfl
    exact nomatch hGroup.unique hKind
  | @lifted after other parent lifts =>
    obtain rfl : paragraph = other := by
      by_contra hNe
      exact hGone (((lifts.dissolved.keeps wellFormed lifts.parent?_eq).root_reaches_iff
        hKind.mem).mpr ⟨hReaches, hNe⟩)
    exact ⟨_, _, lifts⟩
  | detached hParent h =>
    have hBelow : forest.Reaches id paragraph := by
      by_contra hNot
      exact hGone (((wellFormed.keeps_cut hParent).root_reaches_iff hKind.mem).mpr
        ⟨hReaches, hNot⟩)
    have hTextOrBreak : forest.Has Node.IsTextOrBreak id :=
      h.elim (·.imp fun _ => .inr) (·.1.imp fun _ h => .inl h.1)
    refine absurd ⟨id, ?_, hBelow, hTextOrBreak⟩ hAbove
    rintro rfl
    obtain ⟨label, hLabel, h⟩ := hTextOrBreak
    rw [has_iff_of_label? hLabel] at hKind
    rcases h with h | h | ⟨h, -⟩ <;> rw [hKind] at h <;> cases h

end Forest

namespace Visit

open Forest (Change)

variable {settings : Settings} {draft before after : Draft} {id : NodeId}

/-- A visit comes to its end and makes one of the changes. -/
def Changes (settings : Settings) (draft : Draft) (visit : Visit) : Prop :=
  ∃ id after, (perform settings visit).run draft = .ok () after ∧
    draft.forest.Change id after.forest

theorem resolveTag_changes (settings : Settings) (draft : Draft) (id : NodeId) :
    (resolveTag id).Changes settings draft := by
  refine ⟨id, ?_⟩
  rcases Pass.resolveTag_cases draft id with
    ⟨_, hRun⟩ | ⟨found, resolved, hFound, hKind, hResolved, hRun⟩
  · exact ⟨_, hRun, .unchanged⟩
  · have relabelled := Pass.relabelled_of_resolvedTag? hFound hKind hResolved
    refine ⟨_, hRun, .relabelled relabelled fun hText => ?_⟩
    exact nomatch hText.unique ⟨_, Forest.label?_of_get? hFound, hKind⟩

section

variable (settings : Settings) (wellFormed : draft.forest.WellFormed) (id : NodeId)

include wellFormed

theorem flattenGroup_changes : (flattenGroup id).Changes settings draft := by
  refine ⟨id, ?_⟩
  rcases Edit.flattenGroup_cases wellFormed id with
    ⟨hRun, -⟩ | ⟨parent, after, hKind, hParent, hRun, dissolved⟩
  · exact ⟨_, Pass.edit_run hRun, .unchanged⟩
  · exact ⟨_, Pass.edit_run hRun, .flattened (Forest.has_kind_iff.mpr hKind) hParent dissolved⟩

theorem tidyText_changes : (tidyText id).Changes settings draft := by
  refine ⟨id, ?_⟩
  by_cases hTidy : draft.forest.Tidy settings id
  · exact ⟨_, Pass.edit_run (Edit.tidyText_unchanged hTidy), .unchanged⟩
  · obtain ⟨found, hFound, hText, hParent, hPlain, h⟩ := Edit.tidyText_cases wellFormed hTidy
    rw [wellFormed.hasAncestorOfKind_iff] at hPlain
    rcases h with ⟨⟨hBlank, -⟩, hRun⟩ | ⟨folded, -, -, hFold, hRun⟩
    · exact ⟨_, Pass.edit_run hRun, .detached hParent
        (.inr ⟨⟨_, Forest.label?_of_get? hFound, hText, hBlank⟩, hPlain⟩)⟩
    · refine ⟨_, Pass.edit_run hRun, .relabelled ?_ fun _ => hPlain⟩
      refine Forest.relabelled_modify hFound ⟨rfl, rfl⟩
        (.folded hText hText (isBlank_foldLines? hFold)) ?_
      rw [hText]
      exact Bool.false_ne_true

theorem resolveStyle_changes : (resolveStyle id).Changes settings draft := by
  refine ⟨id, ?_⟩
  rcases Pass.resolveStyle_cases draft id with
    ⟨_, hRun⟩ | ⟨found, mark, hFound, hKind, hMark, hRun⟩
  · exact ⟨_, hRun, .unchanged⟩
  · obtain ⟨after, hApply, marked⟩ := Edit.applyMark_run wellFormed hFound hKind hMark
    exact ⟨_, hRun after hApply, .marked ⟨_, Forest.label?_of_get? hFound, hKind⟩ marked⟩

theorem liftList_changes : (liftList id).Changes settings draft := by
  refine ⟨id, ?_⟩
  by_cases hLifted : draft.forest.Lifted id
  · exact ⟨_, Pass.edit_run (Edit.liftList_unchanged hLifted), .unchanged⟩
  · obtain ⟨after, paragraph, parent, hRun, lifts⟩ := Edit.liftList_lifts wellFormed hLifted
    exact ⟨_, Pass.edit_run hRun, .lifted lifts⟩

theorem dropBreak_changes : (dropBreak id).Changes settings draft := by
  refine ⟨id, ?_⟩
  by_cases hUnbroken : draft.forest.Unbroken settings id
  · exact ⟨_, Pass.edit_run (Edit.dropBreak_unchanged hUnbroken), .unchanged⟩
  · obtain ⟨hRun, hKind, hParent⟩ := Edit.dropBreak_detaches wellFormed hUnbroken
    have hBreak : draft.forest.Has Node.IsBreak id :=
      (Forest.has_kind_iff.mpr hKind).imp fun _ => .inl
    exact ⟨_, Pass.edit_run hRun, .detached hParent (.inl hBreak)⟩

/-- **Every visit changes a forest** in one of these ways. -/
theorem perform_changes (visit : Visit) : visit.Changes settings draft := by
  cases visit with
  | resolveTag id => exact resolveTag_changes settings draft id
  | flattenGroup id => exact flattenGroup_changes settings wellFormed id
  | tidyText id => exact tidyText_changes settings wellFormed id
  | resolveStyle id => exact resolveStyle_changes settings wellFormed id
  | liftList id => exact liftList_changes settings wellFormed id
  | dropBreak id => exact dropBreak_changes settings wellFormed id

end

theorem Step.exists_change (h : Step settings before after)
    (wellFormed : before.forest.WellFormed) : ∃ id, before.forest.Change id after.forest := by
  obtain ⟨visit, hRun⟩ := h
  obtain ⟨id, last, hLast, change⟩ := perform_changes settings wellFormed visit
  rw [hRun] at hLast
  cases hLast
  exact ⟨id, change⟩

/-- **Every visit preserves.** -/
theorem preserves_of_perform (settings : Settings) (visit : Visit)
    (wellFormed : before.forest.WellFormed)
    (hRun : (visit.perform settings).run before = .ok () after) :
    before.forest.Preserves after.forest := by
  obtain ⟨id, change⟩ := Step.exists_change ⟨visit, hRun⟩ wellFormed
  exact change.preserves wellFormed

/-- **Any sequence of visits preserves.** -/
theorem Steps.preserves (h : Steps settings before after) (wellFormed : before.forest.WellFormed) :
    before.forest.Preserves after.forest := by
  induction h with
  | refl => exact wellFormed.preserves_self
  | tail _ hStep ih =>
    obtain ⟨visit, hRun⟩ := hStep
    exact ih.trans wellFormed.linked (preserves_of_perform settings visit ih.wellFormed hRun)

/-- **A paragraph that is gone** in the end, and not for what is above it, has been emptied on the
way by a list that took its place. -/
theorem History.exists_lifts {drafts : List Draft} (history : History settings before after drafts)
    (wellFormed : before.forest.WellFormed) {paragraph : NodeId}
    (hKind : before.forest.Has (·.kind = .paragraph) paragraph)
    (hReaches : before.forest.Reaches .root paragraph)
    (hGone : ¬ after.forest.Reaches .root paragraph)
    (hAbove : ¬ before.forest.Under Node.IsTextOrBreak paragraph) :
    ∃ earlier later list parent, [earlier, later] <:+: drafts ∧
      earlier.forest.Lifts later.forest list paragraph parent := by
  induction drafts generalizing before with
  | nil => cases history.head?_eq
  | cons first drafts ih =>
    cases history.head?_eq
    cases drafts with
    | nil =>
      cases history.getLast?_eq
      exact absurd hReaches hGone
    | cons next drafts =>
      obtain ⟨hStep, hChain⟩ := List.isChain_cons_cons.mp history.isChain
      have hRest : History settings next after (next :: drafts) :=
        ⟨hChain, rfl, by rw [← history.getLast?_eq, List.getLast?_cons_cons]⟩
      obtain ⟨id, change⟩ := hStep.exists_change wellFormed
      have preserves := change.preserves wellFormed
      -- the paragraph goes either now or later
      by_cases hNext : next.forest.Reaches .root paragraph
      · obtain ⟨earlier, later, list, parent, hInfix, lifts⟩ := ih hRest preserves.wellFormed
          ((preserves.has_iff (Node.settled_kind (by decide) (by decide))).mpr hKind) hNext
          fun h => hAbove (preserves.under_of_under Node.settled_isTextOrBreak hKind.mem h)
        exact ⟨earlier, later, list, parent, List.infix_cons hInfix, lifts⟩
      · obtain ⟨list, parent, lifts⟩ := change.exists_lifts wellFormed hKind hReaches hNext hAbove
        exact ⟨first, next, list, parent, (List.prefix_append [first, next] drafts).isInfix, lifts⟩

end Visit

end WikiMarkup
