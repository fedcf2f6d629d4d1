import WikiMarkup.Proofs.Changes

/-!
# What becomes of the content

Normalization neither loses nor repeats nor reorders content (`normalize_keepsContent`). Groups and
paragraphs may go, and so may forced line breaks and blank text, with all that is below them. What
else the parser has handed over is there in the end, exactly once (`KeepsContent`). What is left is
in the order that it came in, where blank text does not count, since definition marks jump over it.
What was above something that is left is above it in the end.

A paragraph goes only if a list has taken its place: whatever visits lead to the outcome, one of
them has lifted the list.
-/

namespace WikiMarkup

namespace Forest

variable {forest linked after : Forest} {id first second : NodeId}

/-- A node is blank text or below blank text. -/
def InBlankText (forest : Forest) (id : NodeId) : Prop :=
  ∃ blank, forest.Reaches blank id ∧ forest.Has Node.IsBlankText blank

/-- What becomes of the content of a document when it is normalized. -/
structure KeepsContent (forest after : Forest) : Prop where
  /-- Nothing is there twice. -/
  nodup : after.reachable.Nodup
  /-- A node that is not below text or a break is there exactly once, unless it is a group or a
  paragraph other than the root, a break, or blank text that is not preformatted. -/
  count_eq_one : ∀ id ∈ forest, ¬ forest.Under Node.IsTextOrBreak id →
    ¬ (id ≠ .root ∧ forest.Has Node.IsHull id) → ¬ forest.Has Node.IsBreak id →
      ¬ (forest.Has Node.IsBlankText id ∧ ¬ forest.Under (·.kind = .preFormatted) id) →
        after.reachable.count id = 1
  /-- Of what is left and not in blank text all comes in the order that it came in. -/
  pair_sublist_iff : ∀ first ∈ forest, ∀ second ∈ forest, first ∈ after.reachable →
    second ∈ after.reachable → ¬ forest.InBlankText first → ¬ forest.InBlankText second →
      ([first, second].Sublist after.reachable ↔ [first, second].Sublist forest.reachable)
  /-- What was above something that is left is above it, if it is left as well. -/
  ancestor : ∀ above ∈ forest, ∀ below ∈ forest, above ∈ after.reachable →
    below ∈ after.reachable → above ≠ below → forest.Reaches above below →
      after.Ancestor above below

/-- Neither text nor a forced line break has children. -/
def TextEndsBranches (forest : Forest) : Prop :=
  ∀ id, forest.Has Node.IsTextOrBreak id → forest.children id = []

theorem textEndsBranches_iff : forest.TextEndsBranches ↔
    ∀ id ∈ forest.ids, forest.Has Node.IsTextOrBreak id → forest.children id = [] :=
  ⟨fun h id _ => h id, fun h id hText => h id (mem_ids.mpr hText.mem) hText⟩

instance : Decidable forest.TextEndsBranches := decidable_of_iff _ textEndsBranches_iff.symm

theorem SameDownwards.textEndsBranches (same : forest.SameDownwards linked)
    (h : forest.TextEndsBranches) : linked.TextEndsBranches := by
  intro id hText
  rw [same.children_eq]
  exact h id (same.has_iff.mp hText)

theorem TextEndsBranches.eq_of_reaches (h : forest.TextEndsBranches)
    (hText : forest.Has Node.IsTextOrBreak first) (hReaches : forest.Reaches first second) :
    first = second := by
  refine (reaches_iff_child.mp hReaches).resolve_right ?_
  rintro ⟨child, hChild, -⟩
  rw [h first hText] at hChild
  cases hChild

theorem TextEndsBranches.not_under (h : forest.TextEndsBranches) :
    ¬ forest.Under Node.IsTextOrBreak id := by
  rintro ⟨above, hNe, hAbove, hText⟩
  exact hNe (h.eq_of_reaches hText hAbove)

/-- Nodes that are not expendable are still below the root. -/
theorem Preserves.reaches_of_not_expendable (preserves : forest.Preserves after)
    (hReaches : forest.Reaches .root id) (hBelow : ¬ forest.Under Node.IsTextOrBreak id)
    (hHull : ¬ (id ≠ .root ∧ forest.Has Node.IsHull id)) (hBreak : ¬ forest.Has Node.IsBreak id)
    (hBlank : ¬ (forest.Has Node.IsBlankText id ∧ ¬ forest.Under (·.kind = .preFormatted) id)) :
    after.Reaches .root id := by
  by_contra hGone
  rcases preserves.expendable hReaches hGone with h | ⟨above, hAbove, h⟩
  · exact hHull h
  -- what the node is below is the node itself
  have hSame : above = id := by
    by_contra hNe
    refine hBelow ⟨above, hNe, hAbove, ?_⟩
    exact h.elim (·.imp fun _ => .inr) (·.1.imp fun _ h => .inl h.1)
  subst hSame
  exact h.elim hBreak hBlank

theorem Preserves.reaches_of_label? (preserves : forest.Preserves after)
    (hReaches : forest.Reaches .root id) (hBelow : ¬ forest.Under Node.IsTextOrBreak id)
    {label : Node} (hLabel : forest.label? id = some label) (hHull : ¬ label.IsHull)
    (hBreak : ¬ label.IsBreak)
    (hBlank : label.IsBlankText → forest.Under (·.kind = .preFormatted) id) :
    after.Reaches .root id := by
  refine preserves.reaches_of_not_expendable hReaches hBelow ?_ ?_ ?_ <;>
    rw [has_iff_of_label? hLabel]
  · exact fun h => hHull h.2
  · exact hBreak
  · exact fun h => h.2 (hBlank h.1)

/-- What is left and not in blank text comes in the order that it came in. -/
theorem Preserves.before_iff (preserves : forest.Preserves after) (wellFormed : forest.WellFormed)
    (hFirst : first ∈ forest) (hSecond : second ∈ forest)
    (hFirstReaches : after.Reaches .root first) (hSecondReaches : after.Reaches .root second)
    (hFirstBlank : ¬ forest.InBlankText first) (hSecondBlank : ¬ forest.InBlankText second) :
    after.Before first second ↔ forest.Before first second := by
  have hForward : ∀ {first second}, first ∈ forest → second ∈ forest →
      after.Reaches .root first → after.Reaches .root second → ¬ forest.InBlankText first →
        forest.Before first second → after.Before first second := by
    intro first second hFirst hSecond hFirstReaches hSecondReaches hBlank h
    refine (preserves.before hFirst hSecond hFirstReaches hSecondReaches h).resolve_right ?_
    rintro ⟨blank, -, hHas, hReaches, -⟩
    exact hBlank ⟨blank, hReaches, hHas⟩
  refine ⟨fun h => ?_, hForward hFirst hSecond hFirstReaches hSecondReaches hFirstBlank⟩
  have hNe : first ≠ second := by
    rintro rfl
    exact h.asymm preserves.wellFormed h
  refine (wellFormed.before_total (preserves.root_reaches hFirst hFirstReaches)
    (preserves.root_reaches hSecond hSecondReaches) hNe).resolve_right fun hBack => ?_
  exact h.asymm preserves.wellFormed
    (hForward hSecond hFirst hSecondReaches hFirstReaches hSecondBlank hBack)

/-- **Listings agree** on nodes that have not gone and do not jump. -/
theorem Preserves.filter_selfAndDescendants_eq {p : NodeId → Bool}
    (preserves : forest.Preserves after) (wellFormed : forest.WellFormed)
    (hId : id ∈ forest) (hReaches : after.Reaches .root id)
    (hMem : ∀ other, p other → (after.Reaches id other ↔ forest.Reaches id other))
    (hJumps : ∀ first second, p first → p second → forest.Reaches id first →
      forest.Reaches id second → forest.Before first second → ¬ forest.Jumps first second) :
    (after.selfAndDescendants id).filter p = (forest.selfAndDescendants id).filter p := by
  refine Forest.filter_selfAndDescendants_eq wellFormed preserves.wellFormed hMem ?_
  intro first second hFirst hSecond hFirstReaches hSecondReaches h
  have linked := wellFormed.linked
  exact (preserves.before (linked.mem_of_reaches hId hFirstReaches)
    (linked.mem_of_reaches hId hSecondReaches)
    (hReaches.trans ((hMem first hFirst).mpr hFirstReaches))
    (hReaches.trans ((hMem second hSecond).mpr hSecondReaches)) h).resolve_right
      (hJumps first second hFirst hSecond hFirstReaches hSecondReaches h)

/-- **What preserves keeps the content** of a document. -/
theorem Preserves.keepsContent (preserves : forest.Preserves after)
    (wellFormed : forest.WellFormed) (hAll : ∀ id ∈ forest, forest.Reaches .root id) :
    forest.KeepsContent after where
  nodup := preserves.wellFormed.nodup_selfAndDescendants .root
  count_eq_one id hId hBelow hHull hBreak hBlank := by
    refine List.count_eq_one_of_mem (preserves.wellFormed.nodup_selfAndDescendants .root) ?_
    exact preserves.wellFormed.mem_reachable_iff.mpr
      (preserves.reaches_of_not_expendable (hAll id hId) hBelow hHull hBreak hBlank)
  pair_sublist_iff first hFirst second hSecond hFirstReaches hSecondReaches hFirstBlank
      hSecondBlank := by
    rw [preserves.wellFormed.mem_reachable_iff] at hFirstReaches hSecondReaches
    rw [reachable, reachable, preserves.wellFormed.pair_sublist_iff, wellFormed.pair_sublist_iff,
      preserves.before_iff wellFormed hFirst hSecond hFirstReaches hSecondReaches hFirstBlank
        hSecondBlank]
    simp only [hFirstReaches, hSecondReaches, hAll first hFirst, hAll second hSecond]
  ancestor above hAbove below _ hAboveReaches hBelowReaches hNe h := by
    rw [preserves.wellFormed.mem_reachable_iff] at hAboveReaches hBelowReaches
    exact preserves.wellFormed.ancestor_iff.mpr
      ⟨hNe, preserves.reaches hAbove hAboveReaches hBelowReaches h⟩

/-- Links upwards do not matter to what becomes of the content. -/
theorem SameDownwards.keepsContent (same : forest.SameDownwards linked)
    (keeps : linked.KeepsContent after) : forest.KeepsContent after := by
  have hBlank : ∀ id, linked.InBlankText id ↔ forest.InBlankText id := by
    simp only [InBlankText, same.reaches_iff, same.has_iff, implies_true]
  have hCount := keeps.count_eq_one
  have hPair := keeps.pair_sublist_iff
  have hAncestor := keeps.ancestor
  simp only [same.mem_iff, same.under_iff, same.has_iff] at hCount
  simp only [same.mem_iff, hBlank, reachable, same.selfAndDescendants_eq] at hPair
  simp only [same.mem_iff, same.reaches_iff] at hAncestor
  exact ⟨keeps.nodup, hCount, hPair, hAncestor⟩

open Visit (History)

/-- **Nothing is lost, repeated or reordered.** Whatever a parser hands over, normalization comes to
its end and keeps the content. If a paragraph is gone that was not below text or a break, then on
any way from the linked forest to the outcome a list has been lifted that was its only child, and
the list has taken its place. -/
theorem normalize_keepsContent (tree : ParseTree) (settings : Settings) :
    ∃ linked rounds draft, Edit.linkUpwards.run (ofParseTree tree) = .ok () linked ∧
      (ofParseTree tree).normalize settings = .ok rounds draft ∧
      (ofParseTree tree).KeepsContent draft.forest ∧
      (∃ drafts, History settings ⟨linked, []⟩ draft drafts) ∧
      ∀ drafts, History settings ⟨linked, []⟩ draft drafts →
        ∀ paragraph, (ofParseTree tree).Has (·.kind = .paragraph) paragraph →
          ¬ (ofParseTree tree).Under Node.IsTextOrBreak paragraph →
            paragraph ∉ draft.forest.reachable →
              ∃ earlier later list parent, [earlier, later] <:+: drafts ∧
                earlier.forest.Lifts later.forest list paragraph parent := by
  obtain ⟨linked, tidied, after, rounds, same, course⟩ := Pass.exists_course tree settings
  have wellFormed := course.linked_wellFormed
  have steps := course.steps
  have preserves : linked.Preserves after := steps.preserves wellFormed
  have hAll : ∀ id ∈ linked, linked.Reaches .root id := fun id h =>
    same.reaches_iff.mpr (reaches_ofParseTree (same.mem_iff.mp h))
  refine ⟨linked, rounds, _, course.link, course.run,
    same.keepsContent (preserves.keepsContent wellFormed hAll), steps.exists_history, ?_⟩
  intro drafts history paragraph hKind hAbove hGone
  rw [preserves.wellFormed.mem_reachable_iff] at hGone
  rw [← same.has_iff] at hKind
  rw [← same.under_iff] at hAbove
  exact history.exists_lifts wellFormed hKind (hAll paragraph hKind.mem) hGone hAbove

/-- A list in a paragraph of its own. -/
def wrappedList : ParseTree :=
  .node .article "" [.node .paragraph "" [.leaf .itemList] none none] none none

/-- The list takes the place of the paragraph. -/
theorem normalize_keepsContent_wrappedList :
    ∃ (linked : Forest) (rounds : Nat) (draft : Draft) (drafts : List Draft)
      (earlier later : Draft) (list parent : NodeId),
      (ofParseTree wrappedList).normalize {} = .ok rounds draft ∧
        draft.forest.reachable = [.root, ⟨2⟩] ∧ History {} ⟨linked, []⟩ draft drafts ∧
        [earlier, later] <:+: drafts ∧ earlier.forest.Lifts later.forest list ⟨1⟩ parent := by
  obtain ⟨linked, rounds, draft, -, hRun, -, ⟨drafts, history⟩, hLifts⟩ :=
    normalize_keepsContent wrappedList {}
  have hObserved : observed (fun _ draft => draft.forest.reachable)
      ((ofParseTree wrappedList).normalize {}) = some [.root, ⟨2⟩] := by decide +kernel
  have hReachable := observe_eq hObserved hRun
  have hGone : ⟨1⟩ ∉ draft.forest.reachable := by
    rw [hReachable]
    decide
  obtain ⟨earlier, later, list, parent, hInfix, lifts⟩ := hLifts drafts history ⟨1⟩
    (by decide +kernel) (TextEndsBranches.not_under (by decide +kernel)) hGone
  exact ⟨linked, rounds, draft, drafts, earlier, later, list, parent, hRun, hReachable, history,
    hInfix, lifts⟩

end Forest

end WikiMarkup
