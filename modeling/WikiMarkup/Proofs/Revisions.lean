import WikiMarkup.Proofs.Changes
import WikiMarkup.Proofs.Generic.Revision

/-!
# What normalization may change in a node

A whole run revises each node at most once, and the forest grows by as many nodes as styles have
been split (`Forest.Revised`). This is kept up from one visit to the next (`Revised.step`). Only
tidying text has to be followed through a whole pass: it also comes to nodes that it has detached
itself, and those are still below whatever preformatted node they were below before.
-/

namespace WikiMarkup

open Relation (ReflTransGen)

namespace Forest

variable {settings : Settings} {forest middle after : Forest} {id : NodeId}

/-! ### Counting -/

/-- A style has become the outer one of two nodes: five quotes have become strong text, or a term
has become a definition list. -/
def IsSplit (forest after : Forest) (id : NodeId) : Prop :=
  forest.kind? id = some .style ∧
    ((forest.caption id = "'''''" ∧ after.kind? id = some .strong) ∨
      (forest.caption id = ";" ∧ after.kind? id = some .definitionList))

instance : DecidablePred (IsSplit forest after) := fun _ => inferInstanceAs (Decidable (_ ∧ _))

theorem isSplit_iff {former latter : Node} (hFormer : forest.label? id = some former)
    (hLatter : after.label? id = some latter) :
    forest.IsSplit after id ↔ former.IsSplit latter := by
  simp only [IsSplit, Node.IsSplit, kind?_eq_map_label?, caption_eq_map_label?, hFormer, hLatter,
    Option.map_some, Option.some_inj, Option.getD_some]

/-- Two properties that agree on all nodes but one are had equally often, but for that node. -/
theorem countP_ids_add {first second : NodeId → Prop} [DecidablePred first]
    [DecidablePred second] (hId : id ∈ forest)
    (hOther : ∀ other ∈ forest, other ≠ id → (first other ↔ second other)) :
    forest.ids.countP second + (if first id then 1 else 0) =
      forest.ids.countP first + if second id then 1 else 0 := by
  have hPerm := List.perm_cons_erase (mem_ids.mpr hId)
  have hRest : (forest.ids.erase id).countP second = (forest.ids.erase id).countP first := by
    refine List.countP_congr fun other hOthers => ?_
    obtain ⟨hNe, hMem⟩ := forest.nodup_ids.mem_erase_iff.mp hOthers
    rw [decide_eq_true_iff, decide_eq_true_iff, hOther other (mem_ids.mp hMem) hNe]
  rw [hPerm.countP_eq, hPerm.countP_eq, List.countP_cons, List.countP_cons, hRest]
  simp only [decide_eq_true_iff]
  omega

/-! ### From one visit to the next -/

/-- What visits make of a forest: they preserve it, revise each of its nodes at most once, and add
one node for each style that is split. -/
structure Revised (settings : Settings) (forest after : Forest) : Prop where
  /-- They preserve it. -/
  preserves : forest.Preserves after
  /-- They revise its nodes. -/
  node : ∀ {id : NodeId} {former : Node}, forest.label? id = some former → ∃ latter splits,
    after.label? id = some latter ∧
      former.Revision settings (¬ forest.Under (·.kind = .preFormatted) id) latter splits
  /-- They add nodes for styles that are split. -/
  size_eq : after.size = forest.size + forest.ids.countP (forest.IsSplit after ·)

theorem WellFormed.revised_self (wellFormed : forest.WellFormed) :
    forest.Revised settings forest where
  preserves := wellFormed.preserves_self
  node hFormer := ⟨_, false, hFormer, .same⟩
  size_eq := by
    have hNone : forest.ids.countP (forest.IsSplit forest ·) = 0 := by
      refine List.countP_eq_zero.mpr fun id hId => ?_
      obtain ⟨label, hLabel⟩ := exists_label?_of_mem (mem_ids.mp hId)
      rw [decide_eq_true_iff, isSplit_iff hLabel hLabel,
        ← (Node.Revision.same : label.Revision settings True label false).splits_iff]
      exact Bool.false_ne_true
    rw [hNone, Nat.add_zero]

namespace Revised

variable {other : NodeId} (revised : forest.Revised settings middle)
  (h : middle.Revises settings (¬ forest.Under (·.kind = .preFormatted) id) id after)

include revised h

/-- A visit splits no node but its own. -/
theorem isSplit_iff_of_ne (hMem : other ∈ forest) (hOther : other ≠ id) :
    forest.IsSplit middle other ↔ forest.IsSplit after other := by
  rw [IsSplit, IsSplit, kind?_congr (h.others (revised.preserves.mem hMem) hOther)]

/-- A visit at a node from the start adds a node exactly if it splits its own. -/
theorem size_eq_of_mem (hId : id ∈ forest) :
    after.size = forest.size + forest.ids.countP (forest.IsSplit after ·) := by
  obtain ⟨former, hFormer⟩ := exists_label?_of_mem hId
  obtain ⟨label, splits, hLabel, hRevision⟩ := revised.node hFormer
  obtain ⟨latter, more, hLatter, hMore, hSize⟩ := h.node hLabel
  have hCount := countP_ids_add hId fun other => revised.isSplit_iff_of_ne h
  have hBefore : forest.IsSplit middle id ↔ splits :=
    (isSplit_iff hFormer hLabel).trans hRevision.splits_iff.symm
  have hAfter : forest.IsSplit after id ↔ (splits || more) :=
    (isSplit_iff hFormer hLatter).trans (hRevision.trans hMore).splits_iff.symm
  -- a style that has been split is no style any more
  have hOnce : (if splits || more then 1 else 0) =
      (if splits then 1 else 0) + if more then 1 else 0 := by
    cases splits with
    | false => rw [Bool.false_or, if_neg Bool.false_ne_true, Nat.zero_add]
    | true => rw [hRevision.not_splits hMore rfl]; rfl
  simp only [hBefore, hAfter] at hCount
  rw [hSize, revised.size_eq]
  omega

/-- A visit at a node that has been added splits nothing. -/
theorem size_eq_of_notMem (hId : id ∉ forest) :
    after.size = forest.size + forest.ids.countP (forest.IsSplit after ·) := by
  have hSize : after.size = middle.size := by
    by_cases hMiddle : id ∈ middle
    · obtain ⟨label, hLabel⟩ := exists_label?_of_mem hMiddle
      obtain ⟨latter, more, -, hMore, hSize⟩ := h.node hLabel
      have hNot : more = false := by
        refine hMore.not_splits_of_kind ?_
        rcases revised.preserves.wrapper_of_notMem hId hLabel with hKind | hKind <;>
          rw [hKind] <;> nofun
      rw [hSize, hNot]
      rfl
    · exact h.size_eq hMiddle
  have hSame : forest.ids.countP (forest.IsSplit after ·) =
      forest.ids.countP (forest.IsSplit middle ·) := by
    refine List.countP_congr fun other hOther => ?_
    rw [mem_ids] at hOther
    rw [decide_eq_true_iff, decide_eq_true_iff, revised.isSplit_iff_of_ne h hOther]
    rintro rfl
    exact hId hOther
  rw [hSize, revised.size_eq, hSame]

/-- What is revised is revised once more by a visit. -/
theorem revises (preserves : forest.Preserves after) : forest.Revised settings after where
  preserves := preserves
  node {other former} hFormer := by
    obtain ⟨label, splits, hLabel, hRevision⟩ := revised.node hFormer
    by_cases hOther : other = id
    · subst hOther
      obtain ⟨latter, more, hLatter, hMore, -⟩ := h.node hLabel
      exact ⟨latter, _, hLatter, hRevision.trans hMore⟩
    · exact ⟨label, splits, (h.others (mem_of_label? hLabel) hOther).trans hLabel, hRevision⟩
  size_eq := by
    by_cases hId : id ∈ forest
    · exact revised.size_eq_of_mem h hId
    · exact revised.size_eq_of_notMem h hId

end Revised

end Forest

/-! ### Passes -/

/-- A visit that tidies text takes no child elsewhere, and what is preformatted stays so. -/
theorem Edit.under_of_tidyText {settings : Settings} {forest after : Forest} {id : NodeId}
    (wellFormed : forest.WellFormed) (hRun : (tidyText settings id).run forest = .ok () after) :
    (∀ other, after.children other ⊆ forest.children other) ∧
      ∀ other, forest.Under (·.kind = .preFormatted) other →
        after.Under (·.kind = .preFormatted) other := by
  have linked := wellFormed.linked
  by_cases hTidy : forest.Tidy settings id
  · rw [tidyText_unchanged hTidy] at hRun
    cases hRun
    exact ⟨fun _ => List.Subset.refl _, fun _ h => h⟩
  · obtain ⟨found, hFound, hText, -, hPlain, h⟩ := tidyText_cases wellFormed hTidy
    rw [wellFormed.hasAncestorOfKind_iff] at hPlain
    rcases h with ⟨-, hCut⟩ | ⟨folded, -, -, -, hFold⟩
    · rw [hCut] at hRun
      cases hRun
      refine ⟨fun other => ?_, ?_⟩
      · rw [linked.children_cut]
        exact List.erase_subset
      · rintro other ⟨above, hNe, hReaches, hKind⟩
        have hKept : (forest.cut id).Has (·.kind = .preFormatted) above := by
          rwa [Forest.Has, Forest.label?_cut]
        refine ⟨above, hNe, wellFormed.reaches_cut_iff.mpr ⟨hReaches, fun hBelow => ?_⟩, hKept⟩
        -- the node is not preformatted, so it is above what is
        refine (linked.reaches_total hReaches hBelow).resolve_left fun hAbove => ?_
        refine hPlain ⟨above, ?_, hAbove, hKind⟩
        rintro rfl
        have hLabel := Forest.label?_of_get? hFound
        rw [Forest.has_iff_of_label? hLabel] at hKind
        exact nomatch hText.symm.trans hKind
    · rw [hFold] at hRun
      cases hRun
      have same : forest.SameLinks (forest.modify id fun node => { node with caption := folded }) :=
        Forest.sameLinks_modify fun _ _ => ⟨rfl, rfl⟩
      refine ⟨fun other => ?_, ?_⟩
      · rw [same.children_eq]
        exact List.Subset.refl _
      · rintro other ⟨above, hNe, hReaches, hKind⟩
        refine ⟨above, hNe, same.reaches_iff.mpr hReaches, ?_⟩
        rwa [Forest.has_kind_iff, Forest.kind?_modify_caption, ← Forest.has_kind_iff]

namespace Forest

section

variable {settings : Settings} {forest before last : Forest} (linked : forest.Linked)

include linked

/-- **Any visit revises**, if what was preformatted still is when its text is tidied. -/
theorem Revised.step {draft after : Draft} {visit : Visit}
    (revised : forest.Revised settings draft.forest)
    (hRun : (visit.perform settings).run draft = .ok () after)
    (hUnder : visit = .tidyText visit.id → forest.Under (·.kind = .preFormatted) visit.id →
      draft.forest.Under (·.kind = .preFormatted) visit.id) :
    forest.Revised settings after.forest := by
  have wellFormed := revised.preserves.wellFormed
  have preserves := Visit.preserves_of_perform settings visit wellFormed hRun
  obtain ⟨_, hLast, revises⟩ := Visit.perform_revises settings wellFormed visit
    fun hVisit => mt (hUnder hVisit)
  rw [hRun] at hLast
  cases hLast
  exact revised.revises revises (revised.preserves.trans linked preserves)

/-- So do any visits that do not tidy text. -/
theorem Revised.visits {draft after : Draft} {visit : NodeId → Pass Unit}
    (revised : forest.Revised settings draft.forest) (perform : NodeId → Visit)
    (h : ∀ id, (perform id).perform settings = visit id)
    (hOther : ∀ id, perform id ≠ .tidyText (perform id).id) (hVisits : Visits visit draft after) :
    forest.Revised settings after.forest := by
  induction hVisits with
  | refl => exact revised
  | tail _ hVisit ih =>
    obtain ⟨id, hVisit⟩ := hVisit
    rw [← h] at hVisit
    exact ih.step linked hVisit fun hTidy => absurd hTidy (hOther id)

theorem Revised.walk {visit : NodeId → Edit Unit} (revised : forest.Revised settings before)
    (perform : NodeId → Visit) (h : ∀ id, (perform id).perform settings = Pass.edit (visit id))
    (hOther : ∀ id, perform id ≠ .tidyText (perform id).id)
    (hRun : (Edit.walk visit).run before = .ok () last) : forest.Revised settings last := by
  refine Revised.visits linked ?_ perform h hOther (Pass.visits_edit (visits_of_walk hRun) [])
  exact revised

/-- **Tidying text revises.** -/
theorem Revised.tidyTexts (revised : forest.Revised settings before)
    (hRun : (Edit.tidyTexts settings).run before = .ok () last) :
    forest.Revised settings last := by
  rw [Edit.tidyTexts, Edit.walk, walk_run_eq] at hRun
  have hAll : forest.Revised settings last ∧ (∀ id, last.children id ⊆ before.children id) ∧
      ∀ id, before.Under (·.kind = .preFormatted) id → last.Under (·.kind = .preFormatted) id := by
    refine explore_keeps (fun state => forest.Revised settings state ∧
        (∀ id, state.children id ⊆ before.children id) ∧
        ∀ id, before.Under (·.kind = .preFormatted) id → state.Under (·.kind = .preFormatted) id)
      (before.Reaches .root) ?_ _ before .root last
      ⟨revised, fun _ => List.Subset.refl _, fun _ h => h⟩ (Reaches.refl before .root) hRun
    rintro state id next after ⟨hState, hChildren, hUnder⟩ hId hStep
    obtain ⟨_, middle, hVisit, hRead⟩ := run_bind_eq_ok_iff.mp hStep
    cases hRead
    obtain ⟨hFewer, hStill⟩ := Edit.under_of_tidyText hState.preserves.wellFormed hVisit
    have hPerform : ((Visit.tidyText id).perform settings).run ⟨state, []⟩ =
        .ok () ⟨after, []⟩ := Pass.edit_run hVisit
    refine ⟨⟨?_, fun other child h => hChildren other (hFewer other h),
      fun other h => hStill other (hUnder other h)⟩, fun child hChild => ?_⟩
    · refine Revised.step linked hState hPerform fun _ hPlain => hUnder id ?_
      -- what is below the root at the start of the pass is preformatted if it was before
      have hMem : id ∈ forest := by
        obtain ⟨above, -, hReaches, hKind⟩ := hPlain
        exact linked.mem_of_reaches hKind.mem hReaches
      exact (revised.preserves.under_iff (by decide) (by decide) hMem hId).mpr hPlain
    · exact hId.trans (Reaches.of_mem_children (hChildren id (hFewer id hChild)))
  exact hAll.1

/-- **Cleaning up revises.** -/
theorem Revised.cleanUp (revised : forest.Revised settings before)
    (hRun : (Edit.cleanUp settings).run before = .ok () last) : forest.Revised settings last := by
  obtain ⟨_, tidied, hTidy, hRun⟩ := run_bind_eq_ok_iff.mp hRun
  obtain ⟨_, lifted, hLift, hDrop⟩ := run_bind_eq_ok_iff.mp hRun
  have hTidied := revised.tidyTexts linked hTidy
  have hLifted := hTidied.walk linked .liftList (fun _ => rfl) (fun _ => nofun) hLift
  exact hLifted.walk linked .dropBreak (fun _ => rfl) (fun _ => nofun) hDrop

/-- **Settling revises.** -/
theorem Revised.settle {rounds : Nat} (revised : forest.Revised settings before)
    (hRun : (Edit.settle settings).run before = .ok rounds last) : forest.Revised settings last :=
  Edit.settle_keeps (forest.Revised settings) (fun _ _ h hRound => h.cleanUp linked hRound)
    revised hRun

end

end Forest

end WikiMarkup
