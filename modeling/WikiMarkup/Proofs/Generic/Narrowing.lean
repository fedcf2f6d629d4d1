import WikiMarkup.Draft
import WikiMarkup.Proofs.Forest.Keeping
import WikiMarkup.Proofs.Generic.Becoming

/-!
# No pass makes a node generic

A pass may give nodes of a generic kind another kind, and it may detach nodes. What it never does
is the opposite: a generic node below the root was below the root before, with the kind and the
literal that it has now (`Forest.Narrows`). So what one pass has resolved stays resolved.

A pass that resolves also **reports** what it cannot resolve. It comes to every node once and in
reading order, so its reports are those of the forest that it started from (`Forest.reports`).
-/

namespace WikiMarkup

namespace Forest

variable {forest middle after : Forest} {id : NodeId} {next : List NodeId}

/-- Whatever is generic and below the root was so before. -/
def Narrows (forest after : Forest) : Prop :=
  ∀ id label, after.Reaches .root id → after.label? id = some label → label.kind.isGeneric →
    forest.Reaches .root id ∧ forest.label? id = some label

theorem Narrows.refl (forest : Forest) : forest.Narrows forest :=
  fun _ _ hReaches hLabel _ => ⟨hReaches, hLabel⟩

theorem Narrows.trans (h : forest.Narrows middle) (hAfter : middle.Narrows after) :
    forest.Narrows after := by
  intro id label hReaches hLabel hGeneric
  obtain ⟨hReaches, hLabel⟩ := hAfter id label hReaches hLabel hGeneric
  exact h id label hReaches hLabel hGeneric

/-- A step narrows if it makes neither its node nor a new node generic. -/
theorem Advance.narrows (advance : forest.Advance id after next)
    (hId : ∀ label, after.label? id = some label → label.kind.isGeneric →
      forest.label? id = some label)
    (hNew : ∀ other label, other ∉ forest → after.label? other = some label →
      ¬ label.kind.isGeneric) : forest.Narrows after := by
  intro other label hReaches hLabel hGeneric
  by_cases hMem : other ∈ forest
  · refine ⟨advance.root_reaches hMem hReaches, ?_⟩
    by_cases hOther : other = id
    · subst hOther
      exact hId label hLabel hGeneric
    · rw [← advance.label?_eq hMem hOther]
      exact hLabel
  · exact absurd hGeneric (hNew other label hMem hLabel)

/-- A node has a property, which is about all but its links. -/
def HasLabel (property : NodeId → Node → Prop) (forest : Forest) (id : NodeId) : Prop :=
  ∀ label, forest.label? id = some label → property id label

/-- A property that only generic nodes may fail to have is not lost. -/
theorem Narrows.hasLabel {property : NodeId → Node → Prop} (h : forest.Narrows after)
    (hProperty : ∀ id label, ¬ label.kind.isGeneric → property id label)
    (hAll : ∀ id, forest.Reaches .root id → HasLabel property forest id) :
    ∀ id, after.Reaches .root id → HasLabel property after id := by
  intro id hReaches label hLabel
  by_cases hGeneric : label.kind.isGeneric
  · obtain ⟨hReaches, hLabel⟩ := h id label hReaches hLabel hGeneric
    exact hAll id hReaches label hLabel
  · exact hProperty id label hGeneric

/-! ### Steps that resolve -/

/-- A step advances, makes nothing generic, and leaves its node with a property. -/
structure Resolves (property : NodeId → Node → Prop) (forest : Forest) (id : NodeId)
    (after : Forest) (next : List NodeId) : Prop where
  /-- The step advances. -/
  advance : forest.Advance id after next
  /-- If the node is generic it was so before. -/
  narrows_self : ∀ label, after.label? id = some label → label.kind.isGeneric →
    forest.label? id = some label
  /-- No new node is generic. -/
  narrows_new : ∀ other label, other ∉ forest → after.label? other = some label →
    ¬ label.kind.isGeneric
  /-- The node has the property, unless it is no longer below the root. -/
  resolved : after.Reaches .root id → HasLabel property after id

/-- A change that leaves the links and the other nodes alone resolves if it makes nothing generic
and leaves the node with the property. -/
theorem SameLinks.resolves {property : NodeId → Node → Prop} (same : forest.SameLinks after)
    (wellFormed : forest.WellFormed)
    (hOthers : ∀ {other}, other ≠ id → after.label? other = forest.label? other)
    (hId : ∀ label, after.label? id = some label → label.kind.isGeneric →
      forest.label? id = some label)
    (hProperty : after.Reaches .root id → HasLabel property after id) :
    Resolves property forest id after (after.children id) where
  advance := same.advance wellFormed hOthers
  narrows_self := hId
  narrows_new _ _ hOther hLabel :=
    absurd (same.mem_iff.mp (mem_of_label? hLabel)) hOther
  resolved := hProperty

/-- A step that changes nothing resolves if the node has the property. -/
theorem WellFormed.resolves_self {property : NodeId → Node → Prop} (wellFormed : forest.WellFormed)
    (hProperty : forest.Reaches .root id → HasLabel property forest id) :
    Resolves property forest id forest (forest.children id) :=
  (SameLinks.refl forest).resolves wellFormed (fun _ => rfl) (fun _ hLabel _ => hLabel) hProperty

/-- To relabel a node resolves. -/
theorem Relabelled.resolves {property : NodeId → Node → Prop} (h : forest.Relabelled after id)
    (wellFormed : forest.WellFormed)
    (hProperty : ∀ label, ¬ label.kind.isGeneric → property id label) :
    Resolves property forest id after (after.children id) :=
  h.same.resolves wellFormed h.others
    (fun label hLabel hGeneric => absurd hGeneric (h.not_isGeneric label hLabel))
    fun _ label hLabel => hProperty label (h.not_isGeneric label hLabel)

namespace Resolves

variable {property : NodeId → Node → Prop} (resolves : Resolves property forest id after next)

include resolves

theorem narrows : forest.Narrows after :=
  resolves.advance.narrows resolves.narrows_self resolves.narrows_new

theorem hasLabel (hProperty : ∀ id label, ¬ label.kind.isGeneric → property id label)
    {other : NodeId} (hReaches : after.Reaches .root other)
    (h : other ∈ forest → other ≠ id → HasLabel property forest other) :
    HasLabel property after other := by
  by_cases hMem : other ∈ forest
  · by_cases hOther : other = id
    · subst hOther
      exact resolves.resolved hReaches
    · intro label hLabel
      rw [resolves.advance.label?_eq hMem hOther] at hLabel
      exact h hMem hOther label hLabel
  · exact fun label hLabel =>
      hProperty other label (resolves.narrows_new other label hMem hLabel)

end Resolves

/-! ### Reports -/

/-- What is reported of a node, if anything is. -/
def report? (report : NodeId → Node → Option Warning) (forest : Forest) (id : NodeId) :
    Option Warning :=
  (forest.label? id).bind (report id)

/-- What is reported of a node and what is below it, in reading order. -/
def reports (report : NodeId → Node → Option Warning) (forest : Forest) (id : NodeId) :
    List Warning :=
  (forest.selfAndDescendants id).filterMap (forest.report? report)

/-- Below a node the same is listed, apart from what is new. -/
def ListsSame (forest after : Forest) (id : NodeId) : Prop :=
  (after.descendants id).filter (fun other => decide (other ∈ forest)) = forest.descendants id

section

variable {report : NodeId → Node → Option Warning} {other : NodeId}

theorem WellFormed.filter_descendants (wellFormed : forest.WellFormed) (hId : id ∈ forest) :
    (forest.descendants id).filter (fun other => decide (other ∈ forest)) =
      forest.descendants id := by
  rw [List.filter_eq_self]
  intro other hOther
  rw [wellFormed.mem_descendants_iff] at hOther
  exact decide_eq_true (wellFormed.linked.mem_of_reaches hId hOther.2)

/-- Where the children below a node stay, the same is listed. -/
theorem listsSame_of_children_eq (wellFormed : forest.WellFormed) (hAfter : after.WellFormed)
    (hId : id ∈ forest)
    (h : ∀ below, forest.Reaches id below → after.children below = forest.children below) :
    forest.ListsSame after id := by
  have hSame := selfAndDescendants_congr wellFormed hAfter h
  rw [wellFormed.selfAndDescendants_eq, hAfter.selfAndDescendants_eq] at hSame
  rw [ListsSame, (List.cons_eq_cons.mp hSame).2, wellFormed.filter_descendants hId]

theorem report?_congr (h : after.label? id = forest.label? id) :
    after.report? report id = forest.report? report id := by
  rw [report?, report?, h]

theorem WellFormed.reports_eq (wellFormed : forest.WellFormed) :
    forest.reports report id = (forest.report? report id).toList ++
      (forest.children id).flatMap (forest.reports report) := by
  rw [reports, wellFormed.selfAndDescendants_eq, List.filterMap_cons, descendants,
    List.filterMap_flatMap]
  cases forest.report? report id <;> rfl

/-- What is listed below a node that is apart stays the same. -/
theorem Advance.selfAndDescendants_of_apart (advance : forest.Advance id after next)
    (wellFormed : forest.WellFormed) (hOther : other ∈ forest) (hApart : forest.Apart id other) :
    after.selfAndDescendants other = forest.selfAndDescendants other :=
  selfAndDescendants_congr wellFormed advance.wellFormed fun _ hBelow =>
    advance.children_below wellFormed.linked hOther hApart hBelow

/-- So do the reports. -/
theorem Advance.reports_of_apart (advance : forest.Advance id after next)
    (wellFormed : forest.WellFormed) (hOther : other ∈ forest) (hApart : forest.Apart id other) :
    after.reports report other = forest.reports report other := by
  have linked := wellFormed.linked
  rw [reports, reports, advance.selfAndDescendants_of_apart wellFormed hOther hApart]
  refine List.filterMap_congr fun below hBelow => report?_congr ?_
  rw [wellFormed.mem_selfAndDescendants_iff] at hBelow
  refine advance.label?_eq (linked.mem_of_reaches hOther hBelow) ?_
  rintro rfl
  exact hApart.not_reached hBelow

/-- If only generic nodes are reported, the reports of what is below a node stay the same where the
same is listed. -/
theorem Resolves.reports_children {property : NodeId → Node → Prop}
    (resolves : Resolves property forest id after next)
    (hReport : ∀ id label, (report id label).isSome → label.kind.isGeneric)
    (hSame : forest.ListsSame after id) :
    (after.children id).flatMap (after.reports report) =
      (forest.children id).flatMap (forest.reports report) := by
  have hBelow : (after.descendants id).filterMap (after.report? report) =
      (forest.descendants id).filterMap (forest.report? report) := by
    rw [← hSame, List.filterMap_filter]
    refine List.filterMap_congr fun other hOther => ?_
    rw [resolves.advance.wellFormed.mem_descendants_iff] at hOther
    split
    next hMem =>
      rw [decide_eq_true_eq] at hMem
      exact report?_congr (resolves.advance.label?_eq hMem (Ne.symm hOther.1))
    next hMem =>
      -- a new node is not generic
      rw [decide_eq_true_eq] at hMem
      cases hLabel : after.label? other with
      | none => rw [report?, hLabel, Option.bind_none]
      | some label =>
        rw [report?, hLabel, Option.bind_some, ← Option.not_isSome_iff_eq_none]
        exact fun h => resolves.narrows_new other label hMem hLabel (hReport other label h)
  rwa [descendants, descendants, List.filterMap_flatMap, List.filterMap_flatMap] at hBelow

end

end Forest

/-- Steps that resolve narrow all the way, and make their property good. -/
theorem advances_of_resolves {σ : Type} {view : σ → Forest}
    {step : NodeId → EStateM Error σ (List NodeId)} {property : NodeId → Node → Prop}
    (start : Forest) (hProperty : ∀ id label, ¬ label.kind.isGeneric → property id label)
    (hStep : ∀ before id, (view before).WellFormed → id ∈ view before →
      ∃ next after, (step id).run before = .ok next after ∧
        Forest.Resolves property (view before) id (view after) next) :
    Advances view step (fun state => start.Narrows (view state)) (Forest.HasLabel property) := by
  intro before id hNarrows wellFormed hId
  obtain ⟨next, after, hRun, resolves⟩ := hStep before id wellFormed hId
  exact ⟨next, after, hRun, hNarrows.trans resolves.narrows, resolves.advance,
    fun _ hReaches h => resolves.hasLabel hProperty hReaches h⟩

namespace Pass

variable {α : Type} {forest after : Forest} {warnings : List Warning}

theorem edit_run {change : Edit α} {result : α} (h : change.run forest = .ok result after) :
    (edit change).run ⟨forest, warnings⟩ = .ok result ⟨after, warnings⟩ := by
  have hChange : change forest = .ok result after := h
  rw [EStateM.run, edit, hChange]

theorem exists_run_of_edit {change : Edit α} {result : α} {after : Draft}
    (h : (edit change).run ⟨forest, warnings⟩ = .ok result after) :
    ∃ last, change.run forest = .ok result last ∧ after = ⟨last, warnings⟩ := by
  rw [EStateM.run, edit] at h
  split at h
  next hChange =>
    cases h
    exact ⟨_, hChange, rfl⟩
  next => cases h

theorem node?_run {draft : Draft} {id : NodeId} {found : Option Node}
    (h : draft.forest.get? id = found) : (node? id).run draft = .ok found draft := by
  rw [← h]
  rfl

/-! ### Passes that resolve -/

open Forest (Resolves HasLabel)

/-- A visitor that makes good a property that only generic nodes may fail to have, and reports
those generic nodes that have it. -/
structure Resolver (property : Node → Prop) (report : NodeId → Node → Option Warning)
    (visit : NodeId → Pass Unit) : Prop where
  /-- Nodes that are not generic have the property. -/
  of_not_isGeneric : ∀ {label : Node}, ¬ label.kind.isGeneric → property label
  /-- Only generic nodes that have the property are reported. -/
  of_isSome_report : ∀ {id : NodeId} {label : Node}, (report id label).isSome →
    label.kind.isGeneric ∧ property label
  /-- At a node that has the property a visit does no more than report. -/
  skips : ∀ {draft : Draft} {id : NodeId} {found : Node}, draft.forest.get? id = some found →
    property found.unlinked → (visit id).run draft =
      .ok () ⟨draft.forest, draft.warnings ++ (report id found.unlinked).toList⟩
  /-- At a node that does not have it a visit resolves. -/
  resolves : ∀ {draft : Draft} {id : NodeId} {found : Node}, draft.forest.WellFormed →
    draft.forest.get? id = some found → ¬ property found.unlinked →
      ∃ after, (visit id).run draft = .ok () ⟨after, draft.warnings⟩ ∧
        Resolves (fun _ => property) draft.forest id after (after.children id) ∧
        draft.forest.ListsSame after id

namespace Resolver

variable {property : Node → Prop} {report : NodeId → Node → Option Warning}
  {visit : NodeId → Pass Unit} (resolver : Resolver property report visit)

include resolver

/-- Every visit resolves, and adds the report of its node. -/
theorem visit_run {draft : Draft} {id : NodeId} (wellFormed : draft.forest.WellFormed)
    (hId : id ∈ draft.forest) :
    ∃ after, (visit id).run draft =
        .ok () ⟨after, draft.warnings ++ (draft.forest.report? report id).toList⟩ ∧
      Resolves (fun _ => property) draft.forest id after (after.children id) ∧
      draft.forest.ListsSame after id := by
  obtain ⟨found, hFound⟩ := Forest.mem_iff_exists_get?.mp hId
  have hLabel := Forest.label?_of_get? hFound
  rw [Forest.report?, hLabel, Option.bind_some]
  by_cases hProperty : property found.unlinked
  · refine ⟨draft.forest, resolver.skips hFound hProperty, ?_, ?_⟩
    · refine wellFormed.resolves_self fun _ label hOther => ?_
      rw [hLabel, Option.some_inj] at hOther
      exact hOther ▸ hProperty
    · exact wellFormed.filter_descendants hId
  · obtain ⟨after, hRun, hAfter⟩ := resolver.resolves wellFormed hFound hProperty
    have hReport : report id found.unlinked = none := by
      rw [← Option.not_isSome_iff_eq_none]
      exact fun h => hProperty (resolver.of_isSome_report h).2
    rw [hReport, Option.toList_none, List.append_nil]
    exact ⟨after, hRun, hAfter⟩

/-- The warnings and the reports of what is on the stack make up the same list all along. -/
private theorem traces {Holds : Draft → Prop} {Good : Forest → NodeId → Prop}
    (total : List Warning) :
    Traces Draft.forest (walkStep Draft.forest visit) Holds Good fun state stack =>
      state.warnings ++ stack.flatMap (state.forest.reports report) = total := by
  intro before after id rest next exploring hRun advance hTotal
  have wellFormed := exploring.wellFormed
  have hPending := exploring.pending
  obtain ⟨forest, hVisit, resolves, hSame⟩ :=
    resolver.visit_run wellFormed (hPending.mem id List.mem_cons_self)
  rw [walkStep_run hVisit] at hRun
  cases hRun
  have hRest : rest.flatMap (forest.reports report) =
      rest.flatMap (before.forest.reports report) := by
    refine List.flatMap_congr fun other hOther => advance.reports_of_apart wellFormed ?_ ?_
    · exact hPending.mem other (List.mem_cons_of_mem id hOther)
    · exact (List.pairwise_cons.mp hPending.apart).1 other hOther
  have hReport : ∀ id label, (report id label).isSome → label.kind.isGeneric :=
    fun _ _ h => (resolver.of_isSome_report h).1
  have hBelow := resolves.reports_children hReport hSame
  rw [← hTotal, List.flatMap_append, hRest, hBelow, List.flatMap_cons, wellFormed.reports_eq]
  simp only [List.append_assoc]

/-- **A pass of visits that resolve** comes to its end, makes nothing generic, and makes the
property good below the root. It adds the reports of the forest that it started from. -/
theorem walk_run (draft : Draft) (wellFormed : draft.forest.WellFormed) :
    ∃ after, (walk visit).run draft =
        .ok () ⟨after, draft.warnings ++ draft.forest.reports report .root⟩ ∧
      after.WellFormed ∧ draft.forest.Narrows after ∧
      ∀ id, after.Reaches .root id → HasLabel (fun _ => property) after id := by
  have hStep : Advances Draft.forest (walkStep Draft.forest visit)
      (fun state => draft.forest.Narrows state.forest) (HasLabel fun _ => property) := by
    refine advances_of_resolves draft.forest (fun _ _ => resolver.of_not_isGeneric)
      fun before id wellFormed hId => ?_
    obtain ⟨after, hRun, resolves, -⟩ := resolver.visit_run wellFormed hId
    exact ⟨_, _, walkStep_run hRun, resolves⟩
  obtain ⟨⟨after, warnings⟩, hRun, hNarrows, hAfter, hAll, hTotal⟩ :=
    explore_traces hStep (resolver.traces _) (.refl _) wellFormed rfl
  refine ⟨after, ?_, hAfter, hNarrows, hAll⟩
  rw [List.flatMap_nil, List.append_nil, List.flatMap_singleton] at hTotal
  rw [walk, walk_run_eq, hRun, ← hTotal]

/-- If all below the root have the property already, the pass leaves the forest as it is. -/
theorem walk_unchanged_run (wellFormed : forest.WellFormed)
    (hAll : ∀ id, forest.Reaches .root id → HasLabel (fun _ => property) forest id)
    (warnings : List Warning) :
    (walk visit).run ⟨forest, warnings⟩ =
      .ok () ⟨forest, warnings ++ forest.reports report .root⟩ := by
  have hWalk : ∃ after, (walk visit).run ⟨forest, warnings⟩ = .ok () after ∧
      after.forest = forest := by
    refine walk_unchanged wellFormed (fun before id hBefore hReaches => ?_) rfl
    -- the forest is still what it was, so the node has the property
    have hId := wellFormed.linked.mem_of_reaches forest.root_mem hReaches
    obtain ⟨found, hFound⟩ := Forest.mem_iff_exists_get?.mp hId
    have hProperty := hAll id hReaches _ (Forest.label?_of_get? hFound)
    rw [← hBefore] at hFound
    exact ⟨_, resolver.skips hFound hProperty, hBefore⟩
  obtain ⟨last, hLast, -⟩ := resolver.walk_run ⟨forest, warnings⟩ wellFormed
  obtain ⟨after, hRun, hAfter⟩ := hWalk
  have hSame : last = forest := by
    rw [hLast] at hRun
    cases hRun
    exact hAfter
  rw [hLast, hSame]

end Resolver

end Pass

end WikiMarkup
