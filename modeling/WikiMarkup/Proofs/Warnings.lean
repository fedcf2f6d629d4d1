import WikiMarkup.Proofs.Content

/-!
# What normalization warns about

A run warns about tags when it resolves tags, and about styles when it resolves styles. Its warnings
are nevertheless about what is left in the end (`normalize_warnings`): each tag or style is named by
exactly one warning. Where text ends branches nothing that has been warned about goes later, so the
warnings list all tags and then all styles of the outcome, in reading order.
-/

namespace WikiMarkup

namespace Node

variable {node : Node} {id : NodeId} {warning : Warning}

/-- A tag or a style that has no meaning. -/
structure IsUnresolved (node : Node) : Prop where
  /-- It is a tag or a style. -/
  kind : node.kind = .tag ∨ node.kind = .style
  /-- It has no meaning. -/
  not_isResolvable : ¬ node.IsResolvable

namespace IsUnresolved

variable (h : node.IsUnresolved)

include h

theorem isGeneric : node.kind.isGeneric := by
  rcases h.kind with h | h <;> rw [h] <;> rfl

theorem not_isHull : ¬ node.IsHull := by
  rcases h.kind with h | h <;> simp [IsHull, h]

theorem kind_ne_text : node.kind ≠ .text := by
  rcases h.kind with h | h <;> simp [h]

/-- The tag that stands for a forced line break has a meaning. -/
theorem not_isBreak : ¬ node.IsBreak := by
  rintro (hBreak | ⟨hTag, hCaption⟩)
  · rcases h.kind with h | h <;> rw [hBreak] at h <;> cases h
  · refine h.not_isResolvable (.inl ⟨hTag, fun hNone => ?_⟩)
    have hMeaning := (resolvedTag?_eq_none_iff.mp hNone).2
    rw [hCaption] at hMeaning
    cases hMeaning

end IsUnresolved

theorem tagReport?_eq_some_iff : tagReport? id node = some warning ↔
    node.kind = .tag ∧ node.resolvedTag? = none ∧ .unknownTag id node.caption = warning := by
  rw [tagReport?, Option.ite_none_right_eq_some, resolvedTag?_eq_none_iff, Option.some_inj,
    and_assoc]

theorem styleReport?_eq_some_iff : styleReport? id node = some warning ↔
    node.kind = .style ∧ StyleMark.ofToken node.caption = none ∧
      .unknownStyle id node.caption = warning := by
  rw [styleReport?, Option.ite_none_right_eq_some, Option.some_inj, and_assoc]

/-- A report names its node and is about an unresolved one. -/
structure ReportsUnresolved (report : NodeId → Node → Option Warning) : Prop where
  /-- The node has no meaning. -/
  isUnresolved : ∀ {id : NodeId} {node : Node} {warning : Warning},
    report id node = some warning → node.IsUnresolved
  /-- It is named. -/
  node_eq : ∀ {id : NodeId} {node : Node} {warning : Warning},
    report id node = some warning → warning.node = id

theorem reportsUnresolved_tagReport? : ReportsUnresolved tagReport? where
  isUnresolved h := by
    obtain ⟨hTag, hMeaning, -⟩ := tagReport?_eq_some_iff.mp h
    refine ⟨.inl hTag, ?_⟩
    rintro (⟨-, h⟩ | ⟨h, -⟩)
    · exact h hMeaning
    · rw [hTag] at h
      cases h
  node_eq h := by
    obtain ⟨-, -, rfl⟩ := tagReport?_eq_some_iff.mp h
    rfl

theorem reportsUnresolved_styleReport? : ReportsUnresolved styleReport? where
  isUnresolved h := by
    obtain ⟨hStyle, hMeaning, -⟩ := styleReport?_eq_some_iff.mp h
    refine ⟨.inr hStyle, ?_⟩
    rintro (⟨h, -⟩ | ⟨-, h⟩)
    · rw [hStyle] at h
      cases h
    · exact h hMeaning
  node_eq h := by
    obtain ⟨-, -, rfl⟩ := styleReport?_eq_some_iff.mp h
    rfl

end Node

namespace Forest

variable {forest linked tidied after : Forest} {id : NodeId} {settings : Settings}
  {report : NodeId → Node → Option Warning}

/-! ### Reports of what is left -/

theorem report?_eq_some_iff {warning : Warning} : forest.report? report id = some warning ↔
    ∃ label, forest.label? id = some label ∧ report id label = some warning := by
  rw [report?, Option.bind_eq_some_iff]

theorem reports_eq_filter (report : NodeId → Node → Option Warning) :
    forest.reports report id = ((forest.selfAndDescendants id).filter
      fun other => (forest.report? report other).isSome).filterMap (forest.report? report) := by
  rw [reports, List.filterMap_filter]
  refine List.filterMap_congr fun other _ => ?_
  cases forest.report? report other <;> rfl

section

variable (reportsUnresolved : Node.ReportsUnresolved report)

include reportsUnresolved

theorem has_isUnresolved (h : (forest.report? report id).isSome) :
    forest.Has Node.IsUnresolved id := by
  obtain ⟨warning, hWarning⟩ := Option.isSome_iff_exists.mp h
  obtain ⟨label, hLabel, hReport⟩ := report?_eq_some_iff.mp hWarning
  exact ⟨label, hLabel, reportsUnresolved.isUnresolved hReport⟩

/-- Reports name the nodes that they are about, each of them once. -/
theorem map_node_reports : (forest.reports report id).map Warning.node =
    (forest.selfAndDescendants id).filter fun other => (forest.report? report other).isSome := by
  rw [reports, List.map_filterMap, ← List.filterMap_eq_filter]
  refine List.filterMap_congr fun other _ => ?_
  cases hReport : forest.report? report other with
  | none => simp [Option.guard, hReport]
  | some warning =>
    obtain ⟨label, -, hLabel⟩ := report?_eq_some_iff.mp hReport
    simp [Option.guard, hReport, reportsUnresolved.node_eq hLabel]

variable (preserves : forest.Preserves after) (wellFormed : forest.WellFormed)

include preserves

/-- Of a node the same is reported as before. -/
theorem Preserves.report?_eq (id : NodeId) :
    after.report? report id = forest.report? report id := by
  refine Option.ext fun warning => ?_
  rw [report?_eq_some_iff, report?_eq_some_iff]
  constructor
  · rintro ⟨label, hLabel, hReport⟩
    have hGeneric := (reportsUnresolved.isUnresolved hReport).isGeneric
    exact ⟨label, preserves.label?_eq_of_isGeneric hLabel hGeneric, hReport⟩
  · rintro ⟨former, hFormer, hReport⟩
    have hUnresolved := reportsUnresolved.isUnresolved hReport
    obtain ⟨latter, hLatter, hBecomes⟩ := preserves.becomes hFormer
    rw [hBecomes.eq_of_not_isResolvable hUnresolved.isGeneric hUnresolved.not_isResolvable]
      at hLatter
    exact ⟨former, hLatter, hReport⟩

include wellFormed

/-- What is reported of a node that is left is among the reports from the start. -/
theorem Preserves.mem_map_node_reports (hReaches : after.Reaches .root id)
    (h : (after.report? report id).isSome) :
    id ∈ (forest.reports report .root).map Warning.node := by
  rw [preserves.report?_eq reportsUnresolved] at h
  rw [map_node_reports reportsUnresolved, List.mem_filter, wellFormed.mem_selfAndDescendants_iff]
  exact ⟨preserves.root_reaches (has_isUnresolved reportsUnresolved h).mem hReaches, h⟩

/-- **Reports stay the same** if nothing is reported that is below text or a break. -/
theorem Preserves.reports_eq
    (hAbove : ∀ id, forest.Has Node.IsUnresolved id → ¬ forest.Under Node.IsTextOrBreak id) :
    after.reports report .root = forest.reports report .root := by
  rw [reports_eq_filter, reports_eq_filter, funext (preserves.report?_eq reportsUnresolved)]
  refine congrArg _ (preserves.filter_selfAndDescendants_eq wellFormed forest.root_mem
    (Reaches.refl after .root) ?_ ?_)
  · intro id h
    have hHas := has_isUnresolved reportsUnresolved h
    obtain ⟨label, hLabel, hUnresolved⟩ := hHas
    refine ⟨preserves.root_reaches (mem_of_label? hLabel), fun hReaches => ?_⟩
    exact preserves.reaches_of_label? hReaches (hAbove id ⟨label, hLabel, hUnresolved⟩) hLabel
      hUnresolved.not_isHull hUnresolved.not_isBreak fun h => absurd h.1 hUnresolved.kind_ne_text
  · rintro first second h - - - - ⟨blank, mark, hBlank, hReaches, -⟩
    obtain ⟨label, hLabel, hUnresolved⟩ := has_isUnresolved reportsUnresolved h
    refine hAbove first ⟨label, hLabel, hUnresolved⟩
      ⟨blank, ?_, hReaches, hBlank.imp fun _ h => .inl h.1⟩
    rintro rfl
    exact hUnresolved.kind_ne_text ((has_iff_of_label? hLabel).mp hBlank).1

end

/-! ### The warnings of a run -/

/-- A warning about each tag and then about each style below the root. -/
def warningsOfAll (forest : Forest) : List Warning :=
  (forest.reachable.filter fun id => forest.kind? id = some .tag).map
      (fun id => .unknownTag id (forest.caption id)) ++
    (forest.reachable.filter fun id => forest.kind? id = some .style).map
      (fun id => .unknownStyle id (forest.caption id))

theorem reports_eq_map {kind : Kind} {warn : NodeId → String → Warning}
    (h : ∀ id ∈ forest.reachable, ∀ label, forest.label? id = some label →
      report id label = if label.kind = kind then some (warn id label.caption) else none) :
    forest.reports report .root =
      (forest.reachable.filter fun id => forest.kind? id = some kind).map
        fun id => warn id (forest.caption id) := by
  rw [reports, ← List.filterMap_eq_map, List.filterMap_filter]
  refine List.filterMap_congr fun id hId => ?_
  rw [report?, kind?_eq_map_label?, Function.comp_apply, caption_eq_map_label?]
  cases hLabel : forest.label? id with
  | none => simp
  | some label => simp [h id hId label hLabel]

/-- Of a normalized forest all tags and styles below the root are reported. -/
theorem Normalized.reports_eq_warningsOfAll (normalized : after.Normalized settings) :
    after.reports Node.tagReport? .root ++ after.reports Node.styleReport? .root =
      after.warningsOfAll := by
  have hTags : after.reports Node.tagReport? .root =
      (after.reachable.filter fun id => after.kind? id = some .tag).map
        fun id => .unknownTag id (after.caption id) := by
    refine reports_eq_map fun id hId label hLabel => ?_
    have hResolved := normalized.tags id (normalized.reaches_of_mem hId) label hLabel
    rw [Node.tagReport?]
    exact if_congr (and_iff_left_of_imp hResolved) rfl rfl
  have hStyles : after.reports Node.styleReport? .root =
      (after.reachable.filter fun id => after.kind? id = some .style).map
        fun id => .unknownStyle id (after.caption id) := by
    refine reports_eq_map fun id hId label hLabel => ?_
    have hResolved := normalized.styles id (normalized.reaches_of_mem hId) label hLabel
    rw [Node.styleReport?]
    exact if_congr (and_iff_left_of_imp hResolved) rfl rfl
  rw [hTags, hStyles, warningsOfAll]

theorem Normalized.isSome_report? (normalized : after.Normalized settings)
    (hId : id ∈ after.reachable) :
    (after.kind? id = some .tag → (after.report? Node.tagReport? id).isSome) ∧
      (after.kind? id = some .style → (after.report? Node.styleReport? id).isSome) := by
  have hReaches := normalized.reaches_of_mem hId
  constructor <;> intro hKind <;>
    obtain ⟨label, hLabel, hLabelKind, -⟩ := exists_label?_of_kind? hKind <;>
    rw [report?, hLabel, Option.bind_some]
  · exact Node.isSome_tagReport?_iff.mpr
      ⟨hLabelKind, normalized.tags id hReaches label hLabel hLabelKind⟩
  · exact Node.isSome_styleReport?_iff.mpr
      ⟨hLabelKind, normalized.styles id hReaches label hLabel hLabelKind⟩

section

variable (hLinked : linked.WellFormed) (hEarly : linked.Preserves tidied)
  (hLate : tidied.Preserves after)

include hLinked hEarly

/-- No node is named by two warnings: it is a tag or a style all along, and not both. -/
theorem nodup_map_node_reports : ((linked.reports Node.tagReport? .root ++
    tidied.reports Node.styleReport? .root).map Warning.node).Nodup := by
  rw [List.map_append, map_node_reports Node.reportsUnresolved_tagReport?,
    map_node_reports Node.reportsUnresolved_styleReport?, List.nodup_append]
  refine ⟨(hLinked.nodup_selfAndDescendants .root).filter _,
    (hEarly.wellFormed.nodup_selfAndDescendants .root).filter _, ?_⟩
  rintro id hTag _ hStyle rfl
  have hTag := (List.mem_filter.mp hTag).2
  have hStyle := (List.mem_filter.mp hStyle).2
  rw [hEarly.report?_eq Node.reportsUnresolved_styleReport?] at hStyle
  obtain ⟨_, hTag⟩ := Option.isSome_iff_exists.mp hTag
  obtain ⟨_, hStyle⟩ := Option.isSome_iff_exists.mp hStyle
  obtain ⟨label, hLabel, hTag⟩ := report?_eq_some_iff.mp hTag
  obtain ⟨other, hOther, hStyle⟩ := report?_eq_some_iff.mp hStyle
  rw [hLabel, Option.some_inj] at hOther
  have hKind := (Node.styleReport?_eq_some_iff.mp hStyle).1
  rw [← hOther, (Node.tagReport?_eq_some_iff.mp hTag).1] at hKind
  cases hKind

include hLate

/-- A tag or a style that is left is named by a warning. -/
theorem mem_map_node_reports (normalized : after.Normalized settings)
    (hId : id ∈ after.reachable)
    (hKind : after.kind? id = some .tag ∨ after.kind? id = some .style) :
    id ∈ (linked.reports Node.tagReport? .root ++
      tidied.reports Node.styleReport? .root).map Warning.node := by
  have hReaches := normalized.reaches_of_mem hId
  rw [List.map_append, List.mem_append]
  refine hKind.imp (fun h => ?_) fun h => ?_
  · exact (hEarly.trans hLinked.linked hLate).mem_map_node_reports
      Node.reportsUnresolved_tagReport? hLinked hReaches ((normalized.isSome_report? hId).1 h)
  · exact hLate.mem_map_node_reports Node.reportsUnresolved_styleReport? hEarly.wellFormed hReaches
      ((normalized.isSome_report? hId).2 h)

/-- Where text ends branches the reports on the way are those of the outcome. -/
theorem reports_eq_warningsOfAll (normalized : after.Normalized settings)
    (hEnds : linked.TextEndsBranches) :
    linked.reports Node.tagReport? .root ++ tidied.reports Node.styleReport? .root =
      after.warningsOfAll := by
  rw [← normalized.reports_eq_warningsOfAll,
    (hEarly.trans hLinked.linked hLate).reports_eq Node.reportsUnresolved_tagReport? hLinked
      fun _ _ => hEnds.not_under,
    hLate.reports_eq Node.reportsUnresolved_styleReport? hEarly.wellFormed ?_]
  rintro id ⟨label, hLabel, hUnresolved⟩ hUnder
  have hMem := mem_of_label? (hEarly.label?_eq_of_isGeneric hLabel hUnresolved.isGeneric)
  exact hEnds.not_under (hEarly.under_of_under Node.settled_isTextOrBreak hMem hUnder)

end

/-- **Warnings are about what is left unresolved.** Whatever a parser hands over, normalization
comes to its end, names no node twice, and names each tag and each style that is left. Where text
ends branches it warns about nothing else, about tags before styles and in reading order, and does
so again if it is run again. -/
theorem normalize_warnings (tree : ParseTree) (settings : Settings) :
    ∃ rounds draft, (ofParseTree tree).normalize settings = .ok rounds draft ∧
      (draft.warnings.map Warning.node).Nodup ∧
      (∀ id ∈ draft.forest.reachable,
        draft.forest.kind? id = some .tag ∨ draft.forest.kind? id = some .style →
          (draft.warnings.map Warning.node).count id = 1) ∧
      ((ofParseTree tree).TextEndsBranches →
        draft.warnings = draft.forest.warningsOfAll ∧
          ∃ again, draft.forest.normalize settings = .ok again draft) := by
  obtain ⟨linked, tidied, after, rounds, same, course⟩ := Pass.exists_course tree settings
  have hLinked := course.linked_wellFormed
  have hEarly : linked.Preserves tidied := Visit.Steps.preserves course.early hLinked
  have hLate : tidied.Preserves after := Visit.Steps.preserves course.late hEarly.wellFormed
  have normalized := course.normalized
  have hRun := course.run
  rw [List.nil_append] at hRun
  have hNodup := nodup_map_node_reports hLinked hEarly
  refine ⟨rounds, _, hRun, hNodup, fun id hId hKind => ?_, fun hEnds => ?_⟩
  · exact List.count_eq_one_of_mem hNodup
      (mem_map_node_reports hLinked hEarly hLate normalized hId hKind)
  · have hAll := reports_eq_warningsOfAll hLinked hEarly hLate normalized
      (same.textEndsBranches hEnds)
    refine ⟨hAll, 1, ?_⟩
    have hAgain := Pass.normalize_unchanged normalized []
    rw [List.nil_append, normalized.reports_eq_warningsOfAll, ← hAll] at hAgain
    exact hAgain

/-- A style and a tag that nobody has heard of. -/
def unknownLiterals : ParseTree :=
  .node .article "" [
    .node .style "~~" [] none none,
    .node .tag "zz" [.node .text "a" [] none none] none none] none none

/-- The tag is warned about first. -/
theorem normalize_warnings_unknownLiterals :
    (ofParseTree unknownLiterals).TextEndsBranches ∧
      ∃ rounds draft, (ofParseTree unknownLiterals).normalize {} = .ok rounds draft ∧
        draft.forest.warningsOfAll = [.unknownTag ⟨2⟩ "zz", .unknownStyle ⟨1⟩ "~~"] ∧
        draft.warnings = draft.forest.warningsOfAll ∧
          ∃ again, draft.forest.normalize {} = .ok again draft := by
  have hEnds : (ofParseTree unknownLiterals).TextEndsBranches := by decide +kernel
  obtain ⟨rounds, draft, hRun, -, -, hAll⟩ := normalize_warnings unknownLiterals {}
  have hObserved : observed (fun _ draft => draft.forest.warningsOfAll)
      ((ofParseTree unknownLiterals).normalize {}) =
        some [.unknownTag ⟨2⟩ "zz", .unknownStyle ⟨1⟩ "~~"] := by decide +kernel
  have hWarnings := observe_eq hObserved hRun
  obtain ⟨hAll, hAgain⟩ := hAll hEnds
  exact ⟨hEnds, rounds, draft, hRun, hWarnings, hAll, hAgain⟩

end Forest

end WikiMarkup
