import WikiMarkup.Proofs.Passes

/-!
# What becomes of each node

`Forest.Fate` says what normalization makes of a node, whether or not the node is still below the
root in the end: which of its fields may change, and to what. It also says what stays the same.

**Key result.** `normalize_fates`: each node that a parser hands over meets its fate, and the forest
grows by one node for each style that is split in two.

A style whose token has a meaning need not be resolved: if it stands below blank text, which only
happens in trees that no page is parsed to, it may be gone before styles are resolved
(`not_forall_style_resolved`).
-/

namespace WikiMarkup

namespace Forest

/-- What becomes of a node of a forest, and what does not change. -/
structure Fate (settings : Settings) (forest after : Forest) (id : NodeId) (former latter : Node) :
    Prop where
  /-- What the parser says about layout is kept. -/
  inlineHint_eq : latter.inlineHint = former.inlineHint
  /-- Only tags and styles get another kind. -/
  kind_eq : former.kind ≠ .tag → former.kind ≠ .style → latter.kind = former.kind
  /-- Nothing becomes generic. -/
  not_isGeneric : ¬ former.kind.isGeneric → ¬ latter.kind.isGeneric
  /-- A heading tag becomes a section of its level, and loses its name. -/
  heading : former.kind = .tag → ∀ level, levelOfHeading? former.caption = some level →
    latter.kind = .docSection ∧ latter.headingLevel = some level ∧ latter.caption = ""
  /-- Any other tag becomes something else, or stays a tag, and keeps its name and its level. -/
  tag : former.kind = .tag → levelOfHeading? former.caption = none →
    latter.kind ≠ .docSection ∧ latter.headingLevel = former.headingLevel ∧
      latter.caption = former.caption
  /-- The level changes nowhere else. -/
  headingLevel_eq : former.kind ≠ .tag → latter.headingLevel = former.headingLevel
  /-- A style without meaning stays one, and keeps its token. -/
  unknownStyle : former.kind = .style → StyleMark.ofToken former.caption = none →
    latter.kind = .style ∧ latter.caption = former.caption
  /-- A style with a meaning loses its token, unless it becomes an indented block, or it has been
  taken off the tree together with the blank text that it stood below. -/
  knownStyle : former.kind = .style → StyleMark.ofToken former.caption ≠ none →
    (latter.kind.isResolved ∧ latter.caption = "") ∨
      (latter.kind = .indented ∧ latter.caption = former.caption) ∨
      (latter.kind = .style ∧ latter.caption = former.caption ∧
        id ∉ after.reachable ∧ forest.Under Node.IsBlankText id)
  /-- Preformatted text keeps its words. -/
  preformatted : former.kind = .text → forest.Under (·.kind = .preFormatted) id →
    latter.caption = former.caption
  /-- In any other text lines may be folded, if the settings ask for it. -/
  text : former.kind = .text → latter.caption = former.caption ∨
    (settings.foldLines ∧ foldLines? former.caption = some latter.caption)
  /-- All other captions are kept. -/
  caption_eq : former.kind ≠ .tag → former.kind ≠ .style → former.kind ≠ .text →
    latter.caption = former.caption

variable {settings : Settings} {forest after : Forest} {id : NodeId} {former latter : Node}
  {splits : Bool}

/-- The names of headings are not in the table of tags, and no other tag becomes a section. -/
theorem kind_ne_docSection {tagName : String} {kind : Kind}
    (h : Kind.ofTagName? tagName = some kind) : kind ≠ .docSection := by
  have hTable : ∀ entry ∈ tagTable, entry.2 ≠ .docSection := by decide
  exact hTable _ (mem_of_lookup h)

/-- The fate of a tag is told by its name. -/
theorem fate_of_tag (hKind : former.kind = .tag) (hHint : latter.inlineHint = former.inlineHint)
    (hHeading : ∀ level, levelOfHeading? former.caption = some level →
      latter.kind = .docSection ∧ latter.headingLevel = some level ∧ latter.caption = "")
    (hOther : levelOfHeading? former.caption = none →
      latter.kind ≠ .docSection ∧ latter.headingLevel = former.headingLevel ∧
        latter.caption = former.caption) :
    Fate settings forest after id former latter where
  inlineHint_eq := hHint
  kind_eq h := absurd hKind h
  not_isGeneric h := absurd (by rw [hKind]; rfl) h
  heading _ := hHeading
  tag _ := hOther
  headingLevel_eq h := absurd hKind h
  unknownStyle h := nomatch hKind.symm.trans h
  knownStyle h := nomatch hKind.symm.trans h
  preformatted h := nomatch hKind.symm.trans h
  text h := nomatch hKind.symm.trans h
  caption_eq h := absurd hKind h

/-- The fate of a style with a meaning is told by what its mark asks for. -/
theorem fate_of_style (hKind : former.kind = .style)
    (hMark : StyleMark.ofToken former.caption ≠ none)
    (hHint : latter.inlineHint = former.inlineHint)
    (hLevel : latter.headingLevel = former.headingLevel)
    (hOutcome : (latter.kind.isResolved ∧ latter.caption = "") ∨
      (latter.kind = .indented ∧ latter.caption = former.caption)) :
    Fate settings forest after id former latter where
  inlineHint_eq := hHint
  kind_eq _ h := absurd hKind h
  not_isGeneric h := absurd (by rw [hKind]; rfl) h
  heading h := nomatch hKind.symm.trans h
  tag h := nomatch hKind.symm.trans h
  headingLevel_eq _ := hLevel
  unknownStyle _ hNone := absurd hNone hMark
  knownStyle _ _ := hOutcome.imp_right .inl
  preformatted h := nomatch hKind.symm.trans h
  text h := nomatch hKind.symm.trans h
  caption_eq _ h := absurd hKind h

/-- What is revised meets its fate, if a tag or a style that is left has no meaning. -/
theorem fate_of_revision
    (h : former.Revision settings (¬ forest.Under (·.kind = .preFormatted) id) latter splits)
    (hTag : latter.TagResolved) (hStyle : latter.StyleResolved ∨
      (id ∉ after.reachable ∧ forest.Under Node.IsBlankText id)) :
    Fate settings forest after id former latter := by
  cases h with
  | same =>
    by_cases hKind : former.kind = .tag
    · refine fate_of_tag hKind rfl (fun level hLevel => ?_) fun _ => ⟨?_, rfl, rfl⟩
      · rw [(hTag hKind).1] at hLevel
        cases hLevel
      · rw [hKind]
        nofun
    · refine ⟨rfl, fun _ _ => rfl, fun h => h, fun h => absurd h hKind, fun h => absurd h hKind,
        fun _ => rfl, fun h _ => ⟨h, rfl⟩, fun h hKnown => .inr (.inr ⟨h, rfl, ?_⟩), fun _ _ => rfl,
        fun _ => .inl rfl, fun _ _ _ => rfl⟩
      exact hStyle.resolve_left fun hUnknown => hKnown (hUnknown h)
  | folded hPlain hText hSettings hFold =>
    refine ⟨rfl, fun _ _ => rfl, fun h => h, ?_, ?_, fun _ => rfl, ?_, ?_,
      fun _ hUnder => absurd hUnder hPlain, fun _ => .inr ⟨hSettings, hFold⟩,
      fun _ _ hKind => absurd hText hKind⟩ <;>
      exact fun hKind => nomatch hText.symm.trans hKind
  | resolved hKind hResolved =>
    unfold Node.resolvedTag? at hResolved
    split at hResolved
    next level hLevel =>
      cases hResolved
      refine fate_of_tag hKind rfl (fun other hOther => ?_) fun hNone => ?_
      · rw [hLevel] at hOther
        exact ⟨rfl, hOther, rfl⟩
      · rw [hLevel] at hNone
        cases hNone
    next hLevel =>
      obtain ⟨kind, hFound, rfl⟩ := Option.map_eq_some_iff.mp hResolved
      refine fate_of_tag hKind rfl (fun level hSome => ?_)
        fun _ => ⟨kind_ne_docSection hFound, rfl, rfl⟩
      rw [hLevel] at hSome
      cases hSome
  | retagged hKind hMark hOutcome =>
    have hResolved := (StyleMark.isResolved_of_outcomes hMark hOutcome).1.1
    exact fate_of_style hKind (by rw [hMark]; nofun) rfl rfl (.inl ⟨hResolved, rfl⟩)
  | indented hKind hMark =>
    exact fate_of_style hKind (by rw [hMark]; nofun) rfl rfl (.inr ⟨rfl, rfl⟩)

/-- Whatever is on a node besides its links meets the same fate. -/
theorem Fate.of_unlinked (h : Fate settings forest after id former.unlinked latter.unlinked) :
    Fate settings forest after id former latter :=
  ⟨h.inlineHint_eq, h.kind_eq, h.not_isGeneric, h.heading, h.tag, h.headingLevel_eq,
    h.unknownStyle, h.knownStyle, h.preformatted, h.text, h.caption_eq⟩

/-- **Fates.** Whatever a parser hands over, normalization comes to its end. Then each node has met
its fate, and there is one more node for each style that has been split. -/
theorem normalize_fates (tree : ParseTree) (settings : Settings) :
    ∃ rounds draft, (ofParseTree tree).normalize settings = .ok rounds draft ∧
      (∀ (id : NodeId) (former : Node), (ofParseTree tree).get? id = some former →
        ∃ latter, draft.forest.get? id = some latter ∧
          Fate settings (ofParseTree tree) draft.forest id former latter) ∧
      draft.forest.size =
        tree.size + (ofParseTree tree).ids.countP ((ofParseTree tree).IsSplit draft.forest ·) := by
  obtain ⟨linked, _, after, rounds, same, course⟩ := Pass.exists_course tree settings
  obtain ⟨_, _, _, _, _, _, passes⟩ := Pass.exists_passes course.link course.run
  have wellFormed := course.linked_wellFormed
  have revised := passes.revised wellFormed
  refine ⟨rounds, _, course.run, fun id former hFormer => ?_, ?_⟩
  · have hLabel : linked.label? id = some former.unlinked := by
      rw [same.label?_eq, label?_of_get? hFormer]
    have hReaches : linked.Reaches .root id :=
      same.reaches_iff.mpr (reaches_ofParseTree (mem_of_get? hFormer))
    obtain ⟨latter, splits, hLatter, hRevision⟩ := revised.node hLabel
    obtain ⟨found, hFound, rfl⟩ := Option.map_eq_some_iff.mp hLatter
    have hTag := passes.tagResolved wellFormed hReaches hLatter
    have hStyle := passes.styleResolved wellFormed hReaches hLatter
    rw [← revised.preserves.wellFormed.mem_reachable_iff, same.under_iff] at hStyle
    have hPlain : ¬ linked.Under (·.kind = .preFormatted) id →
        ¬ (ofParseTree tree).Under (·.kind = .preFormatted) id := mt same.under_iff.mpr
    exact ⟨found, hFound, (fate_of_revision (hRevision.mono hPlain) hTag hStyle).of_unlinked⟩
  · have hSplit : ∀ id, linked.IsSplit after id ↔ (ofParseTree tree).IsSplit after id := by
      intro id
      rw [IsSplit, IsSplit, kind?_congr (same.label?_eq id), caption_congr (same.label?_eq id)]
    have hIds : linked.ids = (ofParseTree tree).ids := by
      rw [ids, ids, same.size_eq]
    have hSize := revised.size_eq
    rw [same.size_eq, size_ofParseTree, hIds] at hSize
    simpa only [hSplit] using hSize

/-- Emphasis below blank text. -/
def emphasisBelowBlank : ParseTree :=
  .node .article "" [.node .text " " [.node .style "''" [] none none] none none] none none

/-- **Not every style that has a meaning is resolved**: blank text at a block is detached with all
that is below it before styles are resolved. -/
theorem not_forall_style_resolved :
    ¬ ∀ (tree : ParseTree) (settings : Settings) (id : NodeId) (former : Node),
      (ofParseTree tree).get? id = some former → former.kind = .style →
        ∃ rounds draft latter, (ofParseTree tree).normalize settings = .ok rounds draft ∧
          draft.forest.get? id = some latter ∧
          ((latter.caption = former.caption ∧
              (StyleMark.ofToken former.caption = none ∨ latter.kind = .indented)) ∨
            latter.caption = "") := by
  intro h
  obtain ⟨rounds, draft, latter, hRun, hLatter, hCaption⟩ :=
    h emphasisBelowBlank {} ⟨2⟩ { kind := .style, caption := "''" } (by decide +kernel) rfl
  have hObserved : observed (fun _ draft => draft.forest.get? ⟨2⟩)
      ((ofParseTree emphasisBelowBlank).normalize {}) =
        some (some { kind := .style, caption := "''", parent := some ⟨1⟩ }) := by decide +kernel
  have hAfter := observe_eq hObserved hRun
  rw [hLatter, Option.some_inj] at hAfter
  subst hAfter
  exact absurd hCaption (by decide)

end Forest

end WikiMarkup
