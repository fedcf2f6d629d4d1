import WikiMarkup.Proofs.Forest.Keeping
import WikiMarkup.Proofs.Generic.Becoming

/-!
# Preservation

What normalization preserves of a forest, from beginning to end (`Forest.Preserves`). Nodes become
what they may become. What is gone from below the root was **expendable**: a group, a paragraph, a
forced line break or blank text, or something below one of the latter two. All else keeps its place
above, below, before and behind what else is left, but for a definition mark, which **jumps** over
blank text.

**Key results.** `Preserves.trans`: preservation is kept up from one change to the next. For that it
also has to say what has become of the ancestors of what is left. `Keeps.preserves`: one change
preserves if it is a rearrangement that keeps places and if it loses nothing but what is expendable.
-/

namespace WikiMarkup

namespace Node

/-- A property of nodes that no change gives or takes. -/
structure Settled (property : Node → Prop) : Prop where
  /-- What a node becomes has it exactly if the node has. -/
  iff_of_becomes : ∀ {former latter : Node}, former.Becomes latter →
    (property latter ↔ property former)
  /-- The wrappers that are added do not have it. -/
  not_of_wrapper : ∀ {label : Node}, label.kind = .emphasized ∨ label.kind = .definitionTerm →
    ¬ property label
  /-- Nor does what gains children. -/
  ne_definitionList : ∀ {label : Node}, property label → label.kind ≠ .definitionList

theorem settled_kind {kind : Kind} (hResolved : ¬ kind.isResolved)
    (hOther : kind ≠ .tag ∧ kind ≠ .style) : Settled (·.kind = kind) where
  iff_of_becomes h := h.kind_eq_iff hResolved hOther
  not_of_wrapper := by
    rintro label (h | h) rfl <;> rw [h] at hResolved <;> exact hResolved rfl
  ne_definitionList := by
    rintro label rfl h
    rw [h] at hResolved
    exact hResolved rfl

theorem settled_isBlankText : Settled IsBlankText where
  iff_of_becomes h := h.isBlankText_iff
  not_of_wrapper := by
    rintro label (h | h) ⟨hText, -⟩ <;> rw [h] at hText <;> cases hText
  ne_definitionList := by
    rintro label ⟨h, -⟩ hList
    rw [h] at hList
    cases hList

theorem settled_isBreak : Settled IsBreak where
  iff_of_becomes h := h.isBreak_iff
  not_of_wrapper := by
    rintro label (h | h) (hBreak | ⟨hBreak, -⟩) <;> rw [h] at hBreak <;> cases hBreak
  ne_definitionList := by
    rintro label (h | ⟨h, -⟩) hList <;> rw [h] at hList <;> cases hList

/-- Text or a forced line break. -/
def IsTextOrBreak (node : Node) : Prop := node.kind = .text ∨ node.IsBreak

instance : DecidablePred IsTextOrBreak := fun _ => inferInstanceAs (Decidable (_ ∨ _))

theorem Settled.or {first second : Node → Prop} (hFirst : Settled first)
    (hSecond : Settled second) : Settled fun node => first node ∨ second node where
  iff_of_becomes h := or_congr (hFirst.iff_of_becomes h) (hSecond.iff_of_becomes h)
  not_of_wrapper hWrapper h :=
    h.elim (hFirst.not_of_wrapper hWrapper) (hSecond.not_of_wrapper hWrapper)
  ne_definitionList h := h.elim hFirst.ne_definitionList hSecond.ne_definitionList

theorem settled_isTextOrBreak : Settled IsTextOrBreak :=
  (settled_kind (by decide) (by decide)).or settled_isBreak

/-- A group or a paragraph, which may give up its place to its children. -/
def IsHull (node : Node) : Prop := node.kind = .group ∨ node.kind = .paragraph

theorem settled_isHull : Settled IsHull :=
  (settled_kind (by decide) (by decide)).or (settled_kind (by decide) (by decide))

end Node

namespace Forest

variable {forest middle after : Forest} {id above below first second : NodeId}

/-- A node below or at a forced line break, or below or at blank text that is not preformatted, or
a group or paragraph that is not the root. -/
def Expendable (forest : Forest) (id : NodeId) : Prop :=
  (id ≠ .root ∧ forest.Has Node.IsHull id) ∨
    ∃ above, forest.Reaches above id ∧ (forest.Has Node.IsBreak above ∨
      (forest.Has Node.IsBlankText above ∧ ¬ forest.Under (·.kind = .preFormatted) above))

/-- The second node is below or at a definition mark, the first is below or at blank text and not
below the mark. -/
def Jumps (forest : Forest) (first second : NodeId) : Prop :=
  ∃ blank mark, forest.Has Node.IsBlankText blank ∧ forest.Reaches blank first ∧
    forest.Has Node.IsDefinitionMark mark ∧ forest.Reaches mark second ∧
    ¬ forest.Reaches mark first

/-- What normalization preserves of a forest. -/
structure Preserves (forest after : Forest) : Prop where
  /-- The forest stays well-formed. -/
  wellFormed : after.WellFormed
  /-- No node goes from the table. -/
  mem : ∀ {id : NodeId}, id ∈ forest → id ∈ after
  /-- A node becomes what it may become. -/
  becomes : ∀ {id : NodeId} {former : Node}, forest.label? id = some former →
    ∃ latter, after.label? id = some latter ∧ former.Becomes latter
  /-- New nodes are wrappers. -/
  wrapper_of_notMem : ∀ {id : NodeId} {label : Node}, id ∉ forest → after.label? id = some label →
    label.kind = .emphasized ∨ label.kind = .definitionTerm
  /-- No node comes back below the root. -/
  root_reaches : ∀ {id : NodeId}, id ∈ forest → after.Reaches .root id → forest.Reaches .root id
  /-- What was above another node stays above it. -/
  reaches : ∀ {above below : NodeId}, above ∈ forest → after.Reaches .root above →
    after.Reaches .root below → forest.Reaches above below → after.Reaches above below
  /-- What is above another node was above it, unless it is a definition list. -/
  reaches_back : ∀ {above below : NodeId}, above ∈ forest → below ∈ forest →
    after.Reaches above below →
      forest.Reaches above below ∨ after.Has (·.kind = .definitionList) above
  /-- What came before another node still does, unless the other one jumps. -/
  before : ∀ {first second : NodeId}, first ∈ forest → second ∈ forest →
    after.Reaches .root first → after.Reaches .root second → forest.Before first second →
      after.Before first second ∨ forest.Jumps first second
  /-- What is gone from above a node that is left was a group or a paragraph. -/
  isHull : ∀ {above below : NodeId}, above ∈ forest → forest.Reaches above below →
    after.Reaches .root below → ¬ after.Reaches .root above → forest.Has Node.IsHull above
  /-- What is gone was expendable. -/
  expendable : ∀ {id : NodeId}, forest.Reaches .root id → ¬ after.Reaches .root id →
    forest.Expendable id
  /-- Preformatted text keeps its words. -/
  preformatted : ∀ {id : NodeId}, forest.Has (·.kind = .text) id →
    forest.Under (·.kind = .preFormatted) id → after.Reaches .root id →
      after.label? id = forest.label? id

/-! ### What is settled -/

/-- What reaches a node below the root is below the root. -/
theorem Linked.root_reaches_of_reaches (linked : forest.Linked) (h : forest.Reaches above below)
    (hBelow : forest.Reaches .root below) : forest.Reaches .root above := by
  rcases linked.reaches_total h hBelow with hRoot | hRoot
  · rw [linked.eq_root_of_reaches_root hRoot]
  · exact hRoot

namespace Preserves

variable (preserves : forest.Preserves after) {property : Node → Prop}

include preserves

/-- Whatever is settled holds of a node exactly if it held of it before. -/
theorem has_iff (settled : Node.Settled property) :
    after.Has property id ↔ forest.Has property id := by
  by_cases hMem : id ∈ forest
  · obtain ⟨former, hFormer⟩ := exists_label?_of_mem hMem
    obtain ⟨latter, hLatter, hBecomes⟩ := preserves.becomes hFormer
    rw [has_iff_of_label? hFormer, has_iff_of_label? hLatter, settled.iff_of_becomes hBecomes]
  · refine iff_of_false ?_ fun h => hMem h.mem
    rintro ⟨label, hLabel, hProperty⟩
    exact settled.not_of_wrapper (preserves.wrapper_of_notMem hMem hLabel) hProperty

/-- What is generic was so before, and is what it was. -/
theorem label?_eq_of_isGeneric {label : Node} (hLabel : after.label? id = some label)
    (hGeneric : label.kind.isGeneric) : forest.label? id = some label := by
  by_cases hMem : id ∈ forest
  · obtain ⟨former, hFormer⟩ := exists_label?_of_mem hMem
    obtain ⟨latter, hLatter, hBecomes⟩ := preserves.becomes hFormer
    rw [hLabel, Option.some_inj] at hLatter
    subst hLatter
    rw [hFormer, hBecomes.eq_of_isGeneric hGeneric]
  · rcases preserves.wrapper_of_notMem hMem hLabel with h | h <;> rw [h] at hGeneric <;>
      cases hGeneric

theorem mem_of_has (settled : Node.Settled property) (h : after.Has property id) : id ∈ forest :=
  ((preserves.has_iff settled).mp h).mem

/-- What has a settled property was above all that it is above. -/
theorem reaches_of_has (settled : Node.Settled property) (hAbove : after.Has property above)
    (hBelow : below ∈ forest) (h : after.Reaches above below) : forest.Reaches above below := by
  refine (preserves.reaches_back (preserves.mem_of_has settled hAbove) hBelow h).resolve_right ?_
  rintro ⟨label, hLabel, hKind⟩
  exact settled.ne_definitionList ((has_iff_of_label? hLabel).mp hAbove) hKind

/-- What is above a node and has a settled property was above it before. -/
theorem under_of_under (settled : Node.Settled property) (hId : id ∈ forest)
    (h : after.Under property id) : forest.Under property id := by
  obtain ⟨above, hNe, hAbove, hProperty⟩ := h
  exact ⟨above, hNe, preserves.reaches_of_has settled hProperty hId hAbove,
    (preserves.has_iff settled).mp hProperty⟩

/-- What has a kind that is not generic keeps it. -/
theorem has_kind {kind : Kind} (hKind : ¬ kind.isGeneric) (h : forest.Has (·.kind = kind) id) :
    after.Has (·.kind = kind) id := by
  obtain ⟨former, hFormer, rfl⟩ := h
  obtain ⟨latter, hLatter, hBecomes⟩ := preserves.becomes hFormer
  exact ⟨latter, hLatter,
    hBecomes.kind_eq_of_not_isResolvable fun hResolvable => hKind hResolvable.isGeneric⟩

/-- A node of a settled kind, other than groups and paragraphs, is above a node that is left exactly
if it was above it before. -/
theorem under_iff {kind : Kind} (hResolved : ¬ kind.isResolved)
    (hOther : (kind ≠ .tag ∧ kind ≠ .style) ∧ kind ≠ .group ∧ kind ≠ .paragraph)
    (hId : id ∈ forest) (hReaches : after.Reaches .root id) :
    after.Under (·.kind = kind) id ↔ forest.Under (·.kind = kind) id := by
  have settled := Node.settled_kind hResolved hOther.1
  constructor
  · exact preserves.under_of_under settled hId
  · rintro ⟨above, hNe, hAbove, hKind⟩
    have hRoot : after.Reaches .root above := by
      by_contra hGone
      obtain ⟨label, hLabel, hHull⟩ := preserves.isHull hKind.mem hAbove hReaches hGone
      rw [has_iff_of_label? hLabel] at hKind
      rcases hHull with h | h
      · exact hOther.2.1 (hKind ▸ h)
      · exact hOther.2.2 (hKind ▸ h)
    exact ⟨above, hNe, preserves.reaches hKind.mem hRoot hReaches hAbove,
      (preserves.has_iff settled).mpr hKind⟩

end Preserves

/-! ### From one change to the next -/

theorem WellFormed.preserves_self (wellFormed : forest.WellFormed) : forest.Preserves forest where
  wellFormed := wellFormed
  mem h := h
  becomes h := ⟨_, h, .same rfl⟩
  wrapper_of_notMem hNot h := absurd (mem_of_label? h) hNot
  root_reaches _ h := h
  reaches _ _ _ h := h
  reaches_back _ _ h := .inl h
  before _ _ _ _ h := .inl h
  isHull _ h hBelow hAbove :=
    absurd (wellFormed.linked.root_reaches_of_reaches h hBelow) hAbove
  expendable h hGone := absurd h hGone
  preformatted _ _ _ := rfl

section

variable (preserves : forest.Preserves middle)

include preserves

/-- What is expendable after a change was expendable before. -/
theorem Preserves.expendable_of_expendable (hId : id ∈ forest)
    (hReaches : middle.Reaches .root id) (h : middle.Expendable id) : forest.Expendable id := by
  have linked := preserves.wellFormed.linked
  refine h.imp (And.imp_right (preserves.has_iff Node.settled_isHull).mp) ?_
  rintro ⟨above, hAbove, hBreak | ⟨hBlank, hPlain⟩⟩
  · exact ⟨above, preserves.reaches_of_has Node.settled_isBreak hBreak hId hAbove,
      .inl ((preserves.has_iff Node.settled_isBreak).mp hBreak)⟩
  · refine ⟨above, preserves.reaches_of_has Node.settled_isBlankText hBlank hId hAbove,
      .inr ⟨(preserves.has_iff Node.settled_isBlankText).mp hBlank, ?_⟩⟩
    rwa [← preserves.under_iff (by decide) (by decide)
      (preserves.mem_of_has Node.settled_isBlankText hBlank)
      (linked.root_reaches_of_reaches hAbove hReaches)]

/-- What jumps after a change would have jumped before. -/
theorem Preserves.jumps_of_jumps (hFirst : first ∈ forest) (hSecond : second ∈ forest)
    (hFirstReaches : middle.Reaches .root first) (hSecondReaches : middle.Reaches .root second)
    (h : middle.Jumps first second) : forest.Jumps first second := by
  have linked := preserves.wellFormed.linked
  obtain ⟨blank, mark, hBlank, hBlankFirst, ⟨label, hLabel, hMark⟩, hMarkSecond, hNot⟩ := h
  have hGeneric : label.kind.isGeneric := by
    rw [hMark.1]
    rfl
  have hFormer := preserves.label?_eq_of_isGeneric hLabel hGeneric
  refine ⟨blank, mark, (preserves.has_iff Node.settled_isBlankText).mp hBlank,
    preserves.reaches_of_has Node.settled_isBlankText hBlank hFirst hBlankFirst,
    ⟨label, hFormer, hMark⟩, ?_, fun h => hNot ?_⟩
  · refine (preserves.reaches_back (mem_of_label? hFormer) hSecond hMarkSecond).resolve_right ?_
    rw [has_iff_of_label? hLabel, hMark.1]
    exact nofun
  · exact preserves.reaches (mem_of_label? hFormer)
      (linked.root_reaches_of_reaches hMarkSecond hSecondReaches) hFirstReaches h

/-- **Preservation is kept up** from one change to the next. -/
theorem Preserves.trans (linked : forest.Linked) (hAfter : middle.Preserves after) :
    forest.Preserves after where
  wellFormed := hAfter.wellFormed
  mem h := hAfter.mem (preserves.mem h)
  becomes h := by
    obtain ⟨label, hLabel, hBecomes⟩ := preserves.becomes h
    obtain ⟨latter, hLatter, hLast⟩ := hAfter.becomes hLabel
    exact ⟨latter, hLatter, hBecomes.trans hLast⟩
  wrapper_of_notMem {id latter} hNot hLatter := by
    by_cases hMiddle : id ∈ middle
    · obtain ⟨label, hLabel⟩ := exists_label?_of_mem hMiddle
      have hKept : ∀ {kind : Kind}, ¬ kind.isGeneric → label.kind = kind → latter.kind = kind :=
        fun hKind h => (has_iff_of_label? hLatter).mp (hAfter.has_kind hKind ⟨label, hLabel, h⟩)
      exact (preserves.wrapper_of_notMem hNot hLabel).imp (hKept (by decide)) (hKept (by decide))
    · exact hAfter.wrapper_of_notMem hMiddle hLatter
  root_reaches hId h := preserves.root_reaches hId (hAfter.root_reaches (preserves.mem hId) h)
  reaches {above below} hAbove hAboveReaches hBelowReaches h := by
    have hBelow := linked.mem_of_reaches hAbove h
    exact hAfter.reaches (preserves.mem hAbove) hAboveReaches hBelowReaches
      (preserves.reaches hAbove (hAfter.root_reaches (preserves.mem hAbove) hAboveReaches)
        (hAfter.root_reaches (preserves.mem hBelow) hBelowReaches) h)
  reaches_back hAbove hBelow h := by
    rcases hAfter.reaches_back (preserves.mem hAbove) (preserves.mem hBelow) h with h | h
    · exact (preserves.reaches_back hAbove hBelow h).imp_right (hAfter.has_kind (by decide))
    · exact .inr h
  before {first second} hFirst hSecond hFirstReaches hSecondReaches h := by
    have hFirstMiddle := hAfter.root_reaches (preserves.mem hFirst) hFirstReaches
    have hSecondMiddle := hAfter.root_reaches (preserves.mem hSecond) hSecondReaches
    rcases preserves.before hFirst hSecond hFirstMiddle hSecondMiddle h with h | h
    · exact (hAfter.before (preserves.mem hFirst) (preserves.mem hSecond) hFirstReaches
        hSecondReaches h).imp_right
          (preserves.jumps_of_jumps hFirst hSecond hFirstMiddle hSecondMiddle)
    · exact .inr h
  isHull {above below} hAbove h hBelow hGone := by
    have hMiddle := hAfter.root_reaches (preserves.mem (linked.mem_of_reaches hAbove h)) hBelow
    by_cases hAboveMiddle : middle.Reaches .root above
    · exact (preserves.has_iff Node.settled_isHull).mp (hAfter.isHull (preserves.mem hAbove)
        (preserves.reaches hAbove hAboveMiddle hMiddle h) hBelow hGone)
    · exact preserves.isHull hAbove h hMiddle hAboveMiddle
  expendable {id} h hGone := by
    by_cases hMiddle : middle.Reaches .root id
    · exact preserves.expendable_of_expendable (linked.mem_of_reaches forest.root_mem h) hMiddle
        (hAfter.expendable hMiddle hGone)
    · exact preserves.expendable h hMiddle
  preformatted hText hUnder hReaches := by
    have hMiddle := hAfter.root_reaches (preserves.mem hText.mem) hReaches
    have hTextMiddle :=
      (preserves.has_iff (Node.settled_kind (by decide) (by decide))).mpr hText
    have hUnderMiddle :=
      (preserves.under_iff (by decide) (by decide) hText.mem hMiddle).mpr hUnder
    exact (hAfter.preformatted hTextMiddle hUnderMiddle hReaches).trans
      (preserves.preformatted hText hUnder hMiddle)

end

/-! ### One change -/

/-- What a change that preserves does to nodes, links apart. -/
structure Relabels (forest after : Forest) : Prop where
  /-- A node becomes what it may become. -/
  becomes : ∀ {id : NodeId} {former : Node}, forest.label? id = some former →
    ∃ latter, after.label? id = some latter ∧ former.Becomes latter
  /-- New nodes are wrappers. -/
  wrapper_of_notMem : ∀ {id : NodeId} {label : Node}, id ∉ forest → after.label? id = some label →
    label.kind = .emphasized ∨ label.kind = .definitionTerm
  /-- Preformatted text keeps its words. -/
  preformatted : ∀ {id : NodeId}, forest.Has (·.kind = .text) id →
    forest.Under (·.kind = .preFormatted) id → after.label? id = forest.label? id

theorem relabels_of_label?_eq (h : ∀ id, after.label? id = forest.label? id) :
    forest.Relabels after where
  becomes {id former} hFormer := ⟨former, by rw [h, hFormer], .same rfl⟩
  wrapper_of_notMem {id label} hNot hLabel := by
    rw [h] at hLabel
    exact absurd (mem_of_label? hLabel) hNot
  preformatted _ _ := h _

theorem Relabels.congr (relabels : forest.Relabels middle)
    (h : ∀ id, after.label? id = middle.label? id) : forest.Relabels after where
  becomes hFormer := by
    rw [h]
    exact relabels.becomes hFormer
  wrapper_of_notMem hNot hLabel := by
    rw [h] at hLabel
    exact relabels.wrapper_of_notMem hNot hLabel
  preformatted hText hUnder := by
    rw [h]
    exact relabels.preformatted hText hUnder

theorem Relabelled.relabels (h : forest.Relabelled after id)
    (hPlain : forest.Has (·.kind = .text) id → ¬ forest.Under (·.kind = .preFormatted) id) :
    forest.Relabels after where
  becomes {other former} hFormer := by
    by_cases hOther : other = id
    · subst hOther
      exact h.becomes hFormer
    · exact ⟨former, by rw [h.others hOther, hFormer], .same rfl⟩
  wrapper_of_notMem hNot hLabel := absurd (h.same.mem_iff.mp (mem_of_label? hLabel)) hNot
  preformatted {other} hText hUnder := by
    refine h.others ?_
    rintro rfl
    exact hPlain hText hUnder

/-- The wrapper is the only new node. -/
theorem Relabels.wrapped {wrapper : NodeId} {kind : Kind} (relabels : forest.Relabels middle)
    (wrapped : middle.Wrapped after id wrapper kind) (hMem : ∀ id, id ∈ forest → id ∈ middle)
    (hKind : kind = .emphasized ∨ kind = .definitionTerm) : forest.Relabels after where
  becomes {other former} hFormer := by
    have hNe : other ≠ wrapper := fun h =>
      wrapped.notMem (h ▸ hMem other (mem_of_label? hFormer))
    rw [wrapped.label?_eq other hNe]
    exact relabels.becomes hFormer
  wrapper_of_notMem {other label} hNot hLabel := by
    by_cases hOther : other = wrapper
    · rw [hOther, wrapped.label?_wrapper, Option.some_inj] at hLabel
      exact hLabel ▸ hKind
    · rw [wrapped.label?_eq other hOther] at hLabel
      exact relabels.wrapper_of_notMem hNot hLabel
  preformatted {other} hText hUnder := by
    have hNe : other ≠ wrapper := fun h => wrapped.notMem (h ▸ hMem other hText.mem)
    rw [wrapped.label?_eq other hNe]
    exact relabels.preformatted hText hUnder

/-- **A rearrangement that keeps places preserves** if what it loses is expendable, what has grown
is a definition list, and what has been passed is blank text. -/
theorem Keeps.preserves {Lost : NodeId → Prop}
    (keeps : forest.Keeps after Lost (after.Has (·.kind = .definitionList)) forest.Jumps)
    (linked : forest.Linked) (relabels : forest.Relabels after)
    (hHull : ∀ above below, forest.Reaches above below → Lost above → ¬ Lost below →
      forest.Has Node.IsHull above)
    (hExpendable : ∀ id, forest.Reaches .root id → Lost id → forest.Expendable id) :
    forest.Preserves after where
  wellFormed := keeps.wellFormed
  mem := keeps.mem
  becomes := relabels.becomes
  wrapper_of_notMem := relabels.wrapper_of_notMem
  root_reaches hId h := ((keeps.root_reaches_iff hId).mp h).1
  reaches hAbove hAboveReaches hBelowReaches h :=
    keeps.reaches ((keeps.root_reaches_iff hAbove).mp hAboveReaches).2
      ((keeps.root_reaches_iff (linked.mem_of_reaches hAbove h)).mp hBelowReaches).2 h
  reaches_back := keeps.reaches_back
  before hFirst hSecond hFirstReaches hSecondReaches :=
    keeps.before ((keeps.root_reaches_iff hFirst).mp hFirstReaches).2
      ((keeps.root_reaches_iff hSecond).mp hSecondReaches).2
  isHull {above below} hAbove h hBelow hGone := by
    obtain ⟨hFormer, hLeft⟩ := (keeps.root_reaches_iff (linked.mem_of_reaches hAbove h)).mp hBelow
    refine hHull above below h ?_ hLeft
    by_contra hNot
    exact hGone ((keeps.root_reaches_iff hAbove).mpr
      ⟨linked.root_reaches_of_reaches h hFormer, hNot⟩)
  expendable {id} h hGone := by
    refine hExpendable id h ?_
    by_contra hNot
    exact hGone ((keeps.root_reaches_iff (linked.mem_of_reaches forest.root_mem h)).mpr ⟨h, hNot⟩)
  preformatted hText hUnder _ := relabels.preformatted hText hUnder

end Forest

end WikiMarkup
