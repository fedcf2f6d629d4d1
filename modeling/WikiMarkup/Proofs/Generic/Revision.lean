import WikiMarkup.Proofs.Flow.Cleanup
import WikiMarkup.Proofs.Generic.Style
import WikiMarkup.Proofs.Generic.Tag
import WikiMarkup.Proofs.Visits

/-!
# What may change in a node

`Node.Revision` says exactly what a visit may make of a node, links apart: a text may be folded, a
tag resolved, and a style may lose its token and get another kind, or become an indented block. A
node is revised at most once, since nothing that comes out of a revision can be revised again
(`Revision.trans`). Some marks ask for a second node; `StyleMark.outcomes` says which.

**Key result.** `Visit.perform_revises`: a visit revises its own node and no other, and the forest
grows by one node exactly if the mark of a style asks for one.
-/

namespace WikiMarkup

/-! ### Nodes -/

/-- A style has become the outer one of two nodes. -/
def Node.IsSplit (former latter : Node) : Prop :=
  former.kind = .style ∧ ((former.caption = "'''''" ∧ latter.kind = .strong) ∨
    (former.caption = ";" ∧ latter.kind = .definitionList))

instance (former latter : Node) : Decidable (former.IsSplit latter) :=
  inferInstanceAs (Decidable (_ ∧ _))

/-- What may be made of a node, and whether a second node is added for it. -/
inductive Node.Revision (settings : Settings) (plain : Prop) (former : Node) : Node → Bool → Prop
  /-- It stays what it is. -/
  | same : Revision settings plain former former false
  /-- The lines of a text that is not preformatted are folded, if the settings ask for it. -/
  | folded {folded : String} (hPlain : plain) (hText : former.kind = .text)
      (hSettings : settings.foldLines) (hFold : foldLines? former.caption = some folded) :
      Revision settings plain former { former with caption := folded } false
  /-- A tag is resolved. -/
  | resolved {latter : Node} (hTag : former.kind = .tag) (h : former.resolvedTag? = some latter) :
      Revision settings plain former latter false
  /-- A style gets another kind and loses its token. -/
  | retagged {mark : StyleMark} {kind : Kind} {splits : Bool} (hStyle : former.kind = .style)
      (hMark : StyleMark.ofToken former.caption = some mark)
      (hOutcome : (kind, splits) ∈ mark.outcomes) :
      Revision settings plain former { former with kind := kind, caption := "" } splits
  /-- A description with no list to continue becomes an indented block, and keeps its token. -/
  | indented (hStyle : former.kind = .style)
      (hMark : StyleMark.ofToken former.caption = some .description) :
      Revision settings plain former { former with kind := .indented } false

namespace Node.Revision

variable {settings : Settings} {plain : Prop} {former middle latter : Node} {splits more : Bool}

/-- A node that has been revised is not generic, and if it is text it has no lines to fold. -/
theorem eq_or_done (h : Revision settings plain former latter splits) :
    (latter = former ∧ splits = false) ∨
      (¬ latter.kind.isGeneric ∧ (latter.kind = .text → foldLines? latter.caption = none)) := by
  cases h with
  | same => exact .inl ⟨rfl, rfl⟩
  | folded _ hText _ hFold =>
    exact .inr ⟨by rw [hText]; exact Bool.false_ne_true, fun _ => foldLines?_foldLines? hFold⟩
  | resolved _ h =>
    have hResolved := (resolvedTag?_eq_some h).2.2.1
    refine .inr ⟨Kind.not_isGeneric_of_isResolved hResolved, fun hText => ?_⟩
    rw [hText] at hResolved
    cases hResolved
  | retagged _ hMark hOutcome =>
    have hResolved := (StyleMark.isResolved_of_outcomes hMark hOutcome).1.1
    refine .inr ⟨Kind.not_isGeneric_of_isResolved hResolved, fun hText => ?_⟩
    dsimp only at hText
    rw [hText] at hResolved
    cases hResolved
  | indented => exact .inr ⟨Bool.false_ne_true, nofun⟩

/-- What has been revised is not revised again. -/
theorem eq_of_done (h : Revision settings plain middle latter more)
    (hGeneric : ¬ middle.kind.isGeneric)
    (hLines : middle.kind = .text → foldLines? middle.caption = none) :
    latter = middle ∧ more = false := by
  cases h with
  | same => exact ⟨rfl, rfl⟩
  | folded _ hText _ hFold =>
    rw [hLines hText] at hFold
    cases hFold
  | resolved hTag => exact absurd (by rw [hTag]; rfl) hGeneric
  | retagged hStyle => exact absurd (by rw [hStyle]; rfl) hGeneric
  | indented hStyle => exact absurd (by rw [hStyle]; rfl) hGeneric

/-- Two revisions, one after the other, are one. -/
theorem trans (h : Revision settings plain former middle splits)
    (hLatter : Revision settings plain middle latter more) :
    Revision settings plain former latter (splits || more) := by
  rcases h.eq_or_done with ⟨rfl, rfl⟩ | ⟨hGeneric, hLines⟩
  · exact hLatter
  · obtain ⟨rfl, rfl⟩ := hLatter.eq_of_done hGeneric hLines
    rwa [Bool.or_false]

/-- What is no style is not split. -/
theorem not_splits_of_kind (h : Revision settings plain former latter splits)
    (hKind : former.kind ≠ .style) : splits = false := by
  cases h with
  | retagged hStyle => exact absurd hStyle hKind
  | _ => rfl

/-- What has been split is not split again. -/
theorem not_splits (h : Revision settings plain former middle splits)
    (hLatter : Revision settings plain middle latter more) (hSplits : splits) : more = false := by
  rcases h.eq_or_done with ⟨-, rfl⟩ | ⟨hGeneric, hLines⟩
  · cases hSplits
  · exact (hLatter.eq_of_done hGeneric hLines).2

/-- A second node is added exactly for what is split. -/
theorem splits_iff (h : Revision settings plain former latter splits) :
    splits ↔ former.IsSplit latter := by
  have hNot : former.kind ≠ .style → ¬ former.IsSplit latter := fun h hSplit => h hSplit.1
  cases h with
  | same =>
    refine iff_of_false Bool.false_ne_true ?_
    rintro ⟨hStyle, ⟨-, h⟩ | ⟨-, h⟩⟩ <;> rw [hStyle] at h <;> cases h
  | folded _ hText => exact iff_of_false Bool.false_ne_true (hNot (by rw [hText]; nofun))
  | resolved hTag => exact iff_of_false Bool.false_ne_true (hNot (by rw [hTag]; nofun))
  | retagged hStyle hMark hOutcome =>
    rw [(StyleMark.isResolved_of_outcomes hMark hOutcome).2, IsSplit, and_iff_right hStyle]
  | indented hStyle =>
    refine iff_of_false Bool.false_ne_true ?_
    rintro ⟨-, ⟨-, h⟩ | ⟨-, h⟩⟩ <;> cases h

theorem mono {other : Prop} (hPlain : plain → other)
    (h : Revision settings plain former latter splits) :
    Revision settings other former latter splits := by
  cases h with
  | same => exact .same
  | folded h hText hSettings hFold => exact .folded (hPlain h) hText hSettings hFold
  | resolved hTag h => exact .resolved hTag h
  | retagged hStyle hMark hOutcome => exact .retagged hStyle hMark hOutcome
  | indented hStyle hMark => exact .indented hStyle hMark

end Node.Revision

namespace Forest

/-- A visit revises its own node and no other. Whatever node it adds is a wrapper, and it adds one
exactly if the revision asks for it. -/
structure Revises (settings : Settings) (plain : Prop) (forest : Forest) (id : NodeId)
    (after : Forest) : Prop where
  /-- The other nodes are not revised. -/
  others : ∀ {other : NodeId}, other ∈ forest → other ≠ id →
    after.label? other = forest.label? other
  /-- The node is revised. -/
  node : ∀ {former : Node}, forest.label? id = some former → ∃ latter splits,
    after.label? id = some latter ∧ former.Revision settings plain latter splits ∧
      after.size = forest.size + if splits then 1 else 0
  /-- If there is no such node none is added. -/
  size_eq : id ∉ forest → after.size = forest.size
  /-- What is added is a wrapper. -/
  wrapper : ∀ {other : NodeId} {label : Node}, other ∉ forest → after.label? other = some label →
    label.kind = .emphasized ∨ label.kind = .definitionTerm

variable {settings : Settings} {plain : Prop} {forest middle after : Forest} {id wrapper : NodeId}

theorem size_eq_of_mem_iff (h : ∀ {other : NodeId}, other ∈ after ↔ other ∈ forest) :
    after.size = forest.size :=
  eq_of_forall_lt_iff fun index => (h : (⟨index⟩ : NodeId) ∈ after ↔ _)

theorem revises_self : forest.Revises settings plain id forest where
  others _ _ := rfl
  node hFormer := ⟨_, false, hFormer, .same, rfl⟩
  size_eq _ := rfl
  wrapper hNot h := absurd (mem_of_label? h) hNot

/-- Links do not matter. -/
theorem Revises.congr (h : forest.Revises settings plain id middle)
    (hLabel : ∀ other, after.label? other = middle.label? other)
    (hMem : ∀ {other : NodeId}, other ∈ after ↔ other ∈ middle) :
    forest.Revises settings plain id after where
  others hMem hOther := (hLabel _).trans (h.others hMem hOther)
  node hFormer := by
    rw [hLabel, size_eq_of_mem_iff hMem]
    exact h.node hFormer
  size_eq hNot := (size_eq_of_mem_iff hMem).trans (h.size_eq hNot)
  wrapper hNot hNew := h.wrapper hNot ((hLabel _).symm.trans hNew)

theorem Revises.mono {other : Prop} (hPlain : plain → other)
    (h : forest.Revises settings plain id after) : forest.Revises settings other id after :=
  { h with
    node := fun hFormer => by
      obtain ⟨latter, splits, hLatter, hRevision, hSize⟩ := h.node hFormer
      exact ⟨latter, splits, hLatter, hRevision.mono hPlain, hSize⟩ }

/-- To change what is on a node revises it. -/
theorem revises_modify {found : Node} {change : Node → Node} (hFound : forest.get? id = some found)
    (h : found.unlinked.Revision settings plain (change found).unlinked false) :
    forest.Revises settings plain id (forest.modify id change) where
  others _ hOther := label?_modify_of_ne (Ne.symm hOther)
  node {former} hFormer := by
    rw [label?_of_get? hFound, Option.some_inj] at hFormer
    refine ⟨_, false, ?_, hFormer ▸ h, size_modify _ _ _⟩
    rw [label?_modify_self, hFound, Option.map_some]
  size_eq _ := size_modify _ _ _
  wrapper hNot h := absurd (mem_modify.mp (mem_of_label? h)) hNot

/-- A wrapper is one more node. -/
theorem Wrapped.size_eq {kind : Kind} (wrapped : forest.Wrapped after id wrapper kind) :
    after.size = forest.size + 1 := by
  have hMem : ∀ index, index < after.size ↔ index < forest.size ∨ index = wrapper.index := by
    intro index
    have hIff : (⟨index⟩ : NodeId) ∈ after ↔ _ := wrapped.mem_iff
    rwa [mem_def, mem_def, NodeId.ext_iff] at hIff
  have hNew : ¬ wrapper.index < forest.size := wrapped.notMem
  have hWrapper := hMem wrapper.index
  have hFirst := hMem forest.size
  have hSecond := hMem (forest.size + 1)
  omega

/-- To change what is on a node and wrap what is below it revises the node. -/
theorem Wrapped.revises {found : Node} {change : Node → Node} {kind : Kind}
    (wrapped : (forest.modify id change).Wrapped after id wrapper kind)
    (hFound : forest.get? id = some found) (hKind : kind = .emphasized ∨ kind = .definitionTerm)
    (h : found.unlinked.Revision settings plain (change found).unlinked true) :
    forest.Revises settings plain id after where
  others {other} hMem hOther := by
    rw [wrapped.label?_eq other fun h => wrapped.notMem (h ▸ mem_modify.mpr hMem),
      label?_modify_of_ne (Ne.symm hOther)]
  node {former} hFormer := by
    have hNe : id ≠ wrapper := fun h =>
      wrapped.notMem (h ▸ mem_modify.mpr (mem_of_label? hFormer))
    rw [label?_of_get? hFound, Option.some_inj] at hFormer
    refine ⟨_, true, ?_, hFormer ▸ h, ?_⟩
    · rw [wrapped.label?_eq id hNe, label?_modify_self, hFound, Option.map_some]
    · rw [wrapped.size_eq, size_modify, if_pos rfl]
  size_eq hNot := absurd (mem_of_get? hFound) hNot
  wrapper {other label} hNot hNew := by
    rcases wrapped.mem_iff.mp (mem_of_label? hNew) with hMem | rfl
    · exact absurd (mem_modify.mp hMem) hNot
    · rw [wrapped.label?_wrapper, Option.some_inj] at hNew
      exact hNew ▸ hKind

end Forest

/-! ### Visits -/

namespace Edit

variable {settings : Settings} {plain : Prop} {forest : Forest} {id : NodeId} {found : Node}

/-- **A mark revises** the style that it is the token of. -/
theorem Applied.revises {mark : StyleMark} {after : Forest} (h : Applied forest id mark after)
    (hFound : forest.get? id = some found) (hStyle : found.kind = .style)
    (hMark : StyleMark.ofToken found.caption = some mark) :
    forest.Revises settings plain id after := by
  have hRevision : ∀ {kind splits}, (kind, splits) ∈ mark.outcomes →
      found.unlinked.Revision settings plain
        { found.unlinked with kind := kind, caption := "" } splits :=
    fun hOutcome => .retagged hStyle hMark hOutcome
  cases h with
  | retagged hOutcome => exact Forest.revises_modify hFound (hRevision hOutcome)
  | wrapped hOutcome hInner wrapped => exact wrapped.revises hFound hInner (hRevision hOutcome)
  | filed _ hOutcome =>
    exact (Forest.revises_modify hFound (hRevision hOutcome)).congr
      (fun _ => Forest.label?_move) Forest.mem_move
  | indented => exact Forest.revises_modify hFound (.indented hStyle hMark)

end Edit

namespace Visit

variable {settings : Settings} {draft : Draft}

/-- The node of a visit. -/
def id : Visit → NodeId
  | resolveTag id | flattenGroup id | tidyText id | resolveStyle id | liftList id
  | dropBreak id => id

/-- A visit comes to its end and revises its node. -/
def Revises (settings : Settings) (plain : Prop) (draft : Draft) (visit : Visit) : Prop :=
  ∃ after, (perform settings visit).run draft = .ok () after ∧
    draft.forest.Revises settings plain visit.id after.forest

theorem resolveTag_revises (settings : Settings) (plain : Prop) (draft : Draft) (id : NodeId) :
    (resolveTag id).Revises settings plain draft := by
  rcases Pass.resolveTag_cases draft id with
    ⟨_, hRun⟩ | ⟨found, resolved, hFound, hKind, hResolved, hRun⟩
  · exact ⟨_, hRun, Forest.revises_self⟩
  · refine ⟨_, hRun, Forest.revises_modify hFound (.resolved hKind ?_)⟩
    rw [Node.resolvedTag?_unlinked, hResolved, Option.map_some]

section

variable (settings : Settings) (wellFormed : draft.forest.WellFormed) (id : NodeId)

include wellFormed

theorem flattenGroup_revises (plain : Prop) :
    (flattenGroup id).Revises settings plain draft := by
  rcases Edit.flattenGroup_cases wellFormed id with
    ⟨hRun, -⟩ | ⟨parent, after, -, -, hRun, dissolved⟩
  · exact ⟨_, Pass.edit_run hRun, Forest.revises_self⟩
  · exact ⟨_, Pass.edit_run hRun, Forest.revises_self.congr dissolved.label?_eq dissolved.mem_iff⟩

theorem tidyText_revises :
    (tidyText id).Revises settings (¬ draft.forest.Under (·.kind = .preFormatted) id) draft := by
  by_cases hTidy : draft.forest.Tidy settings id
  · exact ⟨_, Pass.edit_run (Edit.tidyText_unchanged hTidy), Forest.revises_self⟩
  · obtain ⟨found, hFound, hText, hParent, hPlain, h⟩ := Edit.tidyText_cases wellFormed hTidy
    rw [wellFormed.hasAncestorOfKind_iff] at hPlain
    rcases h with ⟨-, hRun⟩ | ⟨folded, -, hSettings, hFold, hRun⟩
    · exact ⟨_, Pass.edit_run hRun,
        Forest.revises_self.congr (fun _ => Forest.label?_cut) Forest.mem_cut⟩
    · exact ⟨_, Pass.edit_run hRun,
        Forest.revises_modify hFound (.folded hPlain hText hSettings hFold)⟩

theorem resolveStyle_revises (plain : Prop) :
    (resolveStyle id).Revises settings plain draft := by
  rcases Pass.resolveStyle_cases draft id with
    ⟨_, hRun⟩ | ⟨found, mark, hFound, hKind, hMark, hRun⟩
  · exact ⟨_, hRun, Forest.revises_self⟩
  · obtain ⟨after, hApply, applied⟩ :=
      Edit.applyMark_applies wellFormed (Forest.mem_of_get? hFound) mark
    exact ⟨_, hRun after hApply, applied.revises hFound hKind hMark⟩

theorem liftList_revises (plain : Prop) : (liftList id).Revises settings plain draft := by
  by_cases hLifted : draft.forest.Lifted id
  · exact ⟨_, Pass.edit_run (Edit.liftList_unchanged hLifted), Forest.revises_self⟩
  · obtain ⟨after, paragraph, parent, hRun, lifts⟩ := Edit.liftList_lifts wellFormed hLifted
    exact ⟨_, Pass.edit_run hRun,
      Forest.revises_self.congr lifts.dissolved.label?_eq lifts.dissolved.mem_iff⟩

theorem dropBreak_revises (plain : Prop) : (dropBreak id).Revises settings plain draft := by
  by_cases hUnbroken : draft.forest.Unbroken settings id
  · exact ⟨_, Pass.edit_run (Edit.dropBreak_unchanged hUnbroken), Forest.revises_self⟩
  · obtain ⟨hRun, -⟩ := Edit.dropBreak_detaches wellFormed hUnbroken
    exact ⟨_, Pass.edit_run hRun,
      Forest.revises_self.congr (fun _ => Forest.label?_cut) Forest.mem_cut⟩

/-- **Every visit revises its node.** Only for text it matters what is above it. -/
theorem perform_revises (visit : Visit) {plain : Prop}
    (hPlain : visit = .tidyText visit.id →
      ¬ draft.forest.Under (·.kind = .preFormatted) visit.id → plain) :
    visit.Revises settings plain draft := by
  cases visit with
  | resolveTag id => exact resolveTag_revises settings plain draft id
  | flattenGroup id => exact flattenGroup_revises settings wellFormed id plain
  | tidyText id =>
    obtain ⟨after, hRun, revises⟩ := tidyText_revises settings wellFormed id
    exact ⟨after, hRun, revises.mono (hPlain rfl)⟩
  | resolveStyle id => exact resolveStyle_revises settings wellFormed id plain
  | liftList id => exact liftList_revises settings wellFormed id plain
  | dropBreak id => exact dropBreak_revises settings wellFormed id plain

end

end Visit

end WikiMarkup
