import WikiMarkup.Proofs.Forest.Surroundings
import WikiMarkup.Proofs.Generic.Narrowing

/-!
# What resolving styles does

After the pass no style below the root has a token that means anything (`resolveStyles_run`). If
that was so before, the pass leaves the forest as it is (`resolveStyles_unchanged`), though it warns
again.

A mark changes the kind of its node, and then it may wrap what is below the node or file the node in
the definition list before it (`Forest.Marked`). That list has been passed already, which is why the
walk does not come to what is filed there again.
-/

namespace WikiMarkup

namespace Node

/-- A style, if it is one, has a token without meaning. -/
def StyleResolved (node : Node) : Prop :=
  node.kind = .style → StyleMark.ofToken node.caption = none

theorem styleResolved_of_not_isGeneric {node : Node} (h : ¬ node.kind.isGeneric) :
    node.StyleResolved := fun hStyle => absurd (hStyle ▸ rfl) h

/-- The warning about a style whose token has no meaning. -/
def styleReport? (id : NodeId) (node : Node) : Option Warning :=
  if node.kind = .style ∧ StyleMark.ofToken node.caption = none then
    some (.unknownStyle id node.caption)
  else none

theorem isSome_styleReport?_iff {id : NodeId} {node : Node} : (styleReport? id node).isSome ↔
    node.kind = .style ∧ StyleMark.ofToken node.caption = none := by
  unfold styleReport?
  split <;> simp_all

end Node

/-- A token has no meaning if it is neither a mark nor in the table. -/
theorem StyleMark.of_ofToken_eq_none {token : String} (h : StyleMark.ofToken token = none) :
    token ∉ ["''", "'''", "'''''", ";"] ∧ token.toList.head? ≠ some ':' ∧
      Kind.ofStyleToken? token = none := by
  unfold StyleMark.ofToken at h
  split_ifs at h with hEmphasis hStrong hBoth hTerm hDescription
  refine ⟨?_, hDescription, Option.map_eq_none_iff.mp h⟩
  simp [hEmphasis, hStrong, hBoth, hTerm]

/-- The kinds that a mark may give to its node, and whether a second node is added for it. -/
def StyleMark.outcomes : StyleMark → List (Kind × Bool)
  | emphasis => [(.emphasized, false)]
  | strong => [(.strong, false)]
  | strongEmphasis => [(.strong, true)]
  | term => [(.definitionTerm, false), (.definitionList, true)]
  | description => [(.definitionDescription, false)]
  | named kind => [(kind, false)]

/-- Which tokens ask for five quotes and which for a term. -/
theorem StyleMark.ofToken_eq_iff {token : String} :
    (StyleMark.ofToken token = some .strongEmphasis ↔ token = "'''''") ∧
      (StyleMark.ofToken token = some .term ↔ token = ";") := by
  unfold StyleMark.ofToken
  split_ifs with hEmphasis hStrong hBoth hTerm hDescription
  · simp [hEmphasis]
  · simp [hStrong]
  · simp [hBoth]
  · simp [hTerm]
  · simp [hBoth, hTerm]
  · simp [hBoth, hTerm]

/-- Each outcome of a mark is a kind that styles are resolved to, and a second node is added for
five quotes and for a term that begins a list. -/
theorem StyleMark.isResolved_of_outcomes {token : String} {mark : StyleMark}
    (hMark : StyleMark.ofToken token = some mark) {kind : Kind} {splits : Bool}
    (h : (kind, splits) ∈ mark.outcomes) :
    (kind.isResolved ∧ kind ≠ .breakingReturn) ∧
      (splits ↔ (token = "'''''" ∧ kind = .strong) ∨ (token = ";" ∧ kind = .definitionList)) := by
  rw [← ofToken_eq_iff.1, ← ofToken_eq_iff.2, hMark]
  have hTable : ∀ outcome ∈ mark.outcomes, (outcome.1.isResolved ∧ outcome.1 ≠ .breakingReturn) ∧
      (outcome.2 ↔ (some mark = some .strongEmphasis ∧ outcome.1 = .strong) ∨
        (some mark = some .term ∧ outcome.1 = .definitionList)) := by
    cases mark with
    | named kind =>
      rw [outcomes, List.forall_mem_singleton]
      exact ⟨isResolved_of_ofToken hMark, by simp⟩
    | _ => decide
  exact hTable (kind, splits) h

namespace Forest

/-- The styles below the root have tokens without meaning. -/
def StylesResolved (forest : Forest) : Prop :=
  ∀ id, forest.Reaches .root id → HasLabel (fun _ => Node.StyleResolved) forest id

theorem Narrows.stylesResolved {forest after : Forest} (h : forest.Narrows after)
    (hStyles : forest.StylesResolved) : after.StylesResolved :=
  h.hasLabel (fun _ _ => Node.styleResolved_of_not_isGeneric) hStyles

variable {forest relabelled after : Forest} {id list parent wrapper : NodeId}

/-! ### The open list -/

/-- Between a node and the definition list that it continues there is nothing but blank text. -/
theorem Linked.front_of_openListBefore (linked : forest.Linked) {steps : Nat}
    {front back : List NodeId} (hChildren : forest.children parent = front ++ id :: back)
    (h : forest.openListBefore steps id = some list) :
    ∃ init middle, front = init ++ list :: middle ∧
      forest.Has (·.kind = .definitionList) list ∧
      ∀ passed ∈ middle, forest.Has Node.IsBlankText passed := by
  induction steps generalizing id front back with
  | zero => cases h
  | succ steps ih =>
    rw [openListBefore, linked.previous?_eq_getLast? hChildren] at h
    cases hLast : front.getLast? with
    | none =>
      rw [hLast] at h
      cases h
    | some before =>
      obtain ⟨init, rfl⟩ := List.getLast?_eq_some_iff.mp hLast
      rw [hLast] at h
      dsimp only at h
      cases hBefore : forest.get? before with
      | none =>
        rw [hBefore] at h
        cases h
      | some node =>
        have hLabel := label?_of_get? hBefore
        rw [hBefore] at h
        dsimp only at h
        split at h
        next hKind =>
          cases h
          exact ⟨init, [], rfl, ⟨_, hLabel, hKind⟩, List.forall_mem_nil _⟩
        next =>
          split at h
          next hBlank =>
            rw [List.append_assoc, List.singleton_append] at hChildren
            obtain ⟨init, middle, rfl, hKind, hMiddle⟩ := ih hChildren h
            refine ⟨init, middle ++ [before], by simp, hKind, ?_⟩
            rw [List.forall_mem_append]
            exact ⟨hMiddle, List.forall_mem_singleton.mpr ⟨_, hLabel, hBlank⟩⟩
          next => cases h

/-- Looking further back finds no other list. -/
theorem Linked.openListBefore_eq_openListBefore (linked : forest.Linked) {steps more : Nat}
    {front back : List NodeId} (hChildren : forest.children parent = front ++ id :: back)
    (hSteps : front.length < steps) (hMore : steps ≤ more) :
    forest.openListBefore steps id = forest.openListBefore more id := by
  induction steps generalizing id front back more with
  | zero => omega
  | succ steps ih =>
    obtain ⟨more, rfl⟩ := Nat.exists_eq_add_of_lt hMore
    rw [openListBefore, openListBefore, linked.previous?_eq_getLast? hChildren]
    cases hLast : front.getLast? with
    | none => rfl
    | some before =>
      obtain ⟨init, rfl⟩ := List.getLast?_eq_some_iff.mp hLast
      rw [List.length_append, List.length_singleton] at hSteps
      rw [List.append_assoc, List.singleton_append] at hChildren
      dsimp only
      rw [ih hChildren (by omega) (by omega : steps ≤ steps + more)]

/-- The open list stands before the node, with at most blank text between. -/
theorem Linked.children_of_openList? (linked : forest.Linked)
    (h : forest.openList? id = some list) :
    ∃ parent front middle back,
      forest.children parent = (front ++ list :: middle) ++ id :: back ∧
      forest.Has (·.kind = .definitionList) list ∧
      ∀ passed ∈ middle, forest.Has Node.IsBlankText passed := by
  rw [openList?] at h
  cases hParent : forest.parent? id with
  | none =>
    rw [openListBefore, previous?_eq_none_of_parent? hParent] at h
    cases h
  | some parent =>
    obtain ⟨front, back, hChildren⟩ := List.append_of_mem (linked.parent_iff.mp hParent)
    obtain ⟨init, middle, rfl, hKind, hMiddle⟩ := linked.front_of_openListBefore hChildren h
    exact ⟨parent, init, middle, back, hChildren, hKind, hMiddle⟩

theorem Linked.earlier_of_openList? (linked : forest.Linked)
    (h : forest.openList? id = some list) : forest.Earlier list id := by
  obtain ⟨parent, front, middle, back, hChildren, -⟩ := linked.children_of_openList? h
  exact earlier_of_children hChildren (List.mem_append_right front List.mem_cons_self)
    List.mem_cons_self

/-! ### Marks -/

/-- What a mark does to a forest: it relabels the style that it is the token of, and it may wrap
what is below the style, or file the style in the open list. -/
inductive Marked (forest : Forest) (id : NodeId) : Forest → Prop
  /-- The style is relabelled. -/
  | relabelled {after : Forest} (h : forest.Relabelled after id) : Marked forest id after
  /-- A new node comes between it and its children. -/
  | wrapped {relabelled after : Forest} {wrapper : NodeId} {kind : Kind}
      (h : forest.Relabelled relabelled id)
      (wrapped : relabelled.Wrapped after id wrapper kind)
      (hKind : kind = .emphasized ∨ kind = .definitionTerm) : Marked forest id after
  /-- It continues the open list. -/
  | filed {relabelled : Forest} {list : NodeId} (h : forest.Relabelled relabelled id)
      (hList : forest.openList? id = some list) (hMark : forest.Has Node.IsDefinitionMark id) :
      Marked forest id (relabelled.move list (forest.children list).length id)

variable (wellFormed : forest.WellFormed)

include wellFormed

/-- To wrap what is below the node resolves. -/
theorem Relabelled.resolves_wrapped {kind : Kind} (h : forest.Relabelled relabelled id)
    (hId : id ∈ forest) (wrapped : relabelled.Wrapped after id wrapper kind)
    (hStyle : forest.kind? id = some .style) (hKind : ¬ kind.isGeneric) :
    Resolves (fun _ => Node.StyleResolved) forest id after (after.children id) := by
  have hNe : id ≠ wrapper := fun hWrapper =>
    wrapped.notMem (hWrapper ▸ h.same.mem_iff.mpr hId)
  have hLabel : ∀ label, after.label? id = some label → ¬ label.kind.isGeneric := by
    intro label hLabel
    rw [wrapped.label?_eq id hNe] at hLabel
    exact h.not_isGeneric label hLabel
  rw [wrapped.children_self]
  refine ⟨wrapped.advance h.same wellFormed hId h.others hStyle ?_, ?_, ?_, ?_⟩
  · rintro rfl
    exact hKind rfl
  · exact fun label h hGeneric => absurd hGeneric (hLabel label h)
  · intro other label hOther hNew
    have hWrapper : other = wrapper := by
      rcases wrapped.mem_iff.mp (mem_of_label? hNew) with hFormer | hWrapper
      · exact absurd (h.same.mem_iff.mp hFormer) hOther
      · exact hWrapper
    rw [hWrapper, wrapped.label?_wrapper, Option.some_inj] at hNew
    exact hNew ▸ hKind
  · exact fun _ label h => Node.styleResolved_of_not_isGeneric (hLabel label h)

/-- To file the node in a list that stands before it resolves. -/
theorem Relabelled.resolves_move (h : forest.Relabelled relabelled id)
    (hEarlier : forest.Earlier list id) :
    Resolves (fun _ => Node.StyleResolved) forest id
      (relabelled.move list (forest.children list).length id)
      ((relabelled.move list (forest.children list).length id).children id) := by
  have hLabel : ∀ label,
      (relabelled.move list (forest.children list).length id).label? id = some label →
        ¬ label.kind.isGeneric := by
    intro label hLabel
    rw [label?_move] at hLabel
    exact h.not_isGeneric label hLabel
  refine ⟨advance_move h.same wellFormed hEarlier h.others, ?_, ?_, ?_⟩
  · exact fun label h hGeneric => absurd hGeneric (hLabel label h)
  · intro other label hOther hNew
    exact absurd (h.same.mem_iff.mp (mem_move.mp (mem_of_label? hNew))) hOther
  · exact fun _ label h => Node.styleResolved_of_not_isGeneric (hLabel label h)

/-- What stands below a node that is wrapped is still listed there, after the wrapper. -/
theorem Relabelled.listsSame_wrapped {kind : Kind} (h : forest.Relabelled relabelled id)
    (hId : id ∈ forest) (wrapped : relabelled.Wrapped after id wrapper kind) :
    forest.ListsSame after id := by
  have linked := wellFormed.linked
  have hNew : wrapper ∉ forest := fun hMem => wrapped.notMem (h.same.mem_iff.mpr hMem)
  have hChildren : after.descendants wrapper = forest.descendants id := by
    rw [descendants, descendants, wrapped.children_wrapper, h.same.children_eq]
    refine List.flatMap_congr fun child hChild => ?_
    -- below a child neither the node nor the wrapper is met
    refine selfAndDescendants_congr wellFormed wrapped.wellFormed fun below hBelow => ?_
    have hMem := linked.mem_of_reaches (linked.mem_children_right hChild) hBelow
    rw [wrapped.children_of_ne below, h.same.children_eq]
    · rintro rfl
      exact wellFormed.not_reaches_of_mem_children hChild hBelow
    · exact fun hWrapper => hNew (hWrapper ▸ hMem)
  rw [ListsSame, descendants, wrapped.children_self, List.flatMap_singleton,
    wrapped.wellFormed.selfAndDescendants_eq, hChildren, List.filter_cons_of_neg,
    wellFormed.filter_descendants hId]
  simpa using hNew

/-- **Whatever a mark does resolves** the style that it is the token of. -/
theorem Marked.resolves (h : forest.Marked id after) (hId : id ∈ forest)
    (hStyle : forest.kind? id = some .style) :
    Resolves (fun _ => Node.StyleResolved) forest id after (after.children id) ∧
      forest.ListsSame after id := by
  cases h with
  | relabelled h =>
    exact ⟨h.resolves wellFormed fun _ => Node.styleResolved_of_not_isGeneric,
      listsSame_of_children_eq wellFormed (h.same.wellFormed wellFormed) hId
        fun below _ => h.same.children_eq below⟩
  | wrapped h wrapped hKind =>
    refine ⟨h.resolves_wrapped wellFormed hId wrapped hStyle ?_,
      h.listsSame_wrapped wellFormed hId wrapped⟩
    rcases hKind with rfl | rfl <;> exact Bool.false_ne_true
  | @filed relabelled list h hList =>
    have hEarlier := wellFormed.linked.earlier_of_openList? hList
    have resolves := h.resolves_move wellFormed hEarlier
    refine ⟨resolves, listsSame_of_children_eq wellFormed resolves.advance.wellFormed hId ?_⟩
    intro below hBelow
    have hPlaceable := (h.same.earlier hEarlier).placeable (h.same.wellFormed wellFormed)
    -- what is below the node is neither the list nor the parent
    rw [children_move_of_ne (h.same.linked wellFormed.linked) hPlaceable.parent_mem,
      h.same.children_eq, List.erase_of_not_mem]
    · exact fun hChild => wellFormed.not_reaches_of_mem_children hChild hBelow
    · rintro rfl
      exact hPlaceable.not_reaches (h.same.reaches_iff.mpr hBelow)

end Forest

namespace Edit

open Forest (Marked)

variable {forest : Forest} {id list : NodeId} {found : Node} {kind : Kind}

/-- To give a style another kind keeps its links. -/
theorem sameLinks_retag : forest.SameLinks
    (forest.modify id fun node => { node with kind := kind, caption := "" }) :=
  Forest.sameLinks_modify fun _ _ => ⟨rfl, rfl⟩

/-- A style may be given any kind that styles are resolved to. -/
theorem relabelled_of_style (hFound : forest.get? id = some found) (hStyle : found.kind = .style)
    (hMark : StyleMark.ofToken found.caption ≠ none)
    (hKind : kind.isResolved ∧ kind ≠ .breakingReturn) : forest.Relabelled
      (forest.modify id fun node => { node with kind := kind, caption := "" }) id :=
  Forest.relabelled_modify hFound ⟨rfl, rfl⟩
    (Node.becomes_of_style hStyle hMark hKind.1 hKind.2)
    (Kind.not_isGeneric_of_isResolved hKind.1)

/-- To give a node another kind and to wrap what is below it. -/
theorem retag_wrapChildren_run (wellFormed : forest.WellFormed) (hId : id ∈ forest)
    (kind inner : Kind) :
    ∃ after wrapper, (do retag id kind; wrapChildren id inner : Edit Unit).run forest =
        .ok () after ∧
      (forest.modify id fun node => { node with kind := kind, caption := "" }).Wrapped
        after id wrapper inner := by
  have same : forest.SameLinks _ := @sameLinks_retag forest id kind
  obtain ⟨after, wrapper, hRun, wrapped⟩ :=
    wrapChildren_run (same.wellFormed wellFormed) (same.mem_iff.mpr hId) inner
  exact ⟨after, wrapper, (run_bind_of_ok rfl).trans hRun, wrapped⟩

/-- To give a node another kind and to file it in the open list. -/
theorem retag_appendEntry_run (wellFormed : forest.WellFormed)
    (hList : forest.openList? id = some list) (kind : Kind) :
    (do retag id kind; appendEntry list id : Edit Unit).run forest = .ok ()
      ((forest.modify id fun node => { node with kind := kind, caption := "" }).move list
        (forest.children list).length id) := by
  have same : forest.SameLinks _ := @sameLinks_retag forest id kind
  have hRetagged := same.wellFormed wellFormed
  have hFile := same.earlier (wellFormed.linked.earlier_of_openList? hList)
  have hRun := appendEntry_run hRetagged (hFile.placeable hRetagged)
    (hFile.notMem_children hRetagged)
  rw [same.children_eq] at hRun
  exact (run_bind_of_ok rfl).trans hRun

/-- What it comes to to apply a mark. -/
inductive Applied (forest : Forest) (id : NodeId) : StyleMark → Forest → Prop
  /-- The node gets another kind. -/
  | retagged {mark : StyleMark} {kind : Kind} (hOutcome : (kind, false) ∈ mark.outcomes) :
      Applied forest id mark
        (forest.modify id fun node => { node with kind := kind, caption := "" })
  /-- It gets another kind, and what is below it is wrapped. -/
  | wrapped {mark : StyleMark} {kind inner : Kind} {after : Forest} {wrapper : NodeId}
      (hOutcome : (kind, true) ∈ mark.outcomes)
      (hInner : inner = .emphasized ∨ inner = .definitionTerm)
      (wrapped : (forest.modify id fun node => { node with kind := kind, caption := "" }).Wrapped
        after id wrapper inner) : Applied forest id mark after
  /-- It gets another kind and goes to the list that is open. -/
  | filed {mark : StyleMark} {kind : Kind} {list : NodeId}
      (hDefinition : mark = .term ∨ mark = .description)
      (hOutcome : (kind, false) ∈ mark.outcomes) (hList : forest.openList? id = some list) :
      Applied forest id mark
        ((forest.modify id fun node => { node with kind := kind, caption := "" }).move list
          (forest.children list).length id)
  /-- It becomes an indented block. -/
  | indented :
      Applied forest id .description (forest.modify id fun node => { node with kind := .indented })

/-- To apply a mark comes to its end. -/
theorem applyMark_applies (wellFormed : forest.WellFormed) (hId : id ∈ forest)
    (mark : StyleMark) :
    ∃ after, (applyMark id mark).run forest = .ok () after ∧ Applied forest id mark after := by
  have hWrap : ∀ {kind inner : Kind}, (kind, true) ∈ mark.outcomes →
      inner = .emphasized ∨ inner = .definitionTerm →
      ∃ after, (do retag id kind; wrapChildren id inner : Edit Unit).run forest = .ok () after ∧
        Applied forest id mark after := by
    intro kind inner hOutcome hInner
    obtain ⟨after, wrapper, hRun, wrapped⟩ := retag_wrapChildren_run wellFormed hId kind inner
    exact ⟨after, hRun, .wrapped hOutcome hInner wrapped⟩
  cases mark with
  | emphasis => exact ⟨_, rfl, .retagged (by decide)⟩
  | strong => exact ⟨_, rfl, .retagged (by decide)⟩
  | strongEmphasis => exact hWrap (by decide) (.inl rfl)
  | term =>
    rw [applyMark, EStateM.run_bind, EStateM.run_get]
    dsimp only
    cases hList : forest.openList? id with
    | some list =>
      exact ⟨_, retag_appendEntry_run wellFormed hList _, .filed (.inl rfl) (by decide) hList⟩
    | none => exact hWrap (by decide) (.inr rfl)
  | description =>
    rw [applyMark, EStateM.run_bind, EStateM.run_get]
    dsimp only
    cases hList : forest.openList? id with
    | some list =>
      exact ⟨_, retag_appendEntry_run wellFormed hList _, .filed (.inr rfl) (by decide) hList⟩
    | none => exact ⟨_, rfl, .indented⟩
  | named kind => exact ⟨_, rfl, .retagged (List.mem_singleton_self _)⟩

theorem Applied.marked {mark : StyleMark} {after : Forest} (h : Applied forest id mark after)
    (hFound : forest.get? id = some found) (hStyle : found.kind = .style)
    (hMark : StyleMark.ofToken found.caption = some mark) : forest.Marked id after := by
  have hKnown : StyleMark.ofToken found.caption ≠ none := by
    rw [hMark]
    exact Option.some_ne_none mark
  have hRelabelled : ∀ {kind splits}, (kind, splits) ∈ mark.outcomes → forest.Relabelled
      (forest.modify id fun node => { node with kind := kind, caption := "" }) id :=
    fun hOutcome => relabelled_of_style hFound hStyle hKnown
      (StyleMark.isResolved_of_outcomes hMark hOutcome).1
  cases h with
  | retagged hOutcome => exact .relabelled (hRelabelled hOutcome)
  | wrapped hOutcome hInner wrapped => exact .wrapped (hRelabelled hOutcome) wrapped hInner
  | filed hDefinition hOutcome hList =>
    refine .filed (hRelabelled hOutcome) hList ⟨_, Forest.label?_of_get? hFound, hStyle, ?_⟩
    rcases hDefinition with rfl | rfl
    · exact .inl hMark
    · exact .inr hMark
  | indented =>
    exact .relabelled (Forest.relabelled_modify hFound ⟨rfl, rfl⟩
      (Node.becomes_of_style hStyle hKnown rfl nofun) Bool.false_ne_true)

/-- **A style is marked** if its mark is applied. -/
theorem applyMark_run {mark : StyleMark} (wellFormed : forest.WellFormed)
    (hFound : forest.get? id = some found) (hStyle : found.kind = .style)
    (hMark : StyleMark.ofToken found.caption = some mark) :
    ∃ after, (applyMark id mark).run forest = .ok () after ∧ forest.Marked id after := by
  obtain ⟨after, hRun, applied⟩ := applyMark_applies wellFormed (Forest.mem_of_get? hFound) mark
  exact ⟨after, hRun, applied.marked hFound hStyle hMark⟩

end Edit

namespace Pass

variable {draft : Draft} {id : NodeId} {found : Node}

/-- A visit does no more than warn at a node that is not to be resolved. -/
theorem resolveStyle_unchanged (hFound : draft.forest.get? id = some found)
    (hResolved : found.StyleResolved) : (resolveStyle id).run draft =
      .ok () ⟨draft.forest, draft.warnings ++ (found.styleReport? id).toList⟩ := by
  rw [resolveStyle, run_bind_of_ok (node?_run hFound), Node.styleReport?]
  dsimp only
  split
  next hStyle =>
    rw [hResolved hStyle, if_pos ⟨hStyle, rfl⟩]
    rfl
  next hStyle =>
    rw [if_neg fun h => hStyle h.1, Option.toList_none, List.append_nil]
    rfl

/-- A visit does to a style what its mark asks for. -/
theorem resolveStyle_run_of_mark {mark : StyleMark} {after : Forest}
    (hFound : draft.forest.get? id = some found) (hKind : found.kind = .style)
    (hMark : StyleMark.ofToken found.caption = some mark)
    (hRun : (Edit.applyMark id mark).run draft.forest = .ok () after) :
    (resolveStyle id).run draft = .ok () ⟨after, draft.warnings⟩ := by
  obtain ⟨forest, warnings⟩ := draft
  rw [resolveStyle, run_bind_of_ok (node?_run hFound)]
  dsimp only
  rw [if_pos hKind, hMark]
  exact edit_run hRun

/-- A visit applies the mark of a style whose token means something. -/
theorem resolveStyle_marks (wellFormed : draft.forest.WellFormed)
    (hFound : draft.forest.get? id = some found) (hStyle : ¬ found.StyleResolved) :
    ∃ after, (resolveStyle id).run draft = .ok () ⟨after, draft.warnings⟩ ∧
      draft.forest.Marked id after ∧ found.kind = .style := by
  obtain ⟨hKind, hMeaning⟩ := Classical.not_imp.mp hStyle
  obtain ⟨mark, hMark⟩ := Option.ne_none_iff_exists'.mp hMeaning
  obtain ⟨after, hRun, marked⟩ := Edit.applyMark_run wellFormed hFound hKind hMark
  exact ⟨after, resolveStyle_run_of_mark hFound hKind hMark hRun, marked, hKind⟩

/-- A visit leaves the forest as it is, or it applies the mark of a style. -/
theorem resolveStyle_cases (draft : Draft) (id : NodeId) :
    (∃ warnings, (resolveStyle id).run draft = .ok () ⟨draft.forest, warnings⟩) ∨
      ∃ found mark, draft.forest.get? id = some found ∧ found.kind = .style ∧
        StyleMark.ofToken found.caption = some mark ∧
        ∀ after, (Edit.applyMark id mark).run draft.forest = .ok () after →
          (resolveStyle id).run draft = .ok () ⟨after, draft.warnings⟩ := by
  cases hFound : draft.forest.get? id with
  | none =>
    refine .inl ⟨draft.warnings, ?_⟩
    rw [resolveStyle, run_bind_of_ok (node?_run hFound)]
    rfl
  | some found =>
    by_cases hStyle : found.StyleResolved
    · exact .inl ⟨_, resolveStyle_unchanged hFound hStyle⟩
    · obtain ⟨hKind, hMeaning⟩ := Classical.not_imp.mp hStyle
      obtain ⟨mark, hMark⟩ := Option.ne_none_iff_exists'.mp hMeaning
      exact .inr ⟨found, mark, rfl, hKind, hMark, fun _ =>
        resolveStyle_run_of_mark hFound hKind hMark⟩

theorem resolver_resolveStyle : Resolver Node.StyleResolved Node.styleReport? resolveStyle where
  of_not_isGeneric := Node.styleResolved_of_not_isGeneric
  of_isSome_report h := by
    obtain ⟨hStyle, hMeaning⟩ := Node.isSome_styleReport?_iff.mp h
    exact ⟨hStyle ▸ rfl, fun _ => hMeaning⟩
  skips := resolveStyle_unchanged
  resolves wellFormed hFound hStyle := by
    obtain ⟨after, hRun, marked, hKind⟩ := resolveStyle_marks wellFormed hFound hStyle
    refine ⟨after, hRun, marked.resolves wellFormed (Forest.mem_of_get? hFound) ?_⟩
    rw [Forest.kind?, hFound, Option.map_some, hKind]

/-- **Resolving styles** comes to its end, makes nothing generic, leaves no style to resolve, and
warns about all styles whose tokens have no meaning. -/
theorem resolveStyles_run (draft : Draft) (wellFormed : draft.forest.WellFormed) :
    ∃ after, resolveStyles.run draft =
        .ok () ⟨after, draft.warnings ++ draft.forest.reports Node.styleReport? .root⟩ ∧
      after.WellFormed ∧ draft.forest.Narrows after ∧ after.StylesResolved :=
  resolver_resolveStyle.walk_run draft wellFormed

/-- Where no style is to be resolved the pass leaves the forest as it is. -/
theorem resolveStyles_unchanged {forest : Forest} (wellFormed : forest.WellFormed)
    (hStyles : forest.StylesResolved) (warnings : List Warning) :
    resolveStyles.run ⟨forest, warnings⟩ =
      .ok () ⟨forest, warnings ++ forest.reports Node.styleReport? .root⟩ :=
  resolver_resolveStyle.walk_unchanged_run wellFormed hStyles warnings

end Pass

end WikiMarkup
