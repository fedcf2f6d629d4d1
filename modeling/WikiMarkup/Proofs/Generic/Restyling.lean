import WikiMarkup.Proofs.Generic.Regrouping

/-!
# Restyling a node

What a visit of the pass that resolves styles does, to the last link. It restyles its node as
`Node.restyled` says. Links change in one of three ways: not at all, by filing the node in the list
that is open, or by putting a new node in between it and its children. In the last case the new node
is the **holder** of the children, else the node itself (`Forest.Visited`).

**Key result.** `resolveStyle_visited`: every visit does so, whatever the node is. A node that is no
style, or a style whose token has no meaning, is restyled to what it is.
-/

namespace WikiMarkup

namespace Forest

variable {forest after : Forest} {id other list entry : NodeId} {found label : Node}

/-! ### What is filed where -/

/-- The list that a node is filed in when it is visited. -/
def filing? (forest : Forest) (id : NodeId) : Option NodeId :=
  match forest.role id with
  | .term | .description => forest.openList? id
  | _ => none

theorem openList?_of_filing? (h : forest.filing? id = some list) :
    forest.openList? id = some list := by
  unfold filing? at h
  split at h
  · exact h
  · exact h
  · cases h

/-- What is neither a term nor a description is filed nowhere. -/
theorem filing?_eq_none (hTerm : forest.role id ≠ .term)
    (hDescription : forest.role id ≠ .description) : forest.filing? id = none := by
  unfold filing?
  split
  next h => exact absurd h hTerm
  next h => exact absurd h hDescription
  next => rfl

/-- The children of a node after an entry has been filed in a list. -/
def refiled (list? : Option NodeId) (entry id : NodeId) (children : List NodeId) : List NodeId :=
  match list? with
  | none => children
  | some list => if id = list then children ++ [entry] else children.erase entry

/-- Filing an entry leaves alone the children of all nodes that neither get it nor had it. -/
theorem refiled_eq_self {list? : Option NodeId} {children : List NodeId}
    (hList : list? ≠ some id) (hEntry : entry ∉ children) :
    refiled list? entry id children = children := by
  cases list? with
  | none => rfl
  | some list =>
    rw [refiled, if_neg fun h => hList (by rw [h]), List.erase_of_not_mem hEntry]

theorem role_of_label? (h : forest.label? id = some label) : forest.role id = label.role := by
  rw [role, h]
  rfl

/-- Where a mark is filed depends on its role and on the list that is open. -/
theorem filing?_of_mark {mark : StyleMark} (hFound : forest.get? id = some found)
    (hStyle : found.kind = .style) (hMark : StyleMark.ofToken found.caption = some mark) :
    forest.filing? id =
      match mark.role with
      | .term | .description => forest.openList? id
      | _ => none := by
  have hRole : forest.role id = found.unlinked.role := role_of_label? (label?_of_get? hFound)
  have hUnlinked : found.unlinked.kind = .style := hStyle
  have hToken : StyleMark.ofToken found.unlinked.caption = some mark := hMark
  rw [filing?, hRole, Node.role_of_style hUnlinked, hToken]
  rfl

/-! ### What a visit does -/

/-- What a visit does: it restyles its node, and it may file it, or put a new node between it and
its children. The **holder** is the node that then has its children. -/
structure Visited (forest after : Forest) (id holder : NodeId) : Prop where
  /-- The forest stays well-formed. -/
  wellFormed : after.WellFormed
  /-- No node goes from the table. -/
  mem : ∀ {other : NodeId}, other ∈ forest → other ∈ after
  /-- Other nodes keep their labels. -/
  label?_of_ne : ∀ {other : NodeId}, other ∈ forest → other ≠ id →
    after.label? other = forest.label? other
  /-- They keep their children, but for the one that is filed. -/
  children_of_ne : ∀ {other : NodeId}, other ∈ forest → other ≠ id →
    after.children other = refiled (forest.filing? id) id other (forest.children other)
  /-- The node is restyled. -/
  label?_self : after.label? id =
    (forest.label? id).map fun label => (label.restyled (forest.openList? id).isSome).1
  /-- The holder has its children. -/
  children_holder : after.children holder = forest.children id
  /-- The holder is the node, or a new node below it. -/
  holder_cases : ∀ label, forest.label? id = some label →
    (holder = id ∧ (label.restyled (forest.openList? id).isSome).2 = none) ∨
      (holder ∉ forest ∧ after.children id = [holder] ∧
        ∃ kind, (label.restyled (forest.openList? id).isSome).2 = some kind ∧
          after.label? holder = some { kind := kind })

/-- A visit may change no link. -/
theorem SameLinks.visited (same : forest.SameLinks after) (wellFormed : forest.WellFormed)
    (hOthers : ∀ {other}, other ≠ id → after.label? other = forest.label? other)
    (hLabel : forest.label? id = some label)
    (hRestyled : after.label? id = some (label.restyled (forest.openList? id).isSome).1)
    (hWhole : (label.restyled (forest.openList? id).isSome).2 = none)
    (hFiling : forest.filing? id = none) : forest.Visited after id id where
  wellFormed := same.wellFormed wellFormed
  mem := same.mem_iff.mpr
  label?_of_ne _ hOther := hOthers hOther
  children_of_ne _ _ := by rw [same.children_eq, hFiling, refiled]
  label?_self := by rw [hRestyled, hLabel, Option.map_some]
  children_holder := same.children_eq id
  holder_cases found hFound := by
    rw [hLabel, Option.some_inj] at hFound
    exact .inl ⟨rfl, hFound ▸ hWhole⟩

section

variable {kind inner : Kind} (hFound : forest.get? id = some found)

include hFound

theorem label?_retagged :
    (forest.modify id fun node => { node with kind := kind, caption := "" }).label? id =
      some (found.unlinked.retagged kind) := by
  rw [label?_modify_self, hFound]
  rfl

/-- To give a node another kind and no caption restyles it, if it is to be filed nowhere. -/
theorem visited_retagged (wellFormed : forest.WellFormed)
    (hRestyled : found.unlinked.restyled (forest.openList? id).isSome =
      (found.unlinked.retagged kind, none)) (hFiling : forest.filing? id = none) :
    forest.Visited (forest.modify id fun node => { node with kind := kind, caption := "" })
      id id := by
  refine Edit.sameLinks_retag.visited wellFormed
    (fun hOther => label?_modify_of_ne (Ne.symm hOther)) (label?_of_get? hFound) ?_ ?_ hFiling
  · rw [label?_retagged hFound, hRestyled]
  · rw [hRestyled]

theorem visited_wrapped {wrapper : NodeId}
    (wrapped : (forest.modify id fun node => { node with kind := kind, caption := "" }).Wrapped
      after id wrapper inner)
    (hRestyled : found.unlinked.restyled (forest.openList? id).isSome =
      (found.unlinked.retagged kind, some inner)) (hFiling : forest.filing? id = none) :
    forest.Visited after id wrapper := by
  have same : forest.SameLinks _ := @Edit.sameLinks_retag forest id kind
  have hNew : wrapper ∉ forest := fun h => wrapped.notMem (same.mem_iff.mpr h)
  have hNe : ∀ {other}, other ∈ forest → other ≠ wrapper := fun hOther h => hNew (h ▸ hOther)
  have hLabel := label?_of_get? hFound
  refine ⟨wrapped.wellFormed, fun h => wrapped.mem_iff.mpr (.inl (same.mem_iff.mpr h)), ?_, ?_, ?_,
    ?_, ?_⟩
  · intro other hMem hOther
    rw [wrapped.label?_eq other (hNe hMem), label?_modify_of_ne (Ne.symm hOther)]
  · intro other hMem hOther
    rw [wrapped.children_of_ne other hOther (hNe hMem), same.children_eq, hFiling, refiled]
  · rw [wrapped.label?_eq id (hNe (mem_of_get? hFound)), label?_retagged hFound, hLabel,
      Option.map_some, hRestyled]
  · rw [wrapped.children_wrapper, same.children_eq]
  · intro label h
    rw [hLabel, Option.some_inj] at h
    exact .inr ⟨hNew, wrapped.children_self, inner, by rw [← h, hRestyled], wrapped.label?_wrapper⟩

/-- To file an entry in the open list restyles it. -/
theorem visited_filed (wellFormed : forest.WellFormed) (hFiling : forest.filing? id = some list)
    (hRestyled : found.unlinked.restyled true = (found.unlinked.retagged kind, none)) :
    forest.Visited ((forest.modify id fun node => { node with kind := kind, caption := "" }).move
      list (forest.children list).length id) id id := by
  have same : forest.SameLinks _ := @Edit.sameLinks_retag forest id kind
  have hList := openList?_of_filing? hFiling
  have hEarlier := wellFormed.linked.earlier_of_openList? hList
  have hRetagged := same.wellFormed wellFormed
  have hPlaceable := (same.earlier hEarlier).placeable hRetagged
  have hChildren := children_file hRetagged (same.earlier hEarlier)
  have hWellFormed := wellFormed_file hRetagged (same.earlier hEarlier)
  rw [same.children_eq] at hChildren hWellFormed
  have hLabel := label?_of_get? hFound
  have hOthers : ∀ other, other ≠ list →
      ((forest.modify id fun node => { node with kind := kind, caption := "" }).move list
        (forest.children list).length id).children other =
          (forest.children other).erase id := fun other hOther => by
    rw [children_move_of_ne hRetagged.linked hPlaceable.parent_mem (Ne.symm hOther),
      same.children_eq]
  refine ⟨hWellFormed, fun h => mem_move.mpr (same.mem_iff.mpr h), ?_, ?_, ?_, ?_, ?_⟩
  · intro other _ hOther
    rw [label?_move, label?_modify_of_ne (Ne.symm hOther)]
  · intro other _ _
    rw [hFiling, refiled]
    split
    next h => rw [h, hChildren]
    next h => exact hOthers other h
  · rw [label?_move, label?_retagged hFound, hLabel, Option.map_some, hList, Option.isSome_some,
      hRestyled]
  · rw [hOthers id, List.erase_of_not_mem]
    · exact fun h => wellFormed.not_reaches_of_mem_children h (Reaches.refl forest id)
    · rintro rfl
      exact hPlaceable.not_reaches (Reaches.refl _ id)
  · intro label h
    rw [hLabel, Option.some_inj] at h
    refine .inl ⟨rfl, ?_⟩
    rw [← h, hList, Option.isSome_some, hRestyled]

end

end Forest

/-- To apply the mark of a style is a visit. -/
theorem Edit.applyMark_visited {forest after : Forest} {id : NodeId} {found : Node}
    {mark : StyleMark} (wellFormed : forest.WellFormed) (hFound : forest.get? id = some found)
    (hStyle : found.kind = .style) (hMark : StyleMark.ofToken found.caption = some mark)
    (hRun : (applyMark id mark).run forest = .ok () after) :
    ∃ holder, forest.Visited after id holder := by
  have hRestyled := fun isOpen => @Node.restyled_of_mark found.unlinked isOpen mark hStyle hMark
  have hFiling := Forest.filing?_of_mark hFound hStyle hMark
  cases mark with
  | emphasis =>
    cases hRun
    exact ⟨id, Forest.visited_retagged hFound wellFormed (hRestyled _) hFiling⟩
  | strong =>
    cases hRun
    exact ⟨id, Forest.visited_retagged hFound wellFormed (hRestyled _) hFiling⟩
  | named kind =>
    cases hRun
    exact ⟨id, Forest.visited_retagged hFound wellFormed (hRestyled _) hFiling⟩
  | strongEmphasis =>
    obtain ⟨wrapped, wrapper, hWrap, h⟩ :=
      retag_wrapChildren_run wellFormed (Forest.mem_of_get? hFound) .strong .emphasized
    cases hWrap.symm.trans hRun
    exact ⟨wrapper, Forest.visited_wrapped hFound h (hRestyled _) hFiling⟩
  | term =>
    rw [applyMark, EStateM.run_bind, EStateM.run_get] at hRun
    dsimp only [StyleMark.role] at hRun hFiling
    cases hList : forest.openList? id with
    | some list =>
      rw [hList] at hRun hFiling
      cases (retag_appendEntry_run wellFormed hList .definitionTerm).symm.trans hRun
      exact ⟨id, Forest.visited_filed hFound wellFormed hFiling (hRestyled true)⟩
    | none =>
      rw [hList] at hRun hFiling
      obtain ⟨wrapped, wrapper, hWrap, h⟩ :=
        retag_wrapChildren_run wellFormed (Forest.mem_of_get? hFound) .definitionList
          .definitionTerm
      cases hWrap.symm.trans hRun
      refine ⟨wrapper, Forest.visited_wrapped hFound h ?_ hFiling⟩
      rw [hList]
      exact hRestyled false
  | description =>
    rw [applyMark, EStateM.run_bind, EStateM.run_get] at hRun
    dsimp only [StyleMark.role] at hRun hFiling
    cases hList : forest.openList? id with
    | some list =>
      rw [hList] at hRun hFiling
      cases (retag_appendEntry_run wellFormed hList .definitionDescription).symm.trans hRun
      exact ⟨id, Forest.visited_filed hFound wellFormed hFiling (hRestyled true)⟩
    | none =>
      rw [hList] at hRun hFiling
      cases hRun
      have same : forest.SameLinks (forest.modify id fun node => { node with kind := .indented }) :=
        Forest.sameLinks_modify fun _ _ => ⟨rfl, rfl⟩
      refine ⟨id, same.visited wellFormed
        (fun hOther => Forest.label?_modify_of_ne (Ne.symm hOther))
        (Forest.label?_of_get? hFound) ?_ ?_ hFiling⟩
      · rw [Forest.label?_modify_self, hFound, hList]
        exact congrArg (some ·.1) (hRestyled false).symm
      · rw [hList]
        exact congrArg Prod.snd (hRestyled false)

/-- **A visit** restyles its node, and may file it or wrap what is below it. -/
theorem Pass.resolveStyle_visited {draft last : Draft} {id : NodeId}
    (wellFormed : draft.forest.WellFormed) (hId : id ∈ draft.forest)
    (hRun : (resolveStyle id).run draft = .ok () last) :
    ∃ holder, draft.forest.Visited last.forest id holder := by
  obtain ⟨found, hFound⟩ := Forest.mem_iff_exists_get?.mp hId
  by_cases hResolved : found.StyleResolved
  · rw [resolveStyle_unchanged hFound hResolved] at hRun
    cases hRun
    have hLabel := Forest.label?_of_get? hFound
    have hUnlinked : found.unlinked.StyleResolved := hResolved
    obtain ⟨hWhole, hTerm, hDescription⟩ :=
      hUnlinked.restyled_eq (draft.forest.openList? id).isSome
    rw [← Forest.role_of_label? hLabel] at hTerm hDescription
    exact ⟨id, (Forest.SameLinks.refl draft.forest).visited wellFormed (fun _ => rfl) hLabel
      (by rw [hWhole, hLabel]) (by rw [hWhole]) (Forest.filing?_eq_none hTerm hDescription)⟩
  · obtain ⟨hStyle, hMeaning⟩ := Classical.not_imp.mp hResolved
    obtain ⟨mark, hMark⟩ := Option.ne_none_iff_exists'.mp hMeaning
    obtain ⟨after, hApply, -⟩ := Edit.applyMark_run wellFormed hFound hStyle hMark
    rw [resolveStyle_run_of_mark hFound hStyle hMark hApply] at hRun
    cases hRun
    exact Edit.applyMark_visited wellFormed hFound hStyle hMark hApply

end WikiMarkup
