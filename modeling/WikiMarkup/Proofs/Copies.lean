import WikiMarkup.Proofs.Changes
import WikiMarkup.Proofs.Forest.Copying

/-!
# Normalization of a copy

A copy of a well-formed forest **tracks** it through normalization (`Numbering.Tracks`): each visit
does to the copy what it does to the forest, and so does each pass, whatever else there is in the
copy. The forest has to be well-formed for that, so that no search in it stops before its end; of
the copy nothing is asked.

**Key result.** `normalize_follows`: once the links upwards agree, all passes do the same to both,
with the same number of rounds and the same warnings up to numbering.
-/

namespace WikiMarkup

/-! ### Edits at a node -/

namespace Edit

variable {numbering : Numbering} {forest copy : Forest} (copies : numbering.Copies forest copy)

include copies

/-- Copies stay copies if a node and its counterpart are flattened. -/
theorem flattenGroup_follows (id : NodeId) :
    Follows numbering.Copies Eq forest copy (flattenGroup id) (flattenGroup (numbering id)) := by
  refine .get ?_
  rw [copies.kind?_eq, copies.parent?_eq, copies.children_eq]
  split_ifs
  · cases forest.parent? id with
    | none => exact .pure copies rfl
    | some parent => exact replace_follows copies parent id _
  · exact .pure copies rfl

theorem foldCaption_follows (id : NodeId) (node : Node) :
    Follows numbering.Copies Eq forest copy (foldCaption id node)
      (foldCaption (numbering id) (node.renumbered numbering)) := by
  rw [foldCaption, foldCaption, Node.renumbered]
  dsimp only
  cases foldLines? node.caption with
  | none => exact .pure copies rfl
  | some folded => exact .of_modify _ _ (copies.modify id _ _ fun _ => rfl)

/-- Whether a text is tidied does not depend on the numbering. -/
theorem tidyText_follows (wellFormed : forest.WellFormed) (settings : Settings) (id : NodeId) :
    Follows numbering.Copies Eq forest copy (tidyText settings id)
      (tidyText settings (numbering id)) := by
  refine .get ?_
  rw [copies.get?_eq]
  cases hFound : forest.get? id with
  | none => exact .pure copies rfl
  | some node =>
    rw [Option.map_some]
    dsimp only [Node.renumbered]
    cases hParent : node.parent with
    | none => exact .pure copies rfl
    | some parent =>
      rw [Option.map_some]
      dsimp only
      rw [copies.hasAncestorOfKind_eq wellFormed, copies.touchesBlock_eq]
      split_ifs
      · exact remove_follows copies parent id
      · exact foldCaption_follows copies id node
      · exact .pure copies rfl
      · exact .pure copies rfl

/-- Whether a list is lifted does not depend on the numbering. -/
theorem liftList_follows (id : NodeId) :
    Follows numbering.Copies Eq forest copy (liftList id) (liftList (numbering id)) := by
  refine .get ?_
  rw [copies.kind?_eq, copies.parent?_eq, copies.siblings_eq]
  split_ifs
  · cases forest.parent? id with
    | none => exact .pure copies rfl
    | some paragraph =>
      rw [Option.map_some]
      dsimp only
      rw [copies.kind?_eq, copies.parent?_eq, List.isEmpty_map]
      split_ifs
      · cases forest.parent? paragraph with
        | none => exact .pure copies rfl
        | some grandparent => exact replace_follows copies grandparent paragraph [id]
      · exact .pure copies rfl
  · exact .pure copies rfl

/-- Whether a break is dropped does not depend on the numbering. -/
theorem dropBreak_follows (settings : Settings) (id : NodeId) :
    Follows numbering.Copies Eq forest copy (dropBreak settings id)
      (dropBreak settings (numbering id)) := by
  refine .get ?_
  rw [copies.kind?_eq, copies.parent?_eq, copies.touchesBlock_eq]
  split_ifs
  · cases forest.parent? id with
    | none => exact .pure copies rfl
    | some parent => exact remove_follows copies parent id
  · cases forest.parent? id with
    | none => exact .pure copies rfl
    | some parent => exact .pure copies rfl
  · exact .pure copies rfl

/-! ### Marks -/

/-- A node that is added to both forests gets corresponding identifiers. -/
theorem add_follows (new : Node) :
    Follows numbering.Copies (fun id found => found = numbering id) forest copy (add new)
      (add new) := by
  intro _ _ hRun
  cases hRun
  obtain ⟨hNew, hAdded⟩ := copies.add new
  exact ⟨_, _, rfl, hNew.symm, hAdded⟩

theorem retag_follows (id : NodeId) (kind : Kind) :
    Follows numbering.Copies Eq forest copy (retag id kind) (retag (numbering id) kind) :=
  .of_modify _ _ (copies.modify id _ _ fun _ => rfl)

/-- Copies stay copies if the children of a node and of its counterpart are wrapped. -/
theorem wrapChildren_follows (id : NodeId) (kind : Kind) :
    Follows numbering.Copies Eq forest copy (wrapChildren id kind)
      (wrapChildren (numbering id) kind) := by
  refine (add_follows copies { kind := kind }).bind fun wrapper _ _ _ hWrapper hAdded => ?_
  subst hWrapper
  refine .get ?_
  rw [hAdded.children_eq]
  refine (Follows.forM (fun child _ _ h => append_follows h wrapper child) _ hAdded).bind
    fun _ _ _ _ _ hTaken => ?_
  exact append_follows hTaken id wrapper

theorem appendEntry_follows (list entry : NodeId) :
    Follows numbering.Copies Eq forest copy (appendEntry list entry)
      (appendEntry (numbering list) (numbering entry)) := by
  refine .get ?_
  rw [copies.lastChild?_eq]
  cases forest.lastChild? list with
  | none => exact append_follows copies list entry
  | some last => exact moveBeside_follows copies entry last false

/-- What a mark asks for is done in both forests alike. -/
theorem applyMark_follows (wellFormed : forest.WellFormed) (id : NodeId) (mark : StyleMark) :
    Follows numbering.Copies Eq forest copy (applyMark id mark)
      (applyMark (numbering id) mark) := by
  cases mark with
  | emphasis => exact retag_follows copies id .emphasized
  | strong => exact retag_follows copies id .strong
  | strongEmphasis =>
    exact (retag_follows copies id .strong).bind
      fun _ _ _ _ _ hRetagged => wrapChildren_follows hRetagged id .emphasized
  | term =>
    refine .get ?_
    rw [copies.openList?_eq wellFormed]
    cases forest.openList? id with
    | some list =>
      exact (retag_follows copies id .definitionTerm).bind
        fun _ _ _ _ _ hRetagged => appendEntry_follows hRetagged list id
    | none =>
      exact (retag_follows copies id .definitionList).bind
        fun _ _ _ _ _ hRetagged => wrapChildren_follows hRetagged id .definitionTerm
  | description =>
    refine .get ?_
    rw [copies.openList?_eq wellFormed]
    cases forest.openList? id with
    | some list =>
      exact (retag_follows copies id .definitionDescription).bind
        fun _ _ _ _ _ hRetagged => appendEntry_follows hRetagged list id
    | none => exact .of_modify _ _ (copies.modify id _ _ fun _ => rfl)
  | named kind => exact retag_follows copies id kind

end Edit

/-! ### Drafts -/

/-- A warning about the node with the other identifier. -/
def Warning.renumbered (numbering : Numbering) : Warning → Warning
  | unknownTag node tagName => unknownTag (numbering node) tagName
  | unknownStyle node token => unknownStyle (numbering node) token

namespace Numbering

/-- Two drafts with forests that match and the same warnings up to numbering. -/
structure Drafts (numbering : Numbering) (Matches : Forest → Forest → Prop)
    (draft copy : Draft) : Prop where
  /-- The forests match. -/
  forest : Matches draft.forest copy.forest
  /-- The warnings are the same. -/
  warnings_eq : copy.warnings = draft.warnings.map (Warning.renumbered numbering)

end Numbering

namespace Pass

variable {numbering : Numbering} {Matches : Forest → Forest → Prop} {draft copy : Draft}

/-- Drafts stay copies under an edit of their forests if the forests do. -/
theorem edit_follows {α β : Type} {Corresponds : α → β → Prop} {change : Edit α}
    {otherChange : Edit β}
    (h : Follows Matches Corresponds draft.forest copy.forest change otherChange)
    (hWarnings : copy.warnings = draft.warnings.map (Warning.renumbered numbering)) :
    Follows (numbering.Drafts Matches) Corresponds draft copy (edit change) (edit otherChange) := by
  intro result last hRun
  obtain ⟨after, hFirst, rfl⟩ := exists_run_of_edit hRun
  obtain ⟨found, otherAfter, hSecond, hFound, hMatches⟩ := h result after hFirst
  exact ⟨found, _, edit_run hSecond, hFound, hMatches, hWarnings⟩

/-- Drafts stay copies if both are warned about corresponding nodes. -/
theorem warn_follows (h : numbering.Drafts Matches draft copy) (warning : Warning) :
    Follows (numbering.Drafts Matches) Eq draft copy (warn warning)
      (warn (warning.renumbered numbering)) :=
  .of_modify _ _ ⟨h.forest, by rw [List.map_append, h.warnings_eq]; rfl⟩

/-! ### Tags and styles -/

/-- What a tag becomes does not depend on the numbering. -/
theorem resolvedTag?_renumbered (node : Node) : (node.renumbered numbering).resolvedTag? =
    node.resolvedTag?.map (Node.renumbered numbering) := by
  rw [Node.resolvedTag?, Node.resolvedTag?]
  dsimp only [Node.renumbered]
  cases levelOfHeading? node.caption with
  | some level => rfl
  | none =>
    dsimp only
    cases Kind.ofTagName? node.caption <;> rfl

variable (drafts : numbering.Drafts numbering.Tracks draft copy)

include drafts

theorem drafts_copies : numbering.Drafts numbering.Copies draft copy :=
  ⟨drafts.forest.copies, drafts.warnings_eq⟩

theorem node?_follows (id : NodeId) : Follows (numbering.Drafts numbering.Tracks)
    (fun node found => found = node.map (Node.renumbered numbering)) draft copy (node? id)
    (node? (numbering id)) :=
  .get (.pure drafts (drafts.forest.copies.get?_eq id))

/-- Resolving a tag is followed by resolving its counterpart, with the same warning. -/
theorem resolveTag_follows (id : NodeId) : Follows (numbering.Drafts numbering.Copies) Eq draft copy
    (resolveTag id) (resolveTag (numbering id)) := by
  refine (node?_follows drafts id).bind fun node found draft copy hFound drafts => ?_
  subst hFound
  have hCopies := drafts_copies drafts
  cases node with
  | none => exact .pure hCopies rfl
  | some node =>
    rw [Option.map_some]
    dsimp only
    rw [resolvedTag?_renumbered]
    by_cases hTag : node.kind = .tag
    · rw [if_pos hTag, if_pos (show (node.renumbered numbering).kind = .tag from hTag)]
      cases node.resolvedTag? with
      | none => exact warn_follows hCopies _
      | some resolved =>
        refine edit_follows (.of_modify _ _ ?_) drafts.warnings_eq
        exact drafts.forest.copies.modify id _ _ fun _ => rfl
    · rw [if_neg hTag, if_neg (show (node.renumbered numbering).kind ≠ .tag from hTag)]
      exact .pure hCopies rfl

/-- Resolving a style is followed by resolving its counterpart, with the same warning. -/
theorem resolveStyle_follows (id : NodeId) :
    Follows (numbering.Drafts numbering.Copies) Eq draft copy (resolveStyle id)
      (resolveStyle (numbering id)) := by
  refine (node?_follows drafts id).bind fun node found draft copy hFound drafts => ?_
  subst hFound
  have hCopies := drafts_copies drafts
  cases node with
  | none => exact .pure hCopies rfl
  | some node =>
    rw [Option.map_some]
    dsimp only [Node.renumbered]
    split_ifs
    · cases StyleMark.ofToken node.caption with
      | none => exact warn_follows hCopies _
      | some mark =>
        exact edit_follows (Edit.applyMark_follows drafts.forest.copies drafts.forest.wellFormed id
          mark) drafts.warnings_eq
    · exact .pure hCopies rfl

end Pass

/-! ### Passes -/

namespace Edit

variable {numbering : Numbering} {forest copy : Forest}

/-- A copy tracks a forest through an edit that is a visit, since visits keep forests
well-formed. -/
theorem tracks_of_visit {change otherChange : Edit Unit} (settings : Settings) (visit : Visit)
    (hVisit : visit.perform settings = Pass.edit change) (tracks : numbering.Tracks forest copy)
    (h : Follows numbering.Copies Eq forest copy change otherChange) :
    Follows numbering.Tracks Eq forest copy change otherChange := by
  refine h.strengthen fun _ after _ hRun hAfter => ⟨?_, hAfter⟩
  have hStep : (visit.perform settings).run ⟨forest, []⟩ = .ok () ⟨after, []⟩ := by
    rw [hVisit]
    exact Pass.edit_run hRun
  exact (Visit.preserves_of_perform settings visit tracks.wellFormed hStep).wellFormed

/-- A copy tracks a forest through a walk if the visits do the same to both. -/
theorem walk_follows {visit : NodeId → Edit Unit} (settings : Settings) (perform : NodeId → Visit)
    (hPerform : ∀ id, (perform id).perform settings = Pass.edit (visit id))
    (h : ∀ forest copy id, numbering.Tracks forest copy →
      Follows numbering.Copies Eq forest copy (visit id) (visit (numbering id)))
    (tracks : numbering.Tracks forest copy) :
    Follows numbering.Tracks Eq forest copy (walk visit) (walk visit) := by
  refine Follows.walk numbering.root (fun _ _ id tracks => tracks.copies.children_eq id)
    tracks.copies.size_le (fun id forest copy tracks => ?_) tracks
  exact tracks_of_visit settings (perform id) (hPerform id) tracks (h forest copy id tracks)

variable {settings : Settings} (tracks : numbering.Tracks forest copy)

include tracks

/-- Flattening is followed, since the copy may go down at least as far. -/
theorem flattenGroups_follows :
    Follows numbering.Tracks Eq forest copy flattenGroups flattenGroups := by
  intro result after hRun
  rw [flattenGroups_run_eq] at hRun ⊢
  have hDepth := Forest.walkDepth_le_walkDepth tracks.copies.size_le
  rw [← numbering.root]
  refine Follows.explore (fun id forest copy tracks => ?_) hDepth .root tracks result after hRun
  refine .get ((tracks_of_visit {} (.flattenGroup id) rfl tracks
    (flattenGroup_follows tracks.copies id)).bind fun _ _ _ _ _ hAfter => ?_)
  exact .pure hAfter (tracks.copies.children_eq id)

theorem tidyTexts_follows :
    Follows numbering.Tracks Eq forest copy (tidyTexts settings) (tidyTexts settings) :=
  walk_follows settings .tidyText (fun _ => rfl)
    (fun _ _ id tracks => tidyText_follows tracks.copies tracks.wellFormed settings id) tracks

theorem liftLists_follows : Follows numbering.Tracks Eq forest copy liftLists liftLists :=
  walk_follows {} .liftList (fun _ => rfl)
    (fun _ _ id tracks => liftList_follows tracks.copies id) tracks

theorem dropBreaks_follows :
    Follows numbering.Tracks Eq forest copy (dropBreaks settings) (dropBreaks settings) :=
  walk_follows settings .dropBreak (fun _ => rfl)
    (fun _ _ id tracks => dropBreak_follows tracks.copies settings id) tracks

/-! ### Settling -/

/-- A round of cleaning up is followed by a round in the copy. -/
theorem cleanUp_follows :
    Follows numbering.Tracks Eq forest copy (cleanUp settings) (cleanUp settings) :=
  (tidyTexts_follows tracks).bind fun _ _ _ _ _ hTidied =>
    (liftLists_follows hTidied).bind fun _ _ _ _ _ hLifted => dropBreaks_follows hLifted

/-- Revisions of a copy are ahead, but agree if those of the forest do. -/
theorem settleFrom_follows (done : Nat) {bound more : Nat} (h : bound ≤ more) :
    Follows numbering.Tracks Eq forest copy (settleFrom settings bound done)
      (settleFrom settings more done) := by
  induction bound generalizing forest copy done more with
  | zero => exact .of_error rfl
  | succ bound ih =>
    obtain ⟨more, rfl⟩ := Nat.exists_eq_add_of_lt h
    refine .get ((cleanUp_follows tracks).bind fun _ _ after last _ hAfter => .get ?_)
    rw [hAfter.copies.revision_eq, tracks.copies.revision_eq]
    simp only [Nat.add_right_cancel_iff]
    split_ifs
    · exact .pure hAfter rfl
    · exact ih hAfter (done + 1) (by omega)

/-- A copy lists at least as many children. -/
theorem length_listed_le : forest.listed.length ≤ copy.listed.length := by
  have hNodup := tracks.wellFormed.linked.nodup_listed.map numbering.injective
  rw [← List.length_map (f := numbering)]
  refine (hNodup.subperm fun id hId => ?_).length_le
  obtain ⟨child, hChild, rfl⟩ := List.mem_map.mp hId
  obtain ⟨parent, hParent⟩ := Forest.mem_listed_iff.mp hChild
  refine Forest.mem_listed_iff.mpr ⟨numbering parent, ?_⟩
  rw [tracks.copies.children_eq]
  exact numbering.mem_map_iff.mpr hParent

/-- Settling is followed round by round, and takes as many rounds. -/
theorem settle_follows :
    Follows numbering.Tracks Eq forest copy (settle settings) (settle settings) := by
  have hLength := length_listed_le tracks
  exact .get (settleFrom_follows tracks 0 (by omega))

end Edit

namespace Pass

variable {numbering : Numbering} {draft copy : Draft}

/-- A copy tracks a draft through a walk if the visits do the same to both. -/
theorem walk_follows {visit : NodeId → Pass Unit} (settings : Settings) (perform : NodeId → Visit)
    (hPerform : ∀ id, (perform id).perform settings = visit id)
    (h : ∀ draft copy id, numbering.Drafts numbering.Tracks draft copy →
      Follows (numbering.Drafts numbering.Copies) Eq draft copy (visit id) (visit (numbering id)))
    (drafts : numbering.Drafts numbering.Tracks draft copy) :
    Follows (numbering.Drafts numbering.Tracks) Eq draft copy (walk visit) (walk visit) := by
  refine Follows.walk numbering.root (fun _ _ id drafts => drafts.forest.copies.children_eq id)
    drafts.forest.copies.size_le (fun id draft copy drafts => ?_) drafts
  refine (h draft copy id drafts).strengthen fun _ after _ hRun hAfter =>
    ⟨⟨?_, hAfter.forest⟩, hAfter.warnings_eq⟩
  rw [← hPerform] at hRun
  exact (Visit.preserves_of_perform settings (perform id) drafts.forest.wellFormed hRun).wellFormed

/-- **Normalization of a copy** does the same as that of the forest, once the links upwards do. -/
theorem normalize_follows {forest copy : Forest} (settings : Settings)
    (hLink : Follows numbering.Tracks Eq forest copy Edit.linkUpwards Edit.linkUpwards) :
    Follows (numbering.Drafts numbering.Tracks) Eq ⟨forest, []⟩ ⟨copy, []⟩ (normalize settings)
      (normalize settings) := by
  have hTags : ∀ {draft copy}, numbering.Drafts numbering.Tracks draft copy →
      Follows (numbering.Drafts numbering.Tracks) Eq draft copy resolveTags resolveTags :=
    walk_follows settings .resolveTag (fun _ => rfl)
      fun _ _ id drafts => resolveTag_follows drafts id
  have hStyles : ∀ {draft copy}, numbering.Drafts numbering.Tracks draft copy →
      Follows (numbering.Drafts numbering.Tracks) Eq draft copy resolveStyles resolveStyles :=
    walk_follows settings .resolveStyle (fun _ => rfl)
      fun _ _ id drafts => resolveStyle_follows drafts id
  have hLinked : Follows (numbering.Drafts numbering.Tracks) Eq ⟨forest, []⟩ ⟨copy, []⟩
      (edit Edit.linkUpwards) (edit Edit.linkUpwards) := edit_follows hLink rfl
  refine hLinked.bind fun _ _ _ _ _ linked => ?_
  refine (hTags linked).bind fun _ _ _ _ _ tagged => ?_
  refine (edit_follows (Edit.flattenGroups_follows tagged.forest) tagged.warnings_eq).bind
    fun _ _ _ _ _ flat => ?_
  refine (edit_follows (Edit.tidyTexts_follows flat.forest) flat.warnings_eq).bind
    fun _ _ _ _ _ tidied => ?_
  refine (hStyles tidied).bind fun _ _ _ _ _ styled => ?_
  refine (edit_follows (Edit.liftLists_follows styled.forest) styled.warnings_eq).bind
    fun _ _ _ _ _ lifted => ?_
  refine (edit_follows (Edit.dropBreaks_follows lifted.forest) lifted.warnings_eq).bind
    fun _ _ _ _ _ dropped => ?_
  exact edit_follows (Edit.settle_follows dropped.forest) dropped.warnings_eq

end Pass

end WikiMarkup
