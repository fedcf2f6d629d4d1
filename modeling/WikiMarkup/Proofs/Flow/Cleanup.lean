import WikiMarkup.Proofs.Flow.Cleaning
import WikiMarkup.Proofs.Forest.Surroundings
import WikiMarkup.Proofs.Generic.Group
import WikiMarkup.Proofs.Text.Folding

/-!
# What cleaning up the flow does

For each of the three passes there is a condition at a node under which a visit changes nothing:
the text is tidy (`Forest.Tidy`), the list is not alone (`Forest.Lifted`), the break does not touch
a block (`Forest.Unbroken`). Otherwise the visit is loud, or it folds a caption.

**Key result.** `settle_run`: repeating the three passes comes to its end, and then all three
conditions hold of every node below the root. The last round has been quiet throughout, so it has
seen each of these nodes in the forest that comes out, but for captions that were folded.
-/

namespace WikiMarkup

namespace Forest

variable {forest after : Forest} {settings : Settings} {id parent : NodeId}

/-! ### What boundaries depend on -/

/-- Whether a node touches a block is settled by the links and by the layout of its neighbours. -/
theorem SameLinks.touchesBlock_eq (same : forest.SameLinks after)
    (hLayout : ∀ id, after.layout? settings id = forest.layout? settings id) (id : NodeId) :
    after.touchesBlock settings id = forest.touchesBlock settings id := by
  have hEnds : ∀ neighbour, after.endsFlow settings neighbour =
      forest.endsFlow settings neighbour := by
    intro neighbour
    cases neighbour with
    | none => rfl
    | some neighbour => rw [endsFlow, endsFlow, hLayout]
  have hNext : after.next? = forest.next? := funext same.next?_eq
  rw [touchesBlock, touchesBlock, neighbourBefore?, neighbourBefore?, neighbourAfter?,
    neighbourAfter?, hEnds, hEnds, same.previous?_eq, same.parent?_eq, hNext]

/-- Kinds do not depend on captions. -/
theorem kind?_modify_caption (caption : String) (other : NodeId) :
    (forest.modify id fun node => { node with caption := caption }).kind? other =
      forest.kind? other := by
  rw [kind?, kind?, get?_modify]
  split
  · rw [Option.map_map]
    rfl
  · rfl

/-- The layout of a text does not depend on its words. -/
theorem layout?_modify_caption {found : Node} (hFound : forest.get? id = some found)
    (hText : found.kind = .text) (caption : String) (other : NodeId) :
    (forest.modify id fun node => { node with caption := caption }).layout? settings other =
      forest.layout? settings other := by
  rw [layout?, layout?, get?_modify]
  split
  next h =>
    rw [← h, hFound]
    simp [Node.layout, hText]
  next => rfl

/-! ### Settled nodes -/

/-- If a node is text that is not preformatted and has a parent, it is not blank at a block, and it
is folded if that is asked for. -/
def Tidy (settings : Settings) (forest : Forest) (id : NodeId) : Prop :=
  ∀ label, forest.label? id = some label → label.kind = .text →
    (forest.parent? id).isSome → ¬ forest.hasAncestorOfKind id .preFormatted →
      ¬ (isBlank label.caption ∧ forest.touchesBlock settings id) ∧
        (settings.foldLines → foldLines? label.caption = none)

/-- If a node is a list, it is not alone in a paragraph that has a parent. -/
def Lifted (forest : Forest) (id : NodeId) : Prop :=
  forest.kind? id = some .itemList → ∀ paragraph, forest.parent? id = some paragraph →
    forest.kind? paragraph = some .paragraph → forest.siblings id = [] →
      forest.parent? paragraph = none

/-- If a node is a forced line break that has a parent, it does not touch a block. -/
def Unbroken (settings : Settings) (forest : Forest) (id : NodeId) : Prop :=
  forest.kind? id = some .breakingReturn → (forest.parent? id).isSome →
    ¬ forest.touchesBlock settings id

/-- A list takes the place of the paragraph in which it is alone. -/
structure Lifts (forest after : Forest) (list paragraph parent : NodeId) : Prop where
  /-- It is a list. -/
  kind_list : forest.kind? list = some .itemList
  /-- It is lifted from a paragraph. -/
  kind_paragraph : forest.kind? paragraph = some .paragraph
  /-- The paragraph has a place to give up. -/
  parent?_eq : forest.parent? paragraph = some parent
  /-- The paragraph holds nothing else. -/
  children_eq : forest.children paragraph = [list]
  /-- The paragraph gives up its place to what it holds. -/
  dissolved : forest.Dissolved after parent paragraph

/-- All three conditions hold below the root. -/
structure Clean (settings : Settings) (forest : Forest) : Prop where
  /-- All text is tidy. -/
  tidy : ∀ id, forest.Reaches .root id → forest.Tidy settings id
  /-- No list is to be lifted. -/
  lifted : ∀ id, forest.Reaches .root id → forest.Lifted id
  /-- No break is to be dropped. -/
  unbroken : ∀ id, forest.Reaches .root id → forest.Unbroken settings id

/-! ### Loud visits -/

theorem Advance.narrows_of_label {next : List NodeId} (advance : forest.Advance id after next)
    (hLabel : ∀ other, after.label? other = forest.label? other) : forest.Narrows after := by
  refine advance.narrows (fun label h _ => ?_) fun other label hOther h => ?_
  · rw [← hLabel, h]
  · rw [hLabel] at h
    exact absurd (mem_of_label? h) hOther

variable {Kept : Forest → Prop} {Settled : Forest → NodeId → Prop}

/-- To cut off a node cleans. -/
theorem WellFormed.cleans_cut (wellFormed : forest.WellFormed)
    (hParent : (forest.parent? id).isSome) :
    Cleans Kept Settled forest id (forest.cut id) := by
  have linked := wellFormed.linked
  have advance := wellFormed.advance_cut id
  refine ⟨advance, advance.narrows_of_label fun _ => label?_cut, .inl ⟨?_, ?_⟩⟩
  · rw [revision_cut, if_pos hParent]
    exact Nat.lt_succ_self _
  · refine linked.length_listed_lt (linked.cut id) (fun other h => ?_) hParent parent?_cut_self
    rw [parent?_cut] at h
    split at h
    · cases h
    · exact h

/-- To dissolve the parent in which a node is alone cleans. -/
theorem Dissolved.cleans_child {child : NodeId} (dissolved : forest.Dissolved after parent id)
    (wellFormed : forest.WellFormed) (hParent : forest.parent? id = some parent)
    (hAlone : forest.children id = [child]) :
    Cleans Kept Settled forest child after := by
  have advance := dissolved.advance_child wellFormed hParent hAlone
  exact ⟨advance, advance.narrows_of_label dissolved.label?_eq,
    .inl ⟨dissolved.revision_lt, dissolved.length_listed_lt wellFormed hParent⟩⟩

/-- A child without siblings is alone. -/
theorem Linked.children_eq_singleton (linked : forest.Linked)
    (hParent : forest.parent? id = some parent) (hSiblings : forest.siblings id = []) :
    forest.children parent = [id] := by
  obtain ⟨front, back, hChildren⟩ := List.append_of_mem (linked.parent_iff.mp hParent)
  have hNot := linked.notMem_of_children hChildren
  rw [siblings, siblingsAndSelf_of_parent? hParent, hChildren, List.filter_eq_nil_iff] at hSiblings
  have hNone : front ++ back = [] := by
    refine List.eq_nil_iff_forall_not_mem.mpr fun other hOther => ?_
    have hSame : other = id := by
      simpa using hSiblings other (List.perm_middle.mem_iff.mpr (List.mem_cons_of_mem id hOther))
    exact hNot (hSame ▸ hOther)
  obtain ⟨hFront, hBack⟩ := List.append_eq_nil_iff.mp hNone
  rw [hChildren, hFront, hBack, List.nil_append]

end Forest

namespace Edit

open Forest (Cleans)

variable {Kept : Forest → Prop} {forest : Forest} {settings : Settings} {id : NodeId}

/-! ### Forced line breaks -/

/-- A visit changes nothing at a node that is settled. -/
theorem dropBreak_unchanged (h : forest.Unbroken settings id) :
    (dropBreak settings id).run forest = .ok () forest := by
  rw [dropBreak, EStateM.run_bind, EStateM.run_get]
  dsimp only
  split
  next hKind =>
    cases hParent : forest.parent? id with
    | none => rfl
    | some parent =>
      dsimp only
      rw [if_neg (h hKind (by rw [hParent]; rfl))]
      rfl
  next => rfl

/-- A visit cuts off a break that touches a block. -/
theorem dropBreak_detaches (wellFormed : forest.WellFormed) (h : ¬ forest.Unbroken settings id) :
    (dropBreak settings id).run forest = .ok () (forest.cut id) ∧
      forest.kind? id = some .breakingReturn ∧ (forest.parent? id).isSome := by
  obtain ⟨hKind, h⟩ := Classical.not_imp.mp h
  obtain ⟨hParent, hTouches⟩ := Classical.not_imp.mp h
  obtain ⟨parent, hAbove⟩ := Option.isSome_iff_exists.mp hParent
  obtain ⟨_, after, hRun, rfl⟩ := (remove_guarded wellFormed parent id).ends
    (wellFormed.linked.parent_iff.mp hAbove)
  refine ⟨?_, hKind, hParent⟩
  rw [dropBreak, EStateM.run_bind, EStateM.run_get]
  dsimp only
  rw [if_pos hKind, hAbove]
  dsimp only
  rw [if_pos (not_not.mp hTouches)]
  exact hRun

theorem dropBreak_run (wellFormed : forest.WellFormed) (id : NodeId) :
    ∃ after, (dropBreak settings id).run forest = .ok () after ∧
      Cleans Kept (Forest.Unbroken settings) forest id after := by
  by_cases h : forest.Unbroken settings id
  · exact ⟨forest, dropBreak_unchanged h, wellFormed.cleans_self h⟩
  · obtain ⟨hRun, -, hParent⟩ := dropBreak_detaches wellFormed h
    exact ⟨_, hRun, wellFormed.cleans_cut hParent⟩

/-! ### Lists -/

theorem liftList_unchanged (h : forest.Lifted id) :
    (liftList id).run forest = .ok () forest := by
  rw [liftList, EStateM.run_bind, EStateM.run_get]
  dsimp only
  split
  next hKind =>
    cases hParent : forest.parent? id with
    | none => rfl
    | some paragraph =>
      dsimp only
      split
      next hAlone =>
        rw [h hKind paragraph hParent hAlone.1 (List.isEmpty_iff.mp hAlone.2)]
        rfl
      next => rfl
  next => rfl

/-- A visit lifts a list that is alone in a paragraph. -/
theorem liftList_lifts (wellFormed : forest.WellFormed) (h : ¬ forest.Lifted id) :
    ∃ after paragraph parent, (liftList id).run forest = .ok () after ∧
      forest.Lifts after id paragraph parent := by
  simp only [Forest.Lifted, Classical.not_imp, not_forall] at h
  obtain ⟨hKind, paragraph, hParent, hParagraph, hSiblings, hAbove⟩ := h
  obtain ⟨parent, hAbove⟩ := Option.ne_none_iff_exists'.mp hAbove
  have hAlone := wellFormed.linked.children_eq_singleton hParent hSiblings
  obtain ⟨after, hRun, dissolved⟩ := dissolve_run wellFormed hAbove
  refine ⟨after, paragraph, parent, ?_, hKind, hParagraph, hAbove, hAlone, dissolved⟩
  rw [liftList, EStateM.run_bind, EStateM.run_get]
  dsimp only
  rw [if_pos hKind, hParent]
  dsimp only
  rw [if_pos ⟨hParagraph, List.isEmpty_iff.mpr hSiblings⟩, hAbove, ← hAlone]
  exact hRun

theorem liftList_run (wellFormed : forest.WellFormed) (id : NodeId) :
    ∃ after, (liftList id).run forest = .ok () after ∧
      Cleans Kept Forest.Lifted forest id after := by
  by_cases h : forest.Lifted id
  · exact ⟨forest, liftList_unchanged h, wellFormed.cleans_self h⟩
  · obtain ⟨after, paragraph, parent, hRun, lifts⟩ := liftList_lifts wellFormed h
    exact ⟨after, hRun,
      lifts.dissolved.cleans_child wellFormed lifts.parent?_eq lifts.children_eq⟩

/-! ### Text -/

/-- What a visit does at text that is not preformatted and has a parent. -/
theorem tidyText_run_eq {found : Node} {parent : NodeId} (hFound : forest.get? id = some found)
    (hParent : found.parent = some parent) (hText : found.kind = .text)
    (hPlain : ¬ forest.hasAncestorOfKind id .preFormatted) :
    (tidyText settings id).run forest =
      (if isBlank found.caption && forest.touchesBlock settings id then remove parent id
        else if settings.foldLines then foldCaption id found else pure ()).run forest := by
  rw [tidyText, EStateM.run_bind, EStateM.run_get]
  dsimp only
  rw [hFound]
  dsimp only
  rw [hParent]
  dsimp only
  rw [if_pos ⟨hText, hPlain⟩]

/-- A visit changes nothing at any other node. -/
theorem tidyText_skips (h : ∀ found, forest.get? id = some found → found.kind = .text →
      found.parent.isSome → forest.hasAncestorOfKind id .preFormatted) :
    (tidyText settings id).run forest = .ok () forest := by
  rw [tidyText, EStateM.run_bind, EStateM.run_get]
  dsimp only
  cases hFound : forest.get? id with
  | none => rfl
  | some found =>
    dsimp only
    cases hParent : found.parent with
    | none => rfl
    | some parent =>
      dsimp only
      rw [if_neg]
      · rfl
      · exact fun hPlain => hPlain.2 (h found hFound hPlain.1 (by rw [hParent]; rfl))

theorem tidyText_unchanged (h : forest.Tidy settings id) :
    (tidyText settings id).run forest = .ok () forest := by
  by_cases hSkip : ∀ found, forest.get? id = some found → found.kind = .text →
      found.parent.isSome → forest.hasAncestorOfKind id .preFormatted
  · exact tidyText_skips hSkip
  · simp only [Classical.not_imp, not_forall] at hSkip
    obtain ⟨found, hFound, hText, hParent, hPlain⟩ := hSkip
    obtain ⟨parent, hAbove⟩ := Option.isSome_iff_exists.mp hParent
    rw [← Forest.parent?_of_get? hFound] at hParent
    have hTidy : ¬ (isBlank found.caption ∧ forest.touchesBlock settings id) ∧
        (settings.foldLines → foldLines? found.caption = none) :=
      h found.unlinked (Forest.label?_of_get? hFound) hText hParent hPlain
    rw [tidyText_run_eq hFound hAbove hText hPlain, if_neg (by simpa using hTidy.1)]
    split
    next hFold =>
      rw [foldCaption, hTidy.2 hFold]
      rfl
    next => rfl

/-- To fold a caption is quiet, and leaves tidy what is not blank at a block. -/
theorem cleans_fold {found : Node} {folded : String} (wellFormed : forest.WellFormed)
    (hFound : forest.get? id = some found) (hText : found.kind = .text)
    (hBlank : ¬ (isBlank found.caption ∧ forest.touchesBlock settings id))
    (hFold : foldLines? found.caption = some folded) :
    Cleans (fun _ => True) (Forest.Tidy settings) forest id
      (forest.modify id fun node => { node with caption := folded }) := by
  have same : forest.SameLinks (forest.modify id fun node => { node with caption := folded }) :=
    Forest.sameLinks_modify fun _ _ => ⟨rfl, rfl⟩
  have hOthers : ∀ {other}, other ≠ id →
      (forest.modify id fun node => { node with caption := folded }).label? other =
        forest.label? other := fun hOther => Forest.label?_modify_of_ne (Ne.symm hOther)
  have hLabel : (forest.modify id fun node => { node with caption := folded }).label? id =
      some { found.unlinked with caption := folded } := by
    rw [Forest.label?_modify_self, hFound]
    rfl
  have hTouches : ∀ other,
      (forest.modify id fun node => { node with caption := folded }).touchesBlock settings other =
        forest.touchesBlock settings other :=
    same.touchesBlock_eq (Forest.layout?_modify_caption hFound hText folded)
  have advance := same.advance wellFormed hOthers
  refine ⟨advance, advance.narrows ?_ ?_, .inr ⟨same, fun _ => trivial, ?_, ?_⟩⟩
  · intro label h hGeneric
    rw [hLabel, Option.some_inj] at h
    have hFoundGeneric : found.kind.isGeneric := by
      rw [← h] at hGeneric
      exact hGeneric
    rw [hText] at hFoundGeneric
    cases hFoundGeneric
  · intro other label hOther h
    exact absurd (same.mem_iff.mp (Forest.mem_of_label? h)) hOther
  · intro label h _ _ _
    rw [hLabel, Option.some_inj] at h
    -- folding keeps blank texts blank and leaves nothing to fold
    rw [hTouches, ← h]
    dsimp only
    rw [isBlank_foldLines? hFold]
    exact ⟨hBlank, fun _ => foldLines?_foldLines? hFold⟩
  · intro other hOther hTidy label h hKindText hParent hPlain
    rw [hOthers hOther] at h
    rw [same.parent?_eq] at hParent
    rw [same.hasAncestorOfKind_eq (Forest.kind?_modify_caption folded)] at hPlain
    rw [hTouches]
    exact hTidy label h hKindText hParent hPlain

/-- What a visit does at text that is not tidy: it cuts the text off if it is blank, and else it
folds the caption. -/
theorem tidyText_cases (wellFormed : forest.WellFormed) (h : ¬ forest.Tidy settings id) :
    ∃ found, forest.get? id = some found ∧ found.kind = .text ∧ (forest.parent? id).isSome ∧
      ¬ forest.hasAncestorOfKind id .preFormatted ∧
      (((isBlank found.caption ∧ forest.touchesBlock settings id) ∧
          (tidyText settings id).run forest = .ok () (forest.cut id)) ∨
        ∃ folded, ¬ (isBlank found.caption ∧ forest.touchesBlock settings id) ∧
          settings.foldLines ∧ foldLines? found.caption = some folded ∧
          (tidyText settings id).run forest =
            .ok () (forest.modify id fun node => { node with caption := folded })) := by
  simp only [Forest.Tidy, Classical.not_imp, not_forall] at h
  obtain ⟨label, hLabel, hText, hParent, hPlain, h⟩ := h
  obtain ⟨found, hFound, rfl⟩ := Option.map_eq_some_iff.mp hLabel
  obtain ⟨parent, hAbove⟩ := Option.isSome_iff_exists.mp hParent
  have hFoundParent := hAbove
  rw [Forest.parent?_of_get? hFound] at hFoundParent
  refine ⟨found, hFound, hText, hParent, hPlain, ?_⟩
  rw [tidyText_run_eq hFound hFoundParent hText hPlain]
  by_cases hBlank : isBlank found.caption ∧ forest.touchesBlock settings id
  · obtain ⟨_, after, hRun, rfl⟩ := (remove_guarded wellFormed parent id).ends
      (wellFormed.linked.parent_iff.mp hAbove)
    refine .inl ⟨hBlank, ?_⟩
    rw [if_pos (by simpa using hBlank)]
    exact hRun
  · have hFold : ¬ (settings.foldLines → foldLines? found.caption = none) :=
      fun hFold => h ⟨hBlank, hFold⟩
    obtain ⟨hSettings, hFold⟩ := Classical.not_imp.mp hFold
    obtain ⟨folded, hFolded⟩ := Option.ne_none_iff_exists'.mp hFold
    refine .inr ⟨folded, hBlank, hSettings, hFolded, ?_⟩
    rw [if_neg (by simpa using hBlank), if_pos hSettings, foldCaption, hFolded]
    rfl

theorem tidyText_run (wellFormed : forest.WellFormed) (id : NodeId) :
    ∃ after, (tidyText settings id).run forest = .ok () after ∧
      Cleans (fun _ => True) (Forest.Tidy settings) forest id after := by
  by_cases h : forest.Tidy settings id
  · exact ⟨forest, tidyText_unchanged h, wellFormed.cleans_self h⟩
  · obtain ⟨found, hFound, hText, hParent, -, ⟨-, hRun⟩ | ⟨folded, hBlank, -, hFold, hRun⟩⟩ :=
      tidyText_cases wellFormed h
    · exact ⟨_, hRun, wellFormed.cleans_cut hParent⟩
    · exact ⟨_, hRun, cleans_fold wellFormed hFound hText hBlank hFold⟩

/-! ### Passes -/

/-- **Tidying texts** comes to its end, and if it changes no link all text is tidy. -/
theorem tidyTexts_run (settings : Settings) (wellFormed : forest.WellFormed) :
    ∃ after, (tidyTexts settings).run forest = .ok () after ∧ after.WellFormed ∧
      forest.Cleaned after ∧
      (after.revision = forest.revision →
        ∀ id, after.Reaches .root id → after.Tidy settings id) := by
  obtain ⟨after, hRun, hAfter, hCleaned, hQuiet⟩ :=
    clean_run (fun wellFormed _ => tidyText_run wellFormed _) wellFormed trivial
  exact ⟨after, hRun, hAfter, hCleaned, fun hSame => (hQuiet hSame).2⟩

/-- **Lifting lists** comes to its end, and if it changes no link it changes nothing, and no list
is left to lift. -/
theorem liftLists_run (wellFormed : forest.WellFormed) :
    ∃ after, liftLists.run forest = .ok () after ∧ after.WellFormed ∧ forest.Cleaned after ∧
      (after.revision = forest.revision →
        after = forest ∧ ∀ id, after.Reaches .root id → after.Lifted id) :=
  clean_run (fun wellFormed _ => liftList_run wellFormed _) wellFormed rfl

/-- **Dropping breaks** comes to its end, and if it changes no link it changes nothing, and no
break is left to drop. -/
theorem dropBreaks_run (settings : Settings) (wellFormed : forest.WellFormed) :
    ∃ after, (dropBreaks settings).run forest = .ok () after ∧ after.WellFormed ∧
      forest.Cleaned after ∧
      (after.revision = forest.revision →
        after = forest ∧ ∀ id, after.Reaches .root id → after.Unbroken settings id) :=
  clean_run (fun wellFormed _ => dropBreak_run wellFormed _) wellFormed rfl

theorem tidyTexts_unchanged (wellFormed : forest.WellFormed) (clean : forest.Clean settings) :
    (tidyTexts settings).run forest = .ok () forest :=
  clean_unchanged wellFormed fun id hReaches => tidyText_unchanged (clean.tidy id hReaches)

theorem liftLists_unchanged (wellFormed : forest.WellFormed) (clean : forest.Clean settings) :
    liftLists.run forest = .ok () forest :=
  clean_unchanged wellFormed fun id hReaches => liftList_unchanged (clean.lifted id hReaches)

theorem dropBreaks_unchanged (wellFormed : forest.WellFormed) (clean : forest.Clean settings) :
    (dropBreaks settings).run forest = .ok () forest :=
  clean_unchanged wellFormed fun id hReaches =>
    dropBreak_unchanged (clean.unbroken id hReaches)

/-! ### Settling -/

/-- A round comes to its end, and if it changes no link the forest is clean. -/
theorem cleanUp_run (settings : Settings) (wellFormed : forest.WellFormed) :
    ∃ after, (cleanUp settings).run forest = .ok () after ∧ after.WellFormed ∧
      forest.Cleaned after ∧ (after.revision = forest.revision → after.Clean settings) := by
  obtain ⟨tidied, hTidy, hTidied, hFirst, hTidyQuiet⟩ := tidyTexts_run settings wellFormed
  obtain ⟨lifted, hLift, hLifted, hSecond, hLiftQuiet⟩ := liftLists_run hTidied
  obtain ⟨after, hDrop, hAfter, hThird, hDropQuiet⟩ := dropBreaks_run settings hLifted
  refine ⟨after, ?_, hAfter, (hFirst.trans hSecond).trans hThird, fun hSame => ?_⟩
  · exact (run_bind_of_ok hTidy).trans ((run_bind_of_ok hLift).trans hDrop)
  · -- the revision only grows, so none of the three passes has changed it
    have hRevisions : tidied.revision = forest.revision ∧
        lifted.revision = tidied.revision ∧ after.revision = lifted.revision := by
      have hFirstLe := hFirst.revision_le
      have hSecondLe := hSecond.revision_le
      have hThirdLe := hThird.revision_le
      omega
    obtain ⟨rfl, hUnbroken⟩ := hDropQuiet hRevisions.2.2
    obtain ⟨rfl, hAllLifted⟩ := hLiftQuiet hRevisions.2.1
    exact ⟨hTidyQuiet hRevisions.1, hAllLifted, hUnbroken⟩

private theorem settleFrom_succ_run {after : Forest} (bound done : Nat)
    (hRun : (cleanUp settings).run forest = .ok () after) :
    (settleFrom settings (bound + 1) done).run forest =
      (if after.revision = forest.revision then pure (done + 1)
        else settleFrom settings bound (done + 1)).run after := by
  rw [settleFrom, EStateM.run_bind, EStateM.run_get]
  dsimp only
  rw [run_bind_of_ok hRun, EStateM.run_bind, EStateM.run_get]

/-- Every round that changes links shortens the lists of children, so the bound is not met. -/
theorem settleFrom_run (settings : Settings) (wellFormed : forest.WellFormed) {bound : Nat}
    (hBound : forest.listed.length < bound) (done : Nat) :
    ∃ rounds after, (settleFrom settings bound done).run forest = .ok rounds after ∧
      after.WellFormed ∧ forest.Cleaned after ∧ after.Clean settings := by
  induction bound generalizing forest done with
  | zero => exact absurd hBound (Nat.not_lt_zero _)
  | succ bound ih =>
    obtain ⟨middle, hRun, hMiddle, hCleaned, hQuiet⟩ := cleanUp_run settings wellFormed
    rw [settleFrom_succ_run bound done hRun]
    split
    next hSame => exact ⟨done + 1, middle, rfl, hMiddle, hCleaned, hQuiet hSame⟩
    next hChanged =>
      -- the round was loud, so fewer nodes are listed
      have hLoud : forest.revision < middle.revision :=
        Nat.lt_of_le_of_ne hCleaned.revision_le (Ne.symm hChanged)
      have hListed := hCleaned.listed_lt hLoud
      obtain ⟨rounds, after, hRun, hAfter, hRest, clean⟩ := ih hMiddle (by omega) (done + 1)
      exact ⟨rounds, after, hRun, hAfter, hCleaned.trans hRest, clean⟩

/-- **Settling** comes to its end, and then the forest is clean. -/
theorem settle_run (settings : Settings) (wellFormed : forest.WellFormed) :
    ∃ rounds after, (settle settings).run forest = .ok rounds after ∧ after.WellFormed ∧
      forest.Cleaned after ∧ after.Clean settings := by
  rw [settle, EStateM.run_bind, EStateM.run_get]
  exact settleFrom_run settings wellFormed (Nat.lt_succ_self _) 0

theorem cleanUp_unchanged (wellFormed : forest.WellFormed) (clean : forest.Clean settings) :
    (cleanUp settings).run forest = .ok () forest :=
  (run_bind_of_ok (tidyTexts_unchanged wellFormed clean)).trans
    ((run_bind_of_ok (liftLists_unchanged wellFormed clean)).trans
      (dropBreaks_unchanged wellFormed clean))

/-- A clean forest is settled after one round, which changes nothing. -/
theorem settle_unchanged (wellFormed : forest.WellFormed) (clean : forest.Clean settings) :
    (settle settings).run forest = .ok 1 forest := by
  rw [settle, EStateM.run_bind, EStateM.run_get]
  dsimp only
  rw [settleFrom_succ_run _ 0 (cleanUp_unchanged wellFormed clean), if_pos rfl]
  rfl

end Edit

end WikiMarkup
