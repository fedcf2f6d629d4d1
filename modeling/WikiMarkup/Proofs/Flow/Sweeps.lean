import WikiMarkup.Proofs.Flow.Thinning
import WikiMarkup.Proofs.Forest.Linking
import WikiMarkup.Proofs.Visits

/-!
# The order of cleaning up does not matter

A `Sweep` tidies all texts or drops all breaks. Each sweep thins out the flow (`Sweep.run`), and
what is below the root of a forest that no sweep changes any more is never taken away, in whatever
order the sweeps come (`reaches_of_thins`). So all orders lead to the same.

**Key result.** `sweeps_agree`: any two sequences of sweeps come to their end, and if no sweep
changes anything any more after either of them, they leave the same nodes below the root, with the
same children and the same captions. Taking the two sweeps in turns gets that far, whichever comes
first.
-/

namespace WikiMarkup

open Relation (ReflTransGen)

/-- A pass that thins out the flow. -/
inductive Sweep
  /-- It tidies all texts. -/
  | texts
  /-- It drops all breaks that touch a block. -/
  | breaks

namespace Sweep

/-- What a sweep does. -/
def edit (settings : Settings) : Sweep → Edit Unit
  | texts => Edit.tidyTexts settings
  | breaks => Edit.dropBreaks settings

/-- Sweeps, one after the other. -/
def editAll (settings : Settings) (sweeps : List Sweep) : Edit Unit :=
  sweeps.forM (edit settings)

/-- A number of rounds, each of which goes through the same sweeps. -/
def rounds (number : Nat) (round : List Sweep) : List Sweep := (List.replicate number round).flatten

end Sweep

namespace Forest

/-- No sweep changes anything any more. -/
def Swept (settings : Settings) (forest : Forest) : Prop :=
  ∀ sweep : Sweep, (sweep.edit settings).run forest = .ok () forest

/-- Two forests have the same nodes below the root, with the same children and captions. -/
structure SameBelowRoot (forest other : Forest) : Prop where
  /-- The same nodes are below the root, in the same order. -/
  reachable_eq : other.reachable = forest.reachable
  /-- They have the same children. -/
  children_eq : ∀ id ∈ forest.reachable, other.children id = forest.children id
  /-- They have the same captions. -/
  caption_eq : ∀ id ∈ forest.reachable, other.caption id = forest.caption id

end Forest

variable {settings : Settings} {forest after : Forest} {id : NodeId}

namespace Sweep

open Forest (Thins Swept)

/-! ### What sweeps do -/

theorem thins_of_tidyText (wellFormed : forest.WellFormed)
    (h : (Edit.tidyText settings id).run forest = .ok () after) :
    after = forest ∨ Thins settings forest after := by
  by_cases hTidy : forest.Tidy settings id
  · rw [Edit.tidyText_unchanged hTidy] at h
    cases h
    exact .inl rfl
  · obtain ⟨found, hFound, hText, hParent, hPlain, hCases⟩ := Edit.tidyText_cases wellFormed hTidy
    rw [wellFormed.hasAncestorOfKind_iff] at hPlain
    have hLabel := Forest.label?_of_get? hFound
    refine .inr ?_
    rcases hCases with ⟨⟨hBlank, hTouches⟩, hRun⟩ | ⟨folded, -, hSettings, hFold, hRun⟩
    · rw [hRun] at h
      cases h
      exact .removed ⟨hParent, hTouches, .inr ⟨⟨_, hLabel, hText, hBlank⟩, hPlain⟩⟩
    · rw [hRun] at h
      cases h
      exact .folded ⟨hSettings, hParent, hPlain, _, hLabel, hText, hFold⟩

theorem thins_of_dropBreak (wellFormed : forest.WellFormed)
    (h : (Edit.dropBreak settings id).run forest = .ok () after) :
    after = forest ∨ Thins settings forest after := by
  by_cases hUnbroken : forest.Unbroken settings id
  · rw [Edit.dropBreak_unchanged hUnbroken] at h
    cases h
    exact .inl rfl
  · obtain ⟨hRun, hKind, hParent⟩ := Edit.dropBreak_detaches wellFormed hUnbroken
    have hTouches : forest.touchesBlock settings id := by
      by_contra hTouches
      exact hUnbroken fun _ _ => hTouches
    rw [hRun] at h
    cases h
    exact .inr (.removed ⟨hParent, hTouches, .inl hKind⟩)

theorem thins_of_visits {visit : NodeId → Edit Unit}
    (hVisit : ∀ {forest after : Forest} {id : NodeId}, forest.WellFormed →
      (visit id).run forest = .ok () after → after = forest ∨ Thins settings forest after)
    (wellFormed : forest.WellFormed) (h : Visits visit forest after) :
    ReflTransGen (Thins settings) forest after := by
  induction h with
  | refl => exact .refl
  | @tail before after _ hRun ih =>
    obtain ⟨id, hRun⟩ := hRun
    rcases hVisit (wellFormed.thinned ih).wellFormed hRun with rfl | hStep
    · exact ih
    · exact ih.tail hStep

/-- **A sweep comes to its end** and thins out the flow. -/
theorem run (settings : Settings) (wellFormed : forest.WellFormed) (sweep : Sweep) :
    ∃ after, (sweep.edit settings).run forest = .ok () after ∧ forest.Cleaned after ∧
      ReflTransGen (Thins settings) forest after := by
  cases sweep with
  | texts =>
    obtain ⟨after, hRun, -, hCleaned, -⟩ := Edit.tidyTexts_run settings wellFormed
    exact ⟨after, hRun, hCleaned,
      thins_of_visits thins_of_tidyText wellFormed (visits_of_walk hRun)⟩
  | breaks =>
    obtain ⟨after, hRun, -, hCleaned, -⟩ := Edit.dropBreaks_run settings wellFormed
    exact ⟨after, hRun, hCleaned,
      thins_of_visits thins_of_dropBreak wellFormed (visits_of_walk hRun)⟩

theorem editAll_cons_run {middle : Forest} {sweep : Sweep} {sweeps : List Sweep}
    (hFirst : (sweep.edit settings).run forest = .ok () middle)
    (hRest : (editAll settings sweeps).run middle = .ok () after) :
    (editAll settings (sweep :: sweeps)).run forest = .ok () after :=
  (run_bind_of_ok hFirst).trans hRest

theorem editAll_append_run {middle : Forest} {sweeps others : List Sweep}
    (hFirst : (editAll settings sweeps).run forest = .ok () middle)
    (hRest : (editAll settings others).run middle = .ok () after) :
    (editAll settings (sweeps ++ others)).run forest = .ok () after := by
  rw [editAll, List.forM_eq_forM, List.forM_append]
  exact (run_bind_of_ok hFirst).trans hRest

/-- So do several sweeps. -/
theorem editAll_run (settings : Settings) (wellFormed : forest.WellFormed)
    (sweeps : List Sweep) : ∃ after, (editAll settings sweeps).run forest = .ok () after ∧
      ReflTransGen (Thins settings) forest after := by
  induction sweeps generalizing forest with
  | nil => exact ⟨forest, rfl, .refl⟩
  | cons sweep sweeps ih =>
    obtain ⟨middle, hFirst, -, hMiddle⟩ := run settings wellFormed sweep
    obtain ⟨after, hRest, hAfter⟩ := ih (wellFormed.thinned hMiddle).wellFormed
    exact ⟨after, editAll_cons_run hFirst hRest, hMiddle.trans hAfter⟩

end Sweep

/-! ### Forests that no sweep changes -/

namespace Forest

/-- All texts below the root are tidy. -/
theorem Swept.tidy (swept : forest.Swept settings) (wellFormed : forest.WellFormed)
    (h : forest.Reaches .root id) : forest.Tidy settings id := by
  obtain ⟨after, hRun, -, -, hQuiet⟩ := Edit.tidyTexts_run settings wellFormed
  have hSame : (Edit.tidyTexts settings).run forest = .ok () forest := swept .texts
  rw [hSame] at hRun
  cases hRun
  exact hQuiet rfl id h

/-- No break below the root touches a block. -/
theorem Swept.unbroken (swept : forest.Swept settings) (wellFormed : forest.WellFormed)
    (h : forest.Reaches .root id) : forest.Unbroken settings id := by
  obtain ⟨after, hRun, -, -, hQuiet⟩ := Edit.dropBreaks_run settings wellFormed
  have hSame : (Edit.dropBreaks settings).run forest = .ok () forest := swept .breaks
  rw [hSame] at hRun
  cases hRun
  exact (hQuiet rfl).2 id h

theorem swept_of_settled (wellFormed : forest.WellFormed)
    (hTidy : ∀ id, forest.Reaches .root id → forest.Tidy settings id)
    (hUnbroken : ∀ id, forest.Reaches .root id → forest.Unbroken settings id) :
    forest.Swept settings := by
  intro sweep
  cases sweep with
  | texts =>
    exact Edit.clean_unchanged wellFormed fun id h => Edit.tidyText_unchanged (hTidy id h)
  | breaks =>
    exact Edit.clean_unchanged wellFormed fun id h => Edit.dropBreak_unchanged (hUnbroken id h)

theorem Swept.not_removable (swept : forest.Swept settings) (wellFormed : forest.WellFormed)
    (h : forest.Reaches .root id) : ¬ forest.Removable settings id := by
  rintro ⟨hParent, hTouches, hBreak | ⟨⟨label, hLabel, hText, hBlank⟩, hPlain⟩⟩
  · exact swept.unbroken wellFormed h hBreak hParent hTouches
  · rw [← wellFormed.hasAncestorOfKind_iff] at hPlain
    exact (swept.tidy wellFormed h label hLabel hText hParent hPlain).1 ⟨hBlank, hTouches⟩

variable {start left right : Forest}

/-- What one sequence of sweeps has folded no other has left as it was. -/
theorem FoldedIn.label?_ne {label : Node} {folded : String}
    (h : FoldedIn settings start right id label folded) (wellFormed : start.WellFormed)
    (thinned : Thinned settings start left) (swept : left.Swept settings)
    (hLeft : left.Reaches .root id) (hRight : right.Reaches .root id) :
    left.label? id ≠ start.label? id := by
  intro hSame
  have linked := thinned.wellFormed.linked
  have hParent : (left.parent? id).isSome := by
    rcases linked.reaches_iff_parent.mp hLeft with rfl | ⟨parent, hParent, -⟩
    · have hSome := h.isSome_parent?
      rw [wellFormed.linked.root_parent] at hSome
      cases hSome
    · rw [hParent]
      rfl
  have hPlain : ¬ left.hasAncestorOfKind id .preFormatted := by
    rw [thinned.wellFormed.hasAncestorOfKind_iff, thinned.under_iff wellFormed.linked hLeft]
    exact h.plain hRight
  have hTidy := swept.tidy thinned.wellFormed hLeft label (hSame.trans h.label?_start) h.kind_eq
    hParent hPlain
  have hNone := hTidy.2 h.foldLines
  rw [h.foldLines?_eq] at hNone
  cases hNone

/-- Where two sequences of sweeps leave a node, they leave it with the same label. -/
theorem Thinned.label?_eq_label? (hLeft : Thinned settings start left)
    (hRight : Thinned settings start right) (wellFormed : start.WellFormed)
    (sweptLeft : left.Swept settings) (sweptRight : right.Swept settings)
    (hReaches : left.Reaches .root id) (hOther : right.Reaches .root id) :
    right.label? id = left.label? id := by
  rcases hLeft.label?_eq id with h | ⟨label, folded, h⟩ <;>
    rcases hRight.label?_eq id with h' | ⟨label', folded', h'⟩
  · rw [h, h']
  · exact absurd h (h'.label?_ne wellFormed hLeft sweptLeft hReaches hOther)
  · exact absurd h' (h.label?_ne wellFormed hRight sweptRight hOther hReaches)
  · -- both have folded the same text
    obtain rfl : label = label' := Option.some.inj (h.label?_start.symm.trans h'.label?_start)
    obtain rfl : folded = folded' := Option.some.inj (h.foldLines?_eq.symm.trans h'.foldLines?_eq)
    rw [h.label?_eq, h'.label?_eq]

/-- **All orders lead to the same**: forests that no sweep changes any more agree below the root if
they have been thinned out from the same start. -/
theorem sameBelowRoot_of_swept (wellFormed : start.WellFormed)
    (hLeft : ReflTransGen (Thins settings) start left)
    (hRight : ReflTransGen (Thins settings) start right)
    (sweptLeft : left.Swept settings) (sweptRight : right.Swept settings) :
    left.SameBelowRoot right := by
  have thinnedLeft := wellFormed.thinned hLeft
  have thinnedRight := wellFormed.thinned hRight
  have hForth : ∀ {id}, left.Reaches .root id → right.Reaches .root id :=
    reaches_of_thins wellFormed thinnedLeft
      (fun id => sweptLeft.not_removable thinnedLeft.wellFormed) hRight
  have hBack : ∀ {id}, right.Reaches .root id → left.Reaches .root id :=
    reaches_of_thins wellFormed thinnedRight
      (fun id => sweptRight.not_removable thinnedRight.wellFormed) hLeft
  have thinner : Thinner settings start left right :=
    ⟨wellFormed, thinnedLeft, thinnedRight, hBack⟩
  have hChildren : ∀ id, left.Reaches .root id → right.children id = left.children id := by
    intro id h
    rw [thinner.children_eq (hForth h), List.filter_eq_self]
    intro child hChild
    have hReaches := hForth (h.trans (Reaches.of_mem_children hChild))
    rw [thinner.parent?_eq hReaches, thinnedLeft.wellFormed.linked.parent_iff.mpr hChild]
    rfl
  refine ⟨selfAndDescendants_congr thinnedLeft.wellFormed thinnedRight.wellFormed hChildren, ?_, ?_⟩
  · intro id hId
    exact hChildren id (thinnedLeft.wellFormed.mem_reachable_iff.mp hId)
  · intro id hId
    have h := thinnedLeft.wellFormed.mem_reachable_iff.mp hId
    exact caption_congr (thinnedLeft.label?_eq_label? thinnedRight wellFormed sweptLeft sweptRight
      h (hForth h))

end Forest

/-! ### Taking turns -/

namespace Sweep

open Forest (Swept SameBelowRoot)

/-- A round that changes no link is the last one. -/
theorem round_run (settings : Settings) (wellFormed : forest.WellFormed) :
    ∃ after, (editAll settings [texts, breaks]).run forest = .ok () after ∧ after.WellFormed ∧
      forest.Cleaned after ∧ (after.revision = forest.revision → after.Swept settings) := by
  obtain ⟨middle, hFirst, hMiddle, hCleaned, hTidy⟩ := Edit.tidyTexts_run settings wellFormed
  obtain ⟨after, hSecond, hAfter, hMore, hUnbroken⟩ := Edit.dropBreaks_run settings hMiddle
  have hTexts : (edit settings texts).run forest = .ok () middle := hFirst
  have hBreaks : (edit settings breaks).run middle = .ok () after := hSecond
  have hRound : (editAll settings [texts, breaks]).run forest = .ok () after :=
    editAll_cons_run hTexts (editAll_cons_run hBreaks rfl)
  refine ⟨after, hRound, hAfter, hCleaned.trans hMore, fun hSame => ?_⟩
  -- the revision only grows, so neither pass has changed it
  have hRevisions : middle.revision = forest.revision ∧ after.revision = middle.revision := by
    have hFirstLe := hCleaned.revision_le
    have hSecondLe := hMore.revision_le
    omega
  obtain ⟨rfl, hAllUnbroken⟩ := hUnbroken hRevisions.2
  exact Forest.swept_of_settled hAfter (hTidy hRevisions.1) hAllUnbroken

/-- **Rounds get to an end**, since each round but the last shortens the lists of children. -/
theorem exists_rounds (settings : Settings) (wellFormed : forest.WellFormed) :
    ∃ number after, (editAll settings (rounds number [texts, breaks])).run forest = .ok () after ∧
      after.WellFormed ∧ after.Swept settings := by
  induction hListed : forest.listed.length using Nat.strongRec generalizing forest with
  | _ listed ih =>
    obtain ⟨middle, hRun, hMiddle, hCleaned, hQuiet⟩ := round_run settings wellFormed
    by_cases hSame : middle.revision = forest.revision
    · exact ⟨1, middle, hRun, hMiddle, hQuiet hSame⟩
    · have hLoud := Nat.lt_of_le_of_ne hCleaned.revision_le (Ne.symm hSame)
      obtain ⟨number, after, hRest, hAfter, swept⟩ :=
        ih _ (hListed ▸ hCleaned.listed_lt hLoud) hMiddle rfl
      exact ⟨number + 1, after, editAll_append_run hRun hRest, hAfter, swept⟩

/-- Rounds in the other order are the same rounds between a first sweep and a last one. -/
theorem rounds_succ (number : Nat) (first second : Sweep) :
    rounds (number + 1) [first, second] =
      [first] ++ (rounds number [second, first] ++ [second]) := by
  induction number with
  | zero => rfl
  | succ number ih =>
    have hRound : ∀ number (round : List Sweep),
        rounds (number + 1) round = round ++ rounds number round := fun _ _ => rfl
    rw [hRound, ih, hRound number [second, first]]
    rfl

theorem exists_rounds_breaks_first (settings : Settings) (wellFormed : forest.WellFormed) :
    ∃ number after, (editAll settings (rounds number [breaks, texts])).run forest = .ok () after ∧
      after.Swept settings := by
  obtain ⟨middle, hFirst, -, hThins⟩ := run settings wellFormed breaks
  obtain ⟨number, after, hRounds, -, swept⟩ :=
    exists_rounds settings (wellFormed.thinned hThins).wellFormed
  refine ⟨number + 1, after, ?_, swept⟩
  rw [rounds_succ, List.singleton_append]
  exact editAll_cons_run hFirst
    (editAll_append_run hRounds (editAll_cons_run (swept texts) rfl))

/-- **The order of cleaning up does not matter.** Any two sequences of sweeps come to their end, and
if no sweep changes anything any more after either of them, they leave the same below the root.
Rounds of both sweeps get that far, whichever of the two comes first. -/
theorem sweeps_agree (wellFormed : forest.WellFormed) (settings : Settings) :
    (∀ sweeps others : List Sweep, ∃ left right,
      (editAll settings sweeps).run forest = .ok () left ∧
      (editAll settings others).run forest = .ok () right ∧
      (left.Swept settings → right.Swept settings → left.SameBelowRoot right)) ∧
    ∃ number number' left right,
      (editAll settings (rounds number [texts, breaks])).run forest = .ok () left ∧
      (editAll settings (rounds number' [breaks, texts])).run forest = .ok () right ∧
      left.Swept settings ∧ right.Swept settings ∧ left.SameBelowRoot right := by
  have hAgree : ∀ {sweeps others : List Sweep} {left right : Forest},
      (editAll settings sweeps).run forest = .ok () left →
      (editAll settings others).run forest = .ok () right →
      left.Swept settings → right.Swept settings → left.SameBelowRoot right := by
    intro sweeps others left right hLeft hRight
    obtain ⟨_, hLeftRun, hLeftThins⟩ := editAll_run settings wellFormed sweeps
    obtain ⟨_, hRightRun, hRightThins⟩ := editAll_run settings wellFormed others
    rw [hLeft] at hLeftRun
    rw [hRight] at hRightRun
    cases hLeftRun
    cases hRightRun
    exact Forest.sameBelowRoot_of_swept wellFormed hLeftThins hRightThins
  refine ⟨fun sweeps others => ?_, ?_⟩
  · obtain ⟨left, hLeft, -⟩ := editAll_run settings wellFormed sweeps
    obtain ⟨right, hRight, -⟩ := editAll_run settings wellFormed others
    exact ⟨left, right, hLeft, hRight, hAgree hLeft hRight⟩
  · obtain ⟨number, left, hLeft, -, sweptLeft⟩ := exists_rounds settings wellFormed
    obtain ⟨number', right, hRight, sweptRight⟩ := exists_rounds_breaks_first settings wellFormed
    exact ⟨number, number', left, right, hLeft, hRight, sweptLeft, sweptRight,
      hAgree hLeft hRight sweptLeft sweptRight⟩

/-- Two breaks with blank text between them, behind a word and in front of a paragraph. -/
def crowdedPage : ParseTree :=
  .node .article "" [.node .text "a" [] none none, .leaf .breakingReturn,
    .node .text "\n" [] none none, .leaf .breakingReturn, .leaf .paragraph] none none

/-- The second break goes first, then the blank text, then the first break: both orders take more
than one round to get there, and agree. -/
theorem sweeps_agree_crowdedPage :
    ∃ forest, Edit.linkUpwards.run (Forest.ofParseTree crowdedPage) = .ok () forest ∧
      forest.WellFormed ∧ ¬ forest.Swept {} ∧ ∃ number number' left right,
        (editAll {} (rounds number [texts, breaks])).run forest = .ok () left ∧
        (editAll {} (rounds number' [breaks, texts])).run forest = .ok () right ∧
        left.Swept {} ∧ right.Swept {} ∧ left.SameBelowRoot right := by
  obtain ⟨forest, hRun, wellFormed, -⟩ := Edit.linkUpwards_run crowdedPage
  refine ⟨forest, hRun, wellFormed, fun swept => ?_, (sweeps_agree wellFormed {}).2⟩
  -- dropping breaks counts up the revision
  have hLinked : observed (fun _ linked => linked.revision)
      (Edit.linkUpwards.run (Forest.ofParseTree crowdedPage)) = some 0 := by decide +kernel
  have hDropped : observed (fun _ after => after.revision)
      ((do Edit.linkUpwards; edit {} breaks : Edit Unit).run (Forest.ofParseTree crowdedPage)) =
        some 1 := by decide +kernel
  have hBefore := observe_eq hLinked hRun
  have hAfter := observe_eq hDropped ((run_bind_of_ok hRun).trans (swept breaks))
  omega

end Sweep

end WikiMarkup
