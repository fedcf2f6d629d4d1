import WikiMarkup.Proofs.Flow.Sweeps

/-!
# Spaces between words

Blank text between two words is a space that a reader sees. Words may be wrapped in markup of any
depth, so the word behind a space is found by climbing out of everything that ends with the space,
as long as it is inline, and the word before it likewise (`Forest.Flows`). Tidying texts looks less
far: it takes the parent of a first child for what comes before it, and it climbs at most one level
for what comes behind a last child.

**Key result.** `tidyTexts_spares_spaces`: a space between two words stays under its parent if the
word behind it is at most one level up and the parent stays, and in preformatted text it always
does. If the word behind it lies further up the space is taken away (`not_forall_space_stays`).
-/

namespace WikiMarkup

open Relation (ReflTransGen)

namespace Forest

/-! ### Words -/

/-- The neighbour of a node in the flow, on the side on which siblings are looked for: the sibling
there, or else the neighbour of the parent if the parent is inline. -/
inductive Flows (settings : Settings) (forest : Forest) (beside : NodeId → Option NodeId) :
    NodeId → NodeId → Prop
  /-- There is a sibling. -/
  | beside {id neighbour : NodeId} (h : beside id = some neighbour) :
      Flows settings forest beside id neighbour
  /-- There is none, so the parent is left on this side. -/
  | climb {id parent neighbour : NodeId} (hEdge : beside id = none)
      (hParent : forest.parent? id = some parent)
      (hInline : forest.layout? settings parent = some .inline)
      (h : Flows settings forest beside parent neighbour) :
      Flows settings forest beside id neighbour

/-- A node that is inline, and not blank text. -/
structure IsWord (settings : Settings) (forest : Forest) (id : NodeId) : Prop where
  /-- It is inline. -/
  layout?_eq : forest.layout? settings id = some .inline
  /-- It is not blank text. -/
  not_isBlankText : ¬ forest.Has Node.IsBlankText id

/-- Blank text below the root between two words. -/
structure IsSpace (settings : Settings) (forest : Forest) (id : NodeId) : Prop where
  /-- It is below the root. -/
  reaches : forest.Reaches .root id
  /-- It is blank text. -/
  isBlankText : forest.Has Node.IsBlankText id
  /-- There is a word before it. -/
  before : ∃ word, forest.Flows settings forest.previous? id word ∧ forest.IsWord settings word
  /-- There is a word behind it. -/
  after : ∃ word, forest.Flows settings forest.next? id word ∧ forest.IsWord settings word

variable {settings : Settings} {start forest after : Forest} {id parent neighbour : NodeId}

/-- Text that is not blank is a word. -/
theorem isWord_of_text {label : Node} (hLabel : forest.label? id = some label)
    (h : label.kind = .text ∧ ¬ isBlank label.caption) : forest.IsWord settings id where
  layout?_eq := by
    rw [layout?_eq_map_label?, hLabel, Option.map_some, Node.layout, h.1]
    rfl
  not_isBlankText := by
    rw [has_iff_of_label? hLabel]
    exact fun hBlank => h.2 hBlank.2

/-- What has a neighbour in the flow has a parent. -/
theorem Flows.exists_parent? (h : forest.Flows settings forest.next? id neighbour) :
    ∃ parent, forest.parent? id = some parent := by
  cases h with
  | beside h =>
    refine Option.ne_none_iff_exists'.mp fun hNone => ?_
    rw [next?_eq_none_of_parent? hNone] at h
    cases h
  | climb _ hParent => exact ⟨_, hParent⟩

/-! ### Neighbours -/

theorem neighbourBefore?_of_previous? (h : forest.previous? id = some neighbour) :
    forest.neighbourBefore? id = some neighbour := by
  rw [neighbourBefore?, h]
  rfl

theorem neighbourBefore?_of_previous?_eq_none (h : forest.previous? id = none) :
    forest.neighbourBefore? id = forest.parent? id := by
  rw [neighbourBefore?, h]
  rfl

theorem neighbourAfter?_of_next? (h : forest.next? id = some neighbour) :
    forest.neighbourAfter? id = some neighbour := by
  rw [neighbourAfter?, h]
  rfl

theorem neighbourAfter?_of_next?_eq_none (h : forest.next? id = none) :
    forest.neighbourAfter? id = (forest.parent? id).bind forest.next? := by
  rw [neighbourAfter?, h]
  rfl

/-! ### Tidying texts -/

/-- What tidying any number of texts leads to. -/
structure Tidied (settings : Settings) (start forest : Forest) : Prop where
  /-- The flow has been thinned out. -/
  thinned : Thinned settings start forest
  /-- What has been taken away is blank text that is not preformatted. -/
  isBlankText : ∀ {id : NodeId}, (start.parent? id).isSome → forest.parent? id = none →
    start.Has Node.IsBlankText id ∧ ¬ start.Under (·.kind = .preFormatted) id

theorem WellFormed.tidied_self (wellFormed : forest.WellFormed) :
    Tidied settings forest forest where
  thinned := wellFormed.thinned_self
  isBlankText h hNone := by
    rw [hNone] at h
    cases h

namespace Tidied

variable (tidied : Tidied settings start forest)

include tidied

/-- What is not blank keeps its parent, and so does what is preformatted. -/
theorem parent?_eq (hParent : start.parent? id = some parent)
    (h : ¬ start.Has Node.IsBlankText id ∨ start.Under (·.kind = .preFormatted) id) :
    forest.parent? id = some parent := by
  cases hNow : forest.parent? id with
  | none =>
    obtain ⟨hBlank, hPlain⟩ := tidied.isBlankText (by rw [hParent]; rfl) hNow
    exact absurd h (not_or.mpr ⟨not_not.mpr hBlank, hPlain⟩)
  | some above => rw [← hParent, tidied.thinned.parent?_eq hNow]

/-- What is preformatted stays preformatted. -/
theorem under (linked : start.Linked) (h : start.Under (·.kind = .preFormatted) id) :
    forest.Under (·.kind = .preFormatted) id := by
  obtain ⟨above, hNe, hReaches, hKind⟩ := h
  have linkedNow := tidied.thinned.wellFormed.linked
  refine ⟨above, hNe, ?_, tidied.thinned.has_kind_iff.mpr hKind⟩
  clear hNe
  -- no link on the way down from the preformatted node has been cut
  induction hReaches with
  | refl => exact Reaches.refl forest above
  | @tail middle below hAbove hChild ih =>
    by_cases hSame : above = below
    · exact hSame ▸ Reaches.refl forest above
    · have hUnder : start.Under (·.kind = .preFormatted) below :=
        ⟨above, hSame, Reaches.trans hAbove (Reaches.of_mem_children hChild), hKind⟩
      have hParent := tidied.parent?_eq (linked.parent_iff.mpr hChild) (.inr hUnder)
      exact ih.trans (.of_mem_children (linkedNow.parent_iff.mp hParent))

/-- A node that has kept its parent has kept the siblings beside it that are not blank. -/
theorem previous?_eq (linked : start.Linked) (hParent : forest.parent? id = some parent)
    (h : ∀ before, start.previous? id = some before → ¬ start.Has Node.IsBlankText before) :
    forest.previous? id = start.previous? id := by
  refine linked.previous?_eq_of_filter tidied.thinned.wellFormed.linked
    (tidied.thinned.parent?_eq hParent) (tidied.thinned.children_eq parent)
    (by rw [hParent]; rfl) fun before hChild hBefore => ?_
  rw [tidied.parent?_eq (linked.parent_iff.mpr hChild) (.inl (h before hBefore))]
  rfl

theorem next?_eq (linked : start.Linked) (hParent : forest.parent? id = some parent)
    (h : ∀ behind, start.next? id = some behind → ¬ start.Has Node.IsBlankText behind) :
    forest.next? id = start.next? id := by
  refine linked.next?_eq_of_filter tidied.thinned.wellFormed.linked
    (tidied.thinned.parent?_eq hParent) (tidied.thinned.children_eq parent)
    (by rw [hParent]; rfl) fun behind hChild hBehind => ?_
  rw [tidied.parent?_eq (linked.parent_iff.mpr hChild) (.inl (h behind hBehind))]
  rfl

theorem not_endsFlow (h : start.layout? settings id = some .inline) :
    ¬ forest.endsFlow settings (some id) := by
  rw [endsFlow, tidied.thinned.layout?_eq, h]
  simp

/-- What comes before a space does not end the flow. -/
theorem endsFlow_neighbourBefore? (linked : start.Linked) (space : start.IsSpace settings id)
    (hParent : forest.parent? id = some parent) :
    ¬ forest.endsFlow settings (forest.neighbourBefore? id) := by
  obtain ⟨word, hFlows, hWord⟩ := space.before
  cases hFlows with
  | beside h =>
    have hPrevious := tidied.previous?_eq linked hParent fun before hBefore => by
      rw [h, Option.some_inj] at hBefore
      exact hBefore ▸ hWord.not_isBlankText
    rw [neighbourBefore?_of_previous? (hPrevious.trans h)]
    exact tidied.not_endsFlow hWord.layout?_eq
  | climb hEdge hFound hInline =>
    have hPrevious := tidied.previous?_eq linked hParent fun before hBefore => by
      rw [hEdge] at hBefore
      cases hBefore
    rw [tidied.thinned.parent?_eq hParent, Option.some_inj] at hFound
    rw [neighbourBefore?_of_previous?_eq_none (hPrevious.trans hEdge), hParent]
    exact tidied.not_endsFlow (hFound ▸ hInline)

/-- What comes behind it does not either, as long as the word there is at most one level up. -/
theorem endsFlow_neighbourAfter? (linked : start.Linked) (space : start.IsSpace settings id)
    (hParent : forest.parent? id = some parent)
    (hNear : (start.next? id).isSome ∨
      (start.next? parent).isSome ∧ (forest.parent? parent).isSome) :
    ¬ forest.endsFlow settings (forest.neighbourAfter? id) := by
  obtain ⟨word, hFlows, hWord⟩ := space.after
  cases hFlows with
  | beside h =>
    have hNext := tidied.next?_eq linked hParent fun behind hBehind => by
      rw [h, Option.some_inj] at hBehind
      exact hBehind ▸ hWord.not_isBlankText
    rw [neighbourAfter?_of_next? (hNext.trans h)]
    exact tidied.not_endsFlow hWord.layout?_eq
  | climb hEdge hFound _ hRest =>
    have hNext := tidied.next?_eq linked hParent fun behind hBehind => by
      rw [hEdge] at hBehind
      cases hBehind
    rw [tidied.thinned.parent?_eq hParent, Option.some_inj] at hFound
    subst hFound
    rw [neighbourAfter?_of_next?_eq_none (hNext.trans hEdge), hParent, Option.bind_some]
    obtain ⟨hBehind, hAbove⟩ := hNear.resolve_left (by simp [hEdge])
    obtain ⟨grandparent, hAbove⟩ := Option.isSome_iff_exists.mp hAbove
    cases hRest with
    | beside h =>
      have hLast := tidied.next?_eq linked hAbove fun behind hBehind => by
        rw [h, Option.some_inj] at hBehind
        exact hBehind ▸ hWord.not_isBlankText
      rw [hLast, h]
      exact tidied.not_endsFlow hWord.layout?_eq
    | climb hFar =>
      rw [hFar] at hBehind
      cases hBehind

/-- **A space is kept from blocks** as long as the word behind it is not far. -/
theorem not_touchesBlock (linked : start.Linked) (space : start.IsSpace settings id)
    (hParent : forest.parent? id = some parent)
    (hNear : (start.next? id).isSome ∨
      (start.next? parent).isSome ∧ (forest.parent? parent).isSome) :
    ¬ forest.touchesBlock settings id := by
  rw [touchesBlock, Bool.or_eq_true, not_or]
  exact ⟨tidied.endsFlow_neighbourBefore? linked space hParent,
    tidied.endsFlow_neighbourAfter? linked space hParent hNear⟩

end Tidied

end Forest

namespace Edit

open Forest (Thins Tidied Thinned Thinner IsSpace)

variable {settings : Settings} {forest after : Forest} {id parent : NodeId}

/-- A visit leaves the links alone, or it cuts off blank text that touches a block. -/
theorem tidyText_links (wellFormed : forest.WellFormed)
    (hRun : (tidyText settings id).run forest = .ok () after) :
    forest.SameLinks after ∨ after = forest.cut id ∧ forest.Has Node.IsBlankText id ∧
      ¬ forest.Under (·.kind = .preFormatted) id ∧ forest.touchesBlock settings id := by
  by_cases hTidy : forest.Tidy settings id
  · rw [tidyText_unchanged hTidy] at hRun
    cases hRun
    exact .inl (.refl forest)
  · obtain ⟨found, hFound, hText, -, hPlain, hCases⟩ := tidyText_cases wellFormed hTidy
    rw [wellFormed.hasAncestorOfKind_iff] at hPlain
    rcases hCases with ⟨⟨hBlank, hTouches⟩, hCut⟩ | ⟨folded, -, -, -, hFold⟩
    · rw [hCut] at hRun
      cases hRun
      exact .inr ⟨rfl, ⟨_, Forest.label?_of_get? hFound, hText, hBlank⟩, hPlain, hTouches⟩
    · rw [hFold] at hRun
      cases hRun
      exact .inl (Forest.sameLinks_modify fun _ _ => ⟨rfl, rfl⟩)

/-- **One more visit** takes away nothing else than the others. -/
theorem tidied_of_tidyText {state : Forest} (linked : forest.Linked)
    (tidied : Tidied settings forest state)
    (hRun : (tidyText settings id).run state = .ok () after) : Tidied settings forest after := by
  have wellFormed := tidied.thinned.wellFormed
  refine ⟨?_, fun {other} hSome hNone => ?_⟩
  · rcases Sweep.thins_of_tidyText wellFormed hRun with rfl | hThins
    · exact tidied.thinned
    · exact tidied.thinned.step linked hThins
  · rcases tidyText_links wellFormed hRun with same | ⟨rfl, hBlank, hPlain, -⟩
    · rw [same.parent?_eq] at hNone
      exact tidied.isBlankText hSome hNone
    · rw [Forest.parent?_cut] at hNone
      split at hNone
      next hOther =>
        subst hOther
        exact ⟨tidied.thinned.has_isBlankText_iff.mp hBlank,
          fun hUnder => hPlain (tidied.under linked hUnder)⟩
      next => exact tidied.isBlankText hSome hNone

theorem tidied_of_visits (wellFormed : forest.WellFormed)
    (h : Visits (tidyText settings) forest after) : Tidied settings forest after := by
  induction h with
  | refl => exact wellFormed.tidied_self
  | tail _ hVisit ih =>
    obtain ⟨id, hRun⟩ := hVisit
    exact tidied_of_tidyText wellFormed.linked ih hRun

/-- **A space stays** if it is preformatted, or the word behind it is not far. -/
theorem space_stays (wellFormed : forest.WellFormed) (space : forest.IsSpace settings id)
    (hParent : forest.parent? id = some parent)
    (h : Visits (tidyText settings) forest after)
    (hNear : forest.Under (·.kind = .preFormatted) id ∨ (forest.next? id).isSome ∨
      (forest.next? parent).isSome ∧ (after.parent? parent).isSome) :
    after.parent? id = some parent := by
  have linked := wellFormed.linked
  induction h with
  | refl => exact hParent
  | @tail state after hVisits hVisit ih =>
    obtain ⟨visited, hRun⟩ := hVisit
    have tidied := tidied_of_visits wellFormed hVisits
    rcases tidyText_links tidied.thinned.wellFormed hRun with
      same | ⟨rfl, -, hPlain, hTouches⟩
    · rw [same.parent?_eq] at hNear ⊢
      exact ih hNear
    · -- a parent that is still there was there before
      have hBefore : state.parent? id = some parent := by
        refine ih (hNear.imp_right (Or.imp_right (And.imp_right fun hSome => ?_)))
        rw [Forest.parent?_cut] at hSome
        split at hSome
        · cases hSome
        · exact hSome
      rw [Forest.parent?_cut, if_neg, hBefore]
      rintro rfl
      rcases hNear with hUnder | hNear
      · exact hPlain (tidied.under linked hUnder)
      · refine tidied.not_touchesBlock linked space hBefore ?_ hTouches
        refine hNear.imp_right (And.imp_right fun hSome => ?_)
        rw [Forest.parent?_cut] at hSome
        split at hSome
        · cases hSome
        · exact hSome

/-- **Blank text at a block is taken away**, unless it is preformatted. -/
theorem not_reaches_of_touchesBlock (wellFormed : forest.WellFormed)
    (hBlank : forest.Has Node.IsBlankText id)
    (hPlain : ¬ forest.Under (·.kind = .preFormatted) id) (hParent : (forest.parent? id).isSome)
    (hTouches : forest.touchesBlock settings id)
    (hRun : (tidyTexts settings).run forest = .ok () after) : ¬ after.Reaches .root id := by
  have linked := wellFormed.linked
  have hStep : Advances (fun forest => forest) (walkStep (fun forest => forest) (tidyText settings))
      (ReflTransGen (Thins settings) forest) fun _ other => other ≠ id := by
    intro before visited hThins hBefore _
    obtain ⟨last, hVisit, cleans⟩ : ∃ last, (tidyText settings visited).run before = .ok () last ∧
        Forest.Cleans (fun _ => True) (Forest.Tidy settings) before visited last :=
      tidyText_run hBefore visited
    have thinned := wellFormed.thinned hThins
    refine ⟨_, last, walkStep_run hVisit, ?_, cleans.advance, ?_⟩
    · rcases Sweep.thins_of_tidyText hBefore hVisit with rfl | hLast
      · exact hThins
      · exact hThins.tail hLast
    · rintro other hReaches hFormer rfl
      obtain ⟨label, hLabel, hText, hSpaces⟩ := thinned.has_isBlankText_iff.mpr hBlank
      have hMem := Forest.mem_of_label? hLabel
      by_cases hVisited : other = visited
      · subst hVisited
        -- the text touches a block as it did at the start, so it is not tidy
        have hThere := cleans.advance.root_reaches hMem hReaches
        have thinner : Thinner settings forest forest before :=
          ⟨wellFormed, wellFormed.thinned_self, thinned, thinned.reaches_start⟩
        have hTouchesNow := thinner.touchesBlock hThere hTouches
        have hUntidy : ¬ before.Tidy settings other := by
          intro hTidy
          refine (hTidy label hLabel hText ?_ ?_).1 ⟨hSpaces, hTouchesNow⟩
          · rwa [thinner.parent?_eq hThere]
          · rwa [hBefore.hasAncestorOfKind_iff, thinned.under_iff linked hThere]
        obtain ⟨found, hFound, -, -, -, ⟨-, hCut⟩ | ⟨_, hNot, -⟩⟩ :=
          tidyText_cases hBefore hUntidy
        · rw [hVisit] at hCut
          cases hCut
          obtain ⟨above, hAbove⟩ := Option.isSome_iff_exists.mp hParent
          exact linked.ne_root hAbove (cleans.advance.wellFormed.linked.eq_root_of_reaches hReaches
            Forest.parent?_cut_self)
        · rw [Forest.label?_of_get? hFound, Option.some_inj] at hLabel
          subst hLabel
          exact hNot ⟨hSpaces, hTouchesNow⟩
      · exact hFormer hMem hVisited rfl
  obtain ⟨_, hWalk, -, -, hGood⟩ := walk_covers hStep .refl wellFormed
  have hSame := hRun.symm.trans hWalk
  cases hSame
  exact fun h => hGood id h rfl

/-- **Spaces between words.** Tidying texts leaves a space between two words under its parent if it
is preformatted, if there is a sibling behind it, or if there is one behind its parent and the
parent is not taken away itself. So the space stays below the root exactly if its parent does and it
is preformatted or the word behind it is at most one level up. -/
theorem tidyTexts_spares_spaces (wellFormed : forest.WellFormed) (settings : Settings) :
    ∃ after, (tidyTexts settings).run forest = .ok () after ∧
      ∀ id, forest.IsSpace settings id → ∃ parent, forest.parent? id = some parent ∧
        (forest.Under (·.kind = .preFormatted) id ∨ (forest.next? id).isSome ∨
            (forest.next? parent).isSome ∧ (after.parent? parent).isSome →
          after.parent? id = some parent) ∧
        (after.Reaches .root id ↔ after.Reaches .root parent ∧
          (forest.Under (·.kind = .preFormatted) id ∨ (forest.neighbourAfter? id).isSome)) := by
  obtain ⟨after, hRun, hAfter, -⟩ := tidyTexts_run settings wellFormed
  refine ⟨after, hRun, fun id space => ?_⟩
  have hVisits := visits_of_walk hRun
  have tidied := tidied_of_visits wellFormed hVisits
  obtain ⟨_, hFlows, -⟩ := space.after
  obtain ⟨parent, hParent⟩ := hFlows.exists_parent?
  have hStays := space_stays wellFormed space hParent hVisits
  refine ⟨parent, hParent, hStays, fun h => ⟨?_, ?_⟩, fun ⟨hAbove, hNear⟩ => ?_⟩
  · rcases hAfter.linked.reaches_iff_parent.mp h with rfl | ⟨above, hAbove, hReaches⟩
    · exact absurd rfl (wellFormed.linked.ne_root hParent)
    · rw [tidied.thinned.parent?_eq hAbove, Option.some_inj] at hParent
      exact hParent ▸ hReaches
  · by_contra hFar
    rw [not_or, Option.not_isSome_iff_eq_none] at hFar
    refine not_reaches_of_touchesBlock wellFormed space.isBlankText hFar.1
      (by rw [hParent]; rfl) ?_ hRun h
    rw [Forest.touchesBlock, hFar.2, Forest.endsFlow, Bool.or_true]
  · have hKept : after.parent? id = some parent := by
      refine hStays (hNear.imp_right fun hBehind => ?_)
      cases hNext : forest.next? id with
      | some behind => exact .inl rfl
      | none =>
        rw [Forest.neighbourAfter?_of_next?_eq_none hNext, hParent, Option.bind_some] at hBehind
        refine .inr ⟨hBehind, ?_⟩
        -- the parent has a sibling, so it is not the root
        rcases hAfter.linked.reaches_iff_parent.mp hAbove with rfl | ⟨above, hAbove, -⟩
        · rw [Forest.next?_eq_none_of_parent? wellFormed.linked.root_parent] at hBehind
          cases hBehind
        · rw [hAbove]
          rfl
    exact hAbove.trans (Forest.Reaches.of_mem_children (hAfter.linked.parent_iff.mp hKept))

/-- Three paragraphs of two words with a space between them. In the first and in the third the space
is wrapped together with the first word, twice and once; in the second both are below blank text. -/
def spacedPage : ParseTree :=
  .node .article "" [
    .node .paragraph "" [.node .strong "" [.node .emphasized "" [.node .text "a" [] none none,
      .node .text " " [] none none] none none] none none, .node .text "b" [] none none] none none,
    .node .paragraph "" [.node .text " " [.node .text "a" [] none none,
      .node .text " " [] none none] none none, .node .text "b" [] none none] none none,
    .node .paragraph "" [.node .strong "" [.node .text "a" [] none none,
      .node .text " " [] none none] none none, .node .text "b" [] none none] none none] none none

/-- The space that is wrapped once stays where it is. -/
theorem tidyTexts_spares_spaces_spacedPage :
    ∃ forest after, linkUpwards.run (.ofParseTree spacedPage) = .ok () forest ∧
      forest.WellFormed ∧ (tidyTexts {}).run forest = .ok () after ∧
      forest.IsSpace {} ⟨15⟩ ∧ forest.next? ⟨15⟩ = none ∧ after.parent? ⟨15⟩ = some ⟨13⟩ := by
  obtain ⟨forest, hLink, wellFormed, same⟩ := linkUpwards_run spacedPage
  have hView : ∀ {β : Type} (observe : Forest → β) {value : β},
      observed (fun _ linked => observe linked) (linkUpwards.run (.ofParseTree spacedPage)) =
        some value → observe forest = value := fun _ _ h => observe_eq h hLink
  have hParent : forest.parent? ⟨15⟩ = some ⟨13⟩ := hView (·.parent? ⟨15⟩) (by decide +kernel)
  have hPrevious : forest.previous? ⟨15⟩ = some ⟨14⟩ :=
    hView (·.previous? ⟨15⟩) (by decide +kernel)
  have hEdge : forest.next? ⟨15⟩ = none := hView (·.next? ⟨15⟩) (by decide +kernel)
  have hInline : forest.layout? {} ⟨13⟩ = some .inline :=
    hView (·.layout? {} ⟨13⟩) (by decide +kernel)
  have hNext : forest.next? ⟨13⟩ = some ⟨16⟩ := hView (·.next? ⟨13⟩) (by decide +kernel)
  have space : forest.IsSpace {} ⟨15⟩ := by
    refine ⟨?_, ⟨_, same.label?_eq ⟨15⟩, rfl, by decide⟩,
      ⟨⟨14⟩, .beside hPrevious, Forest.isWord_of_text (same.label?_eq ⟨14⟩) (by decide)⟩,
      ⟨⟨16⟩, .climb hEdge hParent hInline (.beside hNext),
        Forest.isWord_of_text (same.label?_eq ⟨16⟩) (by decide)⟩⟩
    rw [← wellFormed.mem_reachable_iff, Forest.reachable, same.selfAndDescendants_eq]
    decide +kernel
  obtain ⟨after, hRun, hSpaces⟩ := tidyTexts_spares_spaces wellFormed {}
  obtain ⟨parent, hAbove, hStays, -⟩ := hSpaces ⟨15⟩ space
  rw [hParent, Option.some_inj] at hAbove
  subst hAbove
  have hTidied : observed (fun _ after => after.parent? ⟨13⟩)
      ((do linkUpwards; tidyTexts {} : Edit Unit).run (.ofParseTree spacedPage)) =
        some (some ⟨12⟩) := by decide +kernel
  rw [run_bind_of_ok hLink] at hTidied
  refine ⟨forest, after, hLink, wellFormed, hRun, space, hEdge, hStays (.inr (.inr ⟨?_, ?_⟩))⟩
  · rw [hNext]
    rfl
  · rw [observe_eq hTidied hRun]
    rfl

/-- **Not every space between two words stays.** One that is wrapped twice is taken away, since the
word behind it is too far up. So is one whose parent is blank text and taken away before it, though
there is a sibling behind the parent. -/
theorem not_forall_space_stays :
    (¬ ∀ (forest : Forest) (settings : Settings) (id : NodeId), forest.WellFormed →
      forest.IsSpace settings id → ∃ after, (tidyTexts settings).run forest = .ok () after ∧
        after.parent? id = forest.parent? id) ∧
    ¬ ∀ (forest : Forest) (settings : Settings) (id : NodeId), forest.WellFormed →
      forest.IsSpace settings id → (forest.neighbourAfter? id).isSome →
        ∃ after, (tidyTexts settings).run forest = .ok () after ∧
          after.parent? id = forest.parent? id := by
  obtain ⟨forest, hLink, wellFormed, same⟩ := linkUpwards_run spacedPage
  have hView : ∀ {β : Type} (observe : Forest → β) {value : β},
      observed (fun _ linked => observe linked) (linkUpwards.run (.ofParseTree spacedPage)) =
        some value → observe forest = value := fun _ _ h => observe_eq h hLink
  have hTidied : observed (fun _ after => (after.parent? ⟨5⟩, after.parent? ⟨10⟩))
      ((do linkUpwards; tidyTexts {} : Edit Unit).run (.ofParseTree spacedPage)) =
        some (none, none) := by decide +kernel
  rw [run_bind_of_ok hLink] at hTidied
  have hReaches : ∀ id ∈ (Forest.ofParseTree spacedPage).reachable, forest.Reaches .root id := by
    intro id hId
    rwa [← wellFormed.mem_reachable_iff, Forest.reachable, same.selfAndDescendants_eq]
  have hParent : forest.parent? ⟨5⟩ = some ⟨3⟩ := hView (·.parent? ⟨5⟩) (by decide +kernel)
  have hAbove : forest.parent? ⟨10⟩ = some ⟨8⟩ := hView (·.parent? ⟨10⟩) (by decide +kernel)
  constructor
  · intro h
    have space : forest.IsSpace {} ⟨5⟩ := by
      have hPrevious : forest.previous? ⟨5⟩ = some ⟨4⟩ :=
        hView (·.previous? ⟨5⟩) (by decide +kernel)
      have hEdges : forest.next? ⟨5⟩ = none ∧ forest.next? ⟨3⟩ = none :=
        ⟨hView (·.next? ⟨5⟩) (by decide +kernel), hView (·.next? ⟨3⟩) (by decide +kernel)⟩
      have hOuter : forest.parent? ⟨3⟩ = some ⟨2⟩ := hView (·.parent? ⟨3⟩) (by decide +kernel)
      have hInline : forest.layout? {} ⟨3⟩ = some .inline ∧ forest.layout? {} ⟨2⟩ = some .inline :=
        ⟨hView (·.layout? {} ⟨3⟩) (by decide +kernel), hView (·.layout? {} ⟨2⟩) (by decide +kernel)⟩
      have hNext : forest.next? ⟨2⟩ = some ⟨6⟩ := hView (·.next? ⟨2⟩) (by decide +kernel)
      exact ⟨hReaches _ (by decide +kernel), ⟨_, same.label?_eq ⟨5⟩, rfl, by decide⟩,
        ⟨⟨4⟩, .beside hPrevious, Forest.isWord_of_text (same.label?_eq ⟨4⟩) (by decide)⟩,
        ⟨⟨6⟩, .climb hEdges.1 hParent hInline.1 (.climb hEdges.2 hOuter hInline.2 (.beside hNext)),
          Forest.isWord_of_text (same.label?_eq ⟨6⟩) (by decide)⟩⟩
    obtain ⟨after, hRun, hSame⟩ := h forest {} ⟨5⟩ wellFormed space
    have hGone := congrArg Prod.fst (observe_eq hTidied hRun)
    dsimp only at hGone
    rw [hSame, hParent] at hGone
    cases hGone
  · intro h
    have hEdge : forest.next? ⟨10⟩ = none := hView (·.next? ⟨10⟩) (by decide +kernel)
    have hNext : forest.next? ⟨8⟩ = some ⟨11⟩ := hView (·.next? ⟨8⟩) (by decide +kernel)
    have space : forest.IsSpace {} ⟨10⟩ := by
      have hPrevious : forest.previous? ⟨10⟩ = some ⟨9⟩ :=
        hView (·.previous? ⟨10⟩) (by decide +kernel)
      have hInline : forest.layout? {} ⟨8⟩ = some .inline :=
        hView (·.layout? {} ⟨8⟩) (by decide +kernel)
      exact ⟨hReaches _ (by decide +kernel), ⟨_, same.label?_eq ⟨10⟩, rfl, by decide⟩,
        ⟨⟨9⟩, .beside hPrevious, Forest.isWord_of_text (same.label?_eq ⟨9⟩) (by decide)⟩,
        ⟨⟨11⟩, .climb hEdge hAbove hInline (.beside hNext),
          Forest.isWord_of_text (same.label?_eq ⟨11⟩) (by decide)⟩⟩
    have hNear : (forest.neighbourAfter? ⟨10⟩).isSome := by
      rw [Forest.neighbourAfter?_of_next?_eq_none hEdge, hAbove, Option.bind_some, hNext]
      rfl
    obtain ⟨after, hRun, hSame⟩ := h forest {} ⟨10⟩ wellFormed space hNear
    have hGone := congrArg Prod.snd (observe_eq hTidied hRun)
    dsimp only at hGone
    rw [hSame, hAbove] at hGone
    cases hGone

end Edit

end WikiMarkup
