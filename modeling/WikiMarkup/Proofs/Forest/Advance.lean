import WikiMarkup.Proofs.Forest.Ancestry
import WikiMarkup.Proofs.Forest.Exploration

/-!
# Explorations of forests that change

The nodes on the stack of an exploration are **pending**: none of them reaches another, and none
stands before one that comes earlier in the stack. `Advance` says what a step may do to a forest.
It may change its node and what is below, and it may take nodes from and put nodes to places that
have been passed already; what is below the other nodes on the stack it leaves alone.

**Key result.** `explore_covers`: an exploration whose steps advance comes to its end, and whatever
each step makes good at its node holds in the end of every node below the root. The bound on the
depth is never met, because a node fits into as many levels as there are nodes above and below it,
with a style counted twice for the wrapper that it may be given.
-/

namespace WikiMarkup

namespace Forest

variable {forest after : Forest} {id other parent child first second : NodeId}
  {stack rest next : List NodeId}

/-! ### Order among siblings -/

/-- One node stands before another under a common parent. -/
def Earlier (forest : Forest) (first second : NodeId) : Prop :=
  ∃ parent, [first, second].Sublist (forest.children parent)

theorem mem_of_pair_sublist {ids : List NodeId} (h : [first, second].Sublist ids) :
    first ∈ ids ∧ second ∈ ids := by
  have hSubset := h.subset
  simp only [List.cons_subset] at hSubset
  exact ⟨hSubset.1, hSubset.2.1⟩

theorem not_pair_sublist_swap {ids : List NodeId} (hNodup : ids.Nodup)
    (h : [first, second].Sublist ids) : ¬ [second, first].Sublist ids := by
  induction ids with
  | nil => cases h
  | cons id ids ih =>
    rw [List.nodup_cons] at hNodup
    intro hSwap
    rcases List.cons_sublist_cons'.mp h with hPair | ⟨hFirst, hSecond⟩ <;>
      rcases List.cons_sublist_cons'.mp hSwap with hSwapped | ⟨hSwapped, hRest⟩
    · exact ih hNodup.2 hPair hSwapped
    · exact hNodup.1 (hSwapped ▸ (mem_of_pair_sublist hPair).2)
    · exact hNodup.1 (hFirst ▸ (mem_of_pair_sublist hSwapped).2)
    · exact hNodup.1 (hSwapped ▸ List.singleton_sublist.mp hSecond)

/-- A node that stands before another is a child of the same parent. -/
theorem Earlier.parent?_eq (linked : forest.Linked) (h : forest.Earlier first second) :
    forest.parent? first = forest.parent? second := by
  obtain ⟨parent, h⟩ := h
  obtain ⟨hFirst, hSecond⟩ := mem_of_pair_sublist h
  rw [linked.parent_iff.mpr hFirst, linked.parent_iff.mpr hSecond]

/-- A node that stands before another does not list it. -/
theorem Earlier.notMem_children (wellFormed : forest.WellFormed)
    (h : forest.Earlier first second) : second ∉ forest.children first := by
  have linked := wellFormed.linked
  rw [← linked.parent_iff, ← h.parent?_eq linked]
  exact fun hParent => wellFormed.not_reaches_parent hParent (Reaches.refl forest first)

/-! ### Pending nodes -/

/-- Neither of two nodes reaches the other, and the second does not stand before the first. -/
structure Apart (forest : Forest) (first second : NodeId) : Prop where
  /-- The first does not reach the second. -/
  not_reaches : ¬ forest.Reaches first second
  /-- The second does not reach the first. -/
  not_reached : ¬ forest.Reaches second first
  /-- The second does not stand before the first. -/
  not_earlier : ¬ forest.Earlier second first

/-- The nodes of a stack exist, and each is apart from those behind it. -/
structure Pending (forest : Forest) (stack : List NodeId) : Prop where
  /-- The nodes exist. -/
  mem : ∀ id ∈ stack, id ∈ forest
  /-- The nodes are apart from one another. -/
  apart : stack.Pairwise forest.Apart

/-- What is below a node is apart from all that the node is apart from. -/
theorem Apart.below (linked : forest.Linked) (h : forest.Apart id other)
    (hReaches : forest.Reaches other child) : forest.Apart id child where
  not_reaches hId := by
    rcases linked.reaches_total hId hReaches with hOther | hOther
    · exact h.not_reaches hOther
    · exact h.not_reached hOther
  not_reached hChild := h.not_reached (hReaches.trans hChild)
  not_earlier hEarlier := by
    rcases linked.reaches_iff_parent.mp hReaches with rfl | ⟨parent, hParent, hReaches⟩
    · exact h.not_earlier hEarlier
    · rw [hEarlier.parent?_eq linked] at hParent
      exact h.not_reached (linked.reaches_iff_parent.mpr (.inr ⟨parent, hParent, hReaches⟩))

/-- The children of a node are apart from one another. -/
theorem WellFormed.pairwise_apart_children (wellFormed : forest.WellFormed) (id : NodeId) :
    (forest.children id).Pairwise forest.Apart := by
  have linked := wellFormed.linked
  rw [List.pairwise_iff_forall_sublist]
  intro first second h
  obtain ⟨hFirst, hSecond⟩ := mem_of_pair_sublist h
  have hNe : first ≠ second := by
    rintro rfl
    exact not_pair_sublist_swap (linked.nodup id) h h
  refine ⟨fun hReaches => ?_, fun hReaches => ?_, ?_⟩
  · exact hNe (wellFormed.eq_of_reaches_of_mem_children hFirst hSecond hReaches)
  · exact hNe (wellFormed.eq_of_reaches_of_mem_children hSecond hFirst hReaches).symm
  · rintro ⟨parent, hSwap⟩
    obtain rfl := linked.eq_of_mem_children hSecond (mem_of_pair_sublist hSwap).1
    exact not_pair_sublist_swap (linked.nodup id) h hSwap

/-! ### Room below a node -/

/-- The number of levels that a walk may find at a node: a style may be given a wrapper. -/
def weight (forest : Forest) (id : NodeId) : Nat :=
  if forest.kind? id = some .style then 2 else 1

/-- What is below a node, the node included, fits into a number of levels. -/
inductive Fits (forest : Forest) : Nat → NodeId → Prop
  /-- The node and one level less for what is below its children. -/
  | of_children {depth below : Nat} {id : NodeId} (hDepth : below + forest.weight id ≤ depth)
      (hChildren : ∀ child ∈ forest.children id, Fits forest below child) :
      Fits forest depth id

theorem weight_pos (forest : Forest) (id : NodeId) : 0 < forest.weight id := by
  unfold weight
  split <;> omega

theorem weight_le_two (forest : Forest) (id : NodeId) : forest.weight id ≤ 2 := by
  unfold weight
  split <;> omega

theorem weight_congr (h : after.label? id = forest.label? id) :
    after.weight id = forest.weight id := by
  rw [weight, weight, kind?_congr h]

theorem Fits.of_le {depth deeper : Nat} (h : forest.Fits depth id) (hDepth : depth ≤ deeper) :
    forest.Fits deeper id := by
  cases h with
  | of_children hBelow hChildren => exact .of_children (hBelow.trans hDepth) hChildren

/-- Whether a node fits is settled by what it reaches. -/
theorem Fits.congr {depth : Nat} (h : forest.Fits depth id)
    (hSame : ∀ below, forest.Reaches id below →
      after.children below = forest.children below ∧ after.weight below ≤ forest.weight below) :
    after.Fits depth id := by
  induction h with
  | @of_children depth below id hDepth _ ih =>
    obtain ⟨hChildren, hWeight⟩ := hSame id (Reaches.refl forest id)
    refine .of_children ((Nat.add_le_add_left hWeight below).trans hDepth) ?_
    rw [hChildren]
    intro child hChild
    exact ih child hChild fun _ hBelow =>
      hSame _ ((Reaches.of_mem_children hChild).trans hBelow)

/-- Every node fits into twice the number of nodes. -/
theorem WellFormed.fits (wellFormed : forest.WellFormed) (id : NodeId) :
    forest.Fits (2 * (forest.size + 1 - forest.height id)) id := by
  have linked := wellFormed.linked
  induction hLevels : forest.size + 1 - forest.height id using Nat.strongRec generalizing id with
  | _ levels ih =>
    have hHeight := forest.height_le_size id
    have hWeight := forest.weight_le_two id
    -- a child has more nodes above it, so fewer levels are left for it
    have hChildren : ∀ child ∈ forest.children id,
        forest.Fits (2 * (forest.size - forest.height id)) child := by
      intro child hChild
      have hLower := wellFormed.height_lt (linked.parent_iff.mpr hChild)
      exact (ih _ (by omega) child rfl).of_le (by omega)
    exact .of_children (by omega) hChildren

/-! ### Advancing -/

/-- What a step of an exploration at a node may do to a forest, if it asks for `next`. -/
structure Advance (forest : Forest) (id : NodeId) (after : Forest) (next : List NodeId) :
    Prop where
  /-- The forest stays well-formed. -/
  wellFormed : after.WellFormed
  /-- No node goes. -/
  mem : ∀ {other : NodeId}, other ∈ forest → other ∈ after
  /-- Nodes that are apart keep their children. -/
  children_eq : ∀ {other : NodeId}, other ∈ forest → forest.Apart id other →
    after.children other = forest.children other
  /-- Other nodes keep all but their links. -/
  label?_eq : ∀ {other : NodeId}, other ∈ forest → other ≠ id →
    after.label? other = forest.label? other
  /-- The step asks for pending nodes. -/
  pending : after.Pending next
  /-- What the step asks for reaches only what the node did. -/
  reaches : ∀ {above other : NodeId}, above ∈ next → other ∈ forest →
    after.Reaches above other → forest.Reaches id other
  /-- All that was below the node is below what the step asks for. -/
  covers : ∀ {other : NodeId}, forest.Reaches id other →
    id = other ∨ ∃ above ∈ next, after.Reaches above other
  /-- No node comes back below the root. -/
  root_reaches : ∀ {other : NodeId}, other ∈ forest → after.Reaches .root other →
    forest.Reaches .root other
  /-- Nodes that were not below the node keep their order. -/
  earlier : ∀ {first second : NodeId}, ¬ forest.Reaches id first → ¬ forest.Reaches id second →
    after.Earlier first second → forest.Earlier first second
  /-- They come before what the step asks for only if they came before the node. -/
  earlier_next : ∀ {first second : NodeId}, ¬ forest.Reaches id first → second ∈ next →
    after.Earlier first second → forest.Earlier first id
  /-- What the step asks for needs one level less. -/
  fits : ∀ {depth : Nat}, forest.Fits depth id →
    ∃ below, depth = below + 1 ∧ ∀ other ∈ next, after.Fits below other

namespace Advance

variable (advance : forest.Advance id after next) (linked : forest.Linked)

include advance linked

/-- What is below a node that is apart stays the same. -/
theorem children_below (hOther : other ∈ forest) (h : forest.Apart id other)
    (hReaches : forest.Reaches other child) : after.children child = forest.children child :=
  advance.children_eq (linked.mem_of_reaches hOther hReaches) (h.below linked hReaches)

theorem reaches_iff (hOther : other ∈ forest) (h : forest.Apart id other) :
    after.Reaches other child ↔ forest.Reaches other child :=
  reaches_congr fun _ hReaches => advance.children_below linked hOther h hReaches

theorem fits_of_apart (hOther : other ∈ forest) (h : forest.Apart id other) {depth : Nat}
    (hFits : forest.Fits depth other) : after.Fits depth other := by
  refine hFits.congr fun below hBelow => ⟨advance.children_below linked hOther h hBelow, ?_⟩
  have hNe : below ≠ id := fun hId => h.not_reached (hId ▸ hBelow)
  rw [weight_congr (advance.label?_eq (linked.mem_of_reaches hOther hBelow) hNe)]

/-- **Pending nodes stay pending**, and what a step asks for joins them. -/
theorem pending_append (pending : forest.Pending (id :: rest)) :
    after.Pending (next ++ rest) := by
  obtain ⟨hId, hRest⟩ := List.pairwise_cons.mp pending.apart
  have hMem : ∀ other ∈ rest, other ∈ forest := fun other hOther =>
    pending.mem other (List.mem_cons_of_mem id hOther)
  -- two nodes that were waiting stay apart; a new one is apart from those that were waiting
  refine ⟨?_, List.pairwise_append.mpr ⟨advance.pending.apart, ?_, ?_⟩⟩
  · intro other hOther
    rcases List.mem_append.mp hOther with hOther | hOther
    · exact advance.pending.mem other hOther
    · exact advance.mem (hMem other hOther)
  · refine hRest.imp_of_mem fun {first second} hFirst hSecond hApart => ⟨?_, ?_, ?_⟩
    · rw [advance.reaches_iff linked (hMem first hFirst) (hId first hFirst)]
      exact hApart.not_reaches
    · rw [advance.reaches_iff linked (hMem second hSecond) (hId second hSecond)]
      exact hApart.not_reached
    · exact fun hEarlier => hApart.not_earlier (advance.earlier (hId second hSecond).not_reaches
        (hId first hFirst).not_reaches hEarlier)
  · intro first hFirst second hSecond
    have hApart := hId second hSecond
    refine ⟨fun hReaches => ?_, fun hReaches => ?_, fun hEarlier => ?_⟩
    · exact hApart.not_reaches (advance.reaches hFirst (hMem second hSecond) hReaches)
    · rw [advance.reaches_iff linked (hMem second hSecond) hApart] at hReaches
      have hFormer := linked.mem_of_reaches (hMem second hSecond) hReaches
      -- the new node was there before, below both nodes that are apart
      have hBelow := advance.reaches hFirst hFormer (Reaches.refl after first)
      exact (hApart.below linked hReaches).not_reaches hBelow
    · exact hApart.not_earlier (advance.earlier_next hApart.not_reaches hFirst hEarlier)

end Advance

end Forest

/-! ### Explorations -/

section

variable {σ : Type} {view : σ → Forest} {step : NodeId → EStateM Error σ (List NodeId)}
  {Holds : σ → Prop} {Good : Forest → NodeId → Prop}

/-- At every node the step comes to its end and advances. It preserves one property, and it makes
another one good at its node without spoiling it elsewhere below the root. -/
def Advances (view : σ → Forest) (step : NodeId → EStateM Error σ (List NodeId))
    (Holds : σ → Prop) (Good : Forest → NodeId → Prop) : Prop :=
  ∀ before id, Holds before → (view before).WellFormed → id ∈ view before →
    ∃ next after, (step id).run before = .ok next after ∧ Holds after ∧
      (view before).Advance id (view after) next ∧
      ∀ other, (view after).Reaches .root other →
        (other ∈ view before → other ≠ id → Good (view before) other) → Good (view after) other

/-- The invariant of an exploration: all that is below the root is good already, or below the
stack. -/
structure Exploring (view : σ → Forest) (Holds : σ → Prop) (Good : Forest → NodeId → Prop)
    (state : σ) (stack : List NodeId) : Prop where
  /-- What the steps preserve holds. -/
  holds : Holds state
  /-- The forest is well-formed. -/
  wellFormed : (view state).WellFormed
  /-- The nodes of the stack are pending. -/
  pending : (view state).Pending stack
  /-- What is not good yet is below the stack. -/
  covered : ∀ id, (view state).Reaches .root id →
    Good (view state) id ∨ ∃ above ∈ stack, (view state).Reaches above id

/-- A relation between the state and the stack that every step preserves. -/
def Traces (view : σ → Forest) (step : NodeId → EStateM Error σ (List NodeId))
    (Holds : σ → Prop) (Good : Forest → NodeId → Prop) (Trail : σ → List NodeId → Prop) : Prop :=
  ∀ (before after : σ) (id : NodeId) (rest next : List NodeId),
    Exploring view Holds Good before (id :: rest) → (step id).run before = .ok next after →
      (view before).Advance id (view after) next → Trail before (id :: rest) →
        Trail after (next ++ rest)

private theorem Exploring.advance {before after : σ} {id : NodeId} {rest next : List NodeId}
    (exploring : Exploring view Holds Good before (id :: rest)) (hHolds : Holds after)
    (advance : (view before).Advance id (view after) next)
    (hGood : ∀ other, (view after).Reaches .root other →
      (other ∈ view before → other ≠ id → Good (view before) other) → Good (view after) other) :
    Exploring view Holds Good after (next ++ rest) where
  holds := hHolds
  wellFormed := advance.wellFormed
  pending := advance.pending_append exploring.wellFormed.linked exploring.pending
  covered other hOther := by
    -- what is not below the new stack was not below the old one, but for the node itself
    have linked := exploring.wellFormed.linked
    have hApart := (List.pairwise_cons.mp exploring.pending.apart).1
    rw [or_iff_not_imp_right]
    intro hNot
    refine hGood other hOther fun hMem hNe => ?_
    rcases exploring.covered other (advance.root_reaches hMem hOther) with
      hFormer | ⟨above, hAbove, hReaches⟩
    · exact hFormer
    rcases List.mem_cons.mp hAbove with rfl | hAbove
    · rcases advance.covers hReaches with rfl | ⟨above, hAbove, hReaches⟩
      · exact absurd rfl hNe
      · exact absurd ⟨above, List.mem_append_left rest hAbove, hReaches⟩ hNot
    · refine absurd ⟨above, List.mem_append_right next hAbove, ?_⟩ hNot
      have hMem := exploring.pending.mem above (List.mem_cons_of_mem id hAbove)
      exact (advance.reaches_iff linked hMem (hApart above hAbove)).mpr hReaches

private theorem Advances.stepsDown (hStep : Advances view step Holds Good)
    {Trail : σ → List NodeId → Prop} (hTrail : Traces view step Holds Good Trail) :
    StepsDown step (fun state stack => Exploring view Holds Good state stack ∧ Trail state stack)
      fun state => (view state).Fits := by
  rintro before depth id rest ⟨exploring, hBefore⟩ hFits
  have hId := exploring.pending.mem id List.mem_cons_self
  obtain ⟨next, after, hRun, hHolds, advance, hGood⟩ :=
    hStep before id exploring.holds exploring.wellFormed hId
  obtain ⟨below, hDepth, hNext⟩ := advance.fits hFits
  refine ⟨below, next, after, hDepth, hRun,
    ⟨exploring.advance hHolds advance hGood, ?_⟩, hNext, ?_⟩
  · exact hTrail before after id rest next exploring hRun advance hBefore
  intro other hOther depth
  exact advance.fits_of_apart exploring.wellFormed.linked
    (exploring.pending.mem other (List.mem_cons_of_mem id hOther))
    ((List.pairwise_cons.mp exploring.pending.apart).1 other hOther)

/-- **Explorations end, make everything good and leave their trail.** If every step advances, an
exploration from the root comes to its end, and then all is good below the root. What the steps
preserve of the state and the stack holds of the state and no stack. -/
theorem explore_traces (hStep : Advances view step Holds Good) {Trail : σ → List NodeId → Prop}
    (hTrail : Traces view step Holds Good Trail) {before : σ} (hHolds : Holds before)
    (wellFormed : (view before).WellFormed) (hBefore : Trail before [.root]) :
    ∃ after, (explore step (view before).walkDepth .root).run before = .ok () after ∧
      Holds after ∧ (view after).WellFormed ∧
      (∀ id, (view after).Reaches .root id → Good (view after) id) ∧ Trail after [] := by
  -- at the start all that is below the root is below the stack
  have hStart : Exploring view Holds Good before [.root] := by
    refine ⟨hHolds, wellFormed, ⟨?_, List.pairwise_singleton _ _⟩, fun id hId => .inr ?_⟩
    · intro id hId
      rw [List.mem_singleton.mp hId]
      exact Forest.root_mem _
    · exact ⟨.root, List.mem_singleton_self _, hId⟩
  have hFits : (view before).Fits (view before).walkDepth .root := by
    refine (wellFormed.fits .root).of_le ?_
    rw [Forest.walkDepth, spareDepth]
    omega
  obtain ⟨after, hRun, ⟨exploring, hAfter⟩, -⟩ := explore_run (hStep.stepsDown hTrail)
    (view before).walkDepth before .root [] ⟨hStart, hBefore⟩ hFits
  refine ⟨after, hRun, exploring.holds, exploring.wellFormed, fun id hId => ?_, hAfter⟩
  rcases exploring.covered id hId with hGood | ⟨_, hNil, -⟩
  · exact hGood
  · cases hNil

/-- **Explorations end and make everything good.** If every step advances, an exploration from the
root comes to its end, and then all is good below the root. -/
theorem explore_covers (hStep : Advances view step Holds Good) {before : σ}
    (hHolds : Holds before) (wellFormed : (view before).WellFormed) :
    ∃ after, (explore step (view before).walkDepth .root).run before = .ok () after ∧
      Holds after ∧ (view after).WellFormed ∧
      ∀ id, (view after).Reaches .root id → Good (view after) id := by
  have hTrail : Traces view step Holds Good fun _ _ => True := fun _ _ _ _ _ _ _ _ _ => trivial
  obtain ⟨after, hRun, hAfter, hWellFormed, hGood, -⟩ :=
    explore_traces hStep hTrail hHolds wellFormed trivial
  exact ⟨after, hRun, hAfter, hWellFormed, hGood⟩

/-- An exploration that changes nothing at the nodes below the root changes nothing. -/
theorem explore_unchanged {forest : Forest} (wellFormed : forest.WellFormed)
    (hStep : ∀ before id, view before = forest → forest.Reaches .root id →
      ∃ after, (step id).run before = .ok (forest.children id) after ∧ view after = forest)
    {before : σ} (hBefore : view before = forest) :
    ∃ after, (explore step forest.walkDepth .root).run before = .ok () after ∧
      view after = forest := by
  have hSteps : StepsDown step
      (fun state stack => view state = forest ∧ ∀ id ∈ stack, forest.Reaches .root id)
      fun _ => forest.Fits := by
    rintro before depth id rest ⟨hBefore, hStack⟩ hFits
    obtain ⟨hId, hRest⟩ := List.forall_mem_cons.mp hStack
    obtain ⟨after, hRun, hAfter⟩ := hStep before id hBefore hId
    cases hFits with
    | @of_children _ below _ hDepth hChildren =>
      -- a node takes at least one level
      have hWeight := forest.weight_pos id
      refine ⟨depth - 1, forest.children id, after, by omega, hRun, ⟨hAfter, ?_⟩, ?_,
        fun _ _ _ h => h⟩
      · rw [List.forall_mem_append]
        exact ⟨fun child hChild => hId.trans (Forest.Reaches.of_mem_children hChild), hRest⟩
      · exact fun child hChild => (hChildren child hChild).of_le (by omega)
  have hFits : forest.Fits forest.walkDepth .root := by
    refine (wellFormed.fits .root).of_le ?_
    rw [Forest.walkDepth, spareDepth]
    omega
  obtain ⟨after, hRun, hAfter, -⟩ := explore_run hSteps forest.walkDepth before .root []
    ⟨hBefore, by simp [Forest.Reaches.refl]⟩ hFits
  exact ⟨after, hRun, hAfter.1⟩

/-- **Walks end and make everything good** if every visit advances. -/
theorem walk_covers {visit : NodeId → EStateM Error σ Unit}
    (hStep : Advances view (walkStep view visit) Holds Good) {before : σ}
    (hHolds : Holds before) (wellFormed : (view before).WellFormed) :
    ∃ after, (walk view visit).run before = .ok () after ∧
      Holds after ∧ (view after).WellFormed ∧
      ∀ id, (view after).Reaches .root id → Good (view after) id := by
  rw [walk_run_eq]
  exact explore_covers hStep hHolds wellFormed

/-- A walk that changes nothing at the nodes below the root changes nothing. -/
theorem walk_unchanged {visit : NodeId → EStateM Error σ Unit} {forest : Forest}
    (wellFormed : forest.WellFormed)
    (hVisit : ∀ before id, view before = forest → forest.Reaches .root id →
      ∃ after, (visit id).run before = .ok () after ∧ view after = forest)
    {before : σ} (hBefore : view before = forest) :
    ∃ after, (walk view visit).run before = .ok () after ∧ view after = forest := by
  rw [walk_run_eq, hBefore]
  refine explore_unchanged wellFormed (fun before id hBefore hId => ?_) hBefore
  obtain ⟨after, hRun, hAfter⟩ := hVisit before id hBefore hId
  refine ⟨after, ?_, hAfter⟩
  rw [walkStep_run hRun, hAfter]

end

end WikiMarkup
