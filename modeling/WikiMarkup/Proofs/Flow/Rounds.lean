import WikiMarkup.Proofs.Forest.Enumeration
import WikiMarkup.Proofs.Forest.Keeping
import WikiMarkup.Proofs.Normalization

/-!
# How many rounds the flow takes to settle

The rounds of cleaning up go on as long as the revision changes. The revision is no measure of what
is left to do. It grows, it also counts changes below nodes that have been detached a moment before,
and it counts the lifting of a list, which puts in as much as it takes out.

What does go down is the number of nodes below the root. No visit brings a node back under another
one, and a visit that changes links either takes a node off the tree or comes to a node that is no
longer in it (`Trims`). A walk only comes to nodes that were below its root in the beginning, so in
both cases one of these has been lost.

**Key result.** `normalize_settles`: a run of normalization comes to its end after no more rounds
than there are nodes below the root when the first round begins, and each round that changes the
revision leaves fewer of them (`Round`).
-/

namespace WikiMarkup

namespace Forest

variable {forest middle after : Forest} {id parent : NodeId}

/-! ### Nodes below the root -/

/-- A change that was asked for at a node takes nodes off the tree, and puts none in. -/
structure Trims (forest : Forest) (id : NodeId) (after : Forest) : Prop where
  /-- The forest stays well-formed. -/
  wellFormed : after.WellFormed
  /-- What is below a node was below it. -/
  reaches : ∀ {above below : NodeId}, after.Reaches above below → forest.Reaches above below
  /-- If links have changed, and the node was below the root, some node is not any more. -/
  loses : after.revision ≠ forest.revision → forest.Reaches .root id →
    ∃ lost, forest.Reaches .root lost ∧ ¬ after.Reaches .root lost

/-- Where no link changes nothing is taken off. -/
theorem SameLinks.trims (same : forest.SameLinks after) (wellFormed : forest.WellFormed)
    (id : NodeId) : forest.Trims id after :=
  ⟨same.wellFormed wellFormed, same.reaches_iff.mp, fun h => absurd same.revision_eq h⟩

/-- To cut off a node takes it off the tree. -/
theorem WellFormed.trims_cut (wellFormed : forest.WellFormed)
    (hParent : (forest.parent? id).isSome) : forest.Trims id (forest.cut id) where
  wellFormed := wellFormed.cut id
  reaches := wellFormed.linked.reaches_of_reaches_cut
  loses _ hReaches := by
    have hMem := wellFormed.linked.mem_of_reaches forest.root_mem hReaches
    have hLost := mt ((wellFormed.keeps_cut hParent).root_reaches_iff hMem).mp
    exact ⟨id, hReaches, hLost fun h => h.2 (Reaches.refl forest id)⟩

/-- To lift a list takes its paragraph off the tree. -/
theorem Lifts.trims {paragraph : NodeId} (lifts : forest.Lifts after id paragraph parent)
    (wellFormed : forest.WellFormed) : forest.Trims id after where
  wellFormed := lifts.dissolved.wellFormed
  reaches := lifts.dissolved.reaches_of_reaches
  loses _ hReaches := by
    have linked := wellFormed.linked
    have hAbove : forest.parent? id = some paragraph :=
      linked.parent_iff.mpr (by rw [lifts.children_eq]; exact List.mem_singleton_self id)
    have keeps := lifts.dissolved.keeps wellFormed lifts.parent?_eq
    exact ⟨paragraph, (linked.root_reaches_iff_parent hAbove).mp hReaches,
      mt (keeps.root_reaches_iff (mem_of_parent? lifts.parent?_eq)).mp fun h => h.2 rfl⟩

/-- What has been lost stays lost, and a node that was below the root in the beginning and is not
any more has been lost itself. -/
theorem Trims.trans (trims : forest.Trims .root middle) (hReaches : forest.Reaches .root id)
    (hAfter : middle.Trims id after) : forest.Trims .root after where
  wellFormed := hAfter.wellFormed
  reaches h := trims.reaches (hAfter.reaches h)
  loses hRevision _ := by
    by_cases hLoud : middle.revision = forest.revision
    · by_cases hMiddle : middle.Reaches .root id
      · obtain ⟨lost, hLost, hGone⟩ := hAfter.loses (fun h => hRevision (h.trans hLoud)) hMiddle
        exact ⟨lost, trims.reaches hLost, hGone⟩
      · exact ⟨id, hReaches, fun h => hMiddle (hAfter.reaches h)⟩
    · obtain ⟨lost, hLost, hGone⟩ := trims.loses hLoud (Reaches.refl forest .root)
      exact ⟨lost, hLost, fun h => hGone (hAfter.reaches h)⟩

/-- If links have changed there are fewer nodes below the root. -/
theorem Trims.length_reachable_lt (trims : forest.Trims .root after)
    (wellFormed : forest.WellFormed) (hRevision : after.revision ≠ forest.revision) :
    after.reachable.length < forest.reachable.length := by
  obtain ⟨lost, hLost, hGone⟩ := trims.loses hRevision (Reaches.refl forest .root)
  have hNodup : (lost :: after.reachable).Nodup :=
    List.nodup_cons.mpr ⟨fun h => hGone (trims.wellFormed.mem_reachable_iff.mp h),
      trims.wellFormed.arboreal.nodup_reachable⟩
  have hSubset : lost :: after.reachable ⊆ forest.reachable :=
    List.cons_subset.mpr ⟨wellFormed.mem_reachable_iff.mpr hLost, fun other h =>
      wellFormed.mem_reachable_iff.mpr (trims.reaches (trims.wellFormed.mem_reachable_iff.mp h))⟩
  exact (hNodup.subperm hSubset).length_le

theorem WellFormed.length_reachable_pos (wellFormed : forest.WellFormed) :
    0 < forest.reachable.length :=
  List.length_pos_of_mem (wellFormed.mem_reachable_iff.mpr (Reaches.refl forest .root))

end Forest

namespace Edit

open Forest (Trims)

variable {settings : Settings} {forest after : Forest} {id : NodeId}

/-! ### Visits and passes -/

theorem trims_of_tidyText (wellFormed : forest.WellFormed)
    (hRun : (tidyText settings id).run forest = .ok () after) : forest.Trims id after := by
  by_cases hTidy : forest.Tidy settings id
  · rw [tidyText_unchanged hTidy] at hRun
    cases hRun
    exact (Forest.SameLinks.refl forest).trims wellFormed id
  · obtain ⟨found, -, -, hParent, -, ⟨-, hCase⟩ | ⟨folded, -, -, -, hCase⟩⟩ :=
      tidyText_cases wellFormed hTidy
    · rw [hCase] at hRun
      cases hRun
      exact wellFormed.trims_cut hParent
    · rw [hCase] at hRun
      cases hRun
      have same : forest.SameLinks
          (forest.modify id fun node => { node with caption := folded }) :=
        Forest.sameLinks_modify fun _ _ => ⟨rfl, rfl⟩
      exact same.trims wellFormed id

theorem trims_of_liftList (wellFormed : forest.WellFormed)
    (hRun : (liftList id).run forest = .ok () after) : forest.Trims id after := by
  by_cases hLifted : forest.Lifted id
  · rw [liftList_unchanged hLifted] at hRun
    cases hRun
    exact (Forest.SameLinks.refl forest).trims wellFormed id
  · obtain ⟨_, paragraph, parent, hCase, lifts⟩ := liftList_lifts wellFormed hLifted
    rw [hCase] at hRun
    cases hRun
    exact lifts.trims wellFormed

theorem trims_of_dropBreak (wellFormed : forest.WellFormed)
    (hRun : (dropBreak settings id).run forest = .ok () after) : forest.Trims id after := by
  by_cases hUnbroken : forest.Unbroken settings id
  · rw [dropBreak_unchanged hUnbroken] at hRun
    cases hRun
    exact (Forest.SameLinks.refl forest).trims wellFormed id
  · obtain ⟨hCase, -, hParent⟩ := dropBreak_detaches wellFormed hUnbroken
    rw [hCase] at hRun
    cases hRun
    exact wellFormed.trims_cut hParent

/-- A walk whose visits trim the tree trims it. It may come to nodes that its own visits have taken
off the tree, but all of them were below the root in the beginning. -/
theorem trims_of_walk {visit : NodeId → Edit Unit}
    (hVisit : ∀ {forest after : Forest} {id : NodeId}, forest.WellFormed →
      (visit id).run forest = .ok () after → forest.Trims id after)
    (wellFormed : forest.WellFormed) (hRun : (walk visit).run forest = .ok () after) :
    forest.Trims .root after := by
  rw [walk, walk_run_eq] at hRun
  refine explore_keeps (forest.Trims .root) (forest.Reaches .root) ?_ _ forest .root after
    ((Forest.SameLinks.refl forest).trims wellFormed .root) (Forest.Reaches.refl forest .root) hRun
  intro before id next after trims hReaches hStep
  obtain ⟨_, middle, hMiddle, hRead⟩ := run_bind_eq_ok_iff.mp hStep
  cases hRead
  have hTrims := trims.trans hReaches (hVisit trims.wellFormed hMiddle)
  exact ⟨hTrims, fun child hChild =>
    hReaches.trans (hTrims.reaches (Forest.Reaches.of_mem_children hChild))⟩

theorem trims_of_cleanUp (wellFormed : forest.WellFormed)
    (hRun : (cleanUp settings).run forest = .ok () after) : forest.Trims .root after := by
  obtain ⟨_, tidied, hTidy, hRun⟩ := run_bind_eq_ok_iff.mp hRun
  obtain ⟨_, lifted, hLift, hDrop⟩ := run_bind_eq_ok_iff.mp hRun
  have hRoot := Forest.Reaches.refl forest .root
  have hTidied := trims_of_walk trims_of_tidyText wellFormed hTidy
  have hLifted := hTidied.trans hRoot (trims_of_walk trims_of_liftList hTidied.wellFormed hLift)
  exact hLifted.trans hRoot (trims_of_walk trims_of_dropBreak hLifted.wellFormed hDrop)

/-! ### Rounds -/

/-- A round of cleaning up, and what it does to the nodes below the root. -/
structure Round (settings : Settings) (forest after : Forest) : Prop where
  /-- The round comes to its end. -/
  run : (cleanUp settings).run forest = .ok () after
  /-- Listings of reachable nodes count each of them once. -/
  nodup : forest.reachable.Nodup ∧ after.reachable.Nodup
  /-- It makes no node reachable. -/
  subset : after.reachable ⊆ forest.reachable
  /-- If it changes the revision, it leaves fewer nodes reachable. -/
  length_lt : after.revision ≠ forest.revision →
    after.reachable.length < forest.reachable.length

theorem round_of_run (wellFormed : forest.WellFormed)
    (hRun : (cleanUp settings).run forest = .ok () after) : Round settings forest after := by
  have trims := trims_of_cleanUp wellFormed hRun
  refine ⟨hRun, ⟨wellFormed.arboreal.nodup_reachable, trims.wellFormed.arboreal.nodup_reachable⟩,
    fun id h => ?_, trims.length_reachable_lt wellFormed⟩
  exact wellFormed.mem_reachable_iff.mpr (trims.reaches (trims.wellFormed.mem_reachable_iff.mp h))

/-- The forests that a number of rounds go through, the first and the last one included. -/
structure Rounds (settings : Settings) (forest : Forest) (rounds : Nat) (after : Forest)
    (forests : List Forest) : Prop where
  /-- Each forest comes from the one in front of it by a round. -/
  isChain : forests.IsChain (Round settings)
  /-- The rounds start from here. -/
  head?_eq : forests.head? = some forest
  /-- This is what they come to. -/
  getLast?_eq : forests.getLast? = some after
  /-- There are as many as there are steps in the list. -/
  length_eq : forests.length = rounds + 1

theorem Rounds.cons {forest middle after : Forest} {rounds : Nat} {forests : List Forest}
    (hRounds : Rounds settings middle rounds after forests) (round : Round settings forest middle) :
    Rounds settings forest (rounds + 1) after (forest :: forests) where
  isChain := by
    rw [List.isChain_cons]
    refine ⟨fun other h => ?_, hRounds.isChain⟩
    rw [hRounds.head?_eq, Option.mem_some] at h
    exact h ▸ round
  head?_eq := rfl
  getLast?_eq := by rw [List.getLast?_cons, hRounds.getLast?_eq, Option.getD_some]
  length_eq := by rw [List.length_cons, hRounds.length_eq]

/-- Every round but the last loses a node, and one is left in the end. -/
theorem rounds_of_settleFrom (wellFormed : forest.WellFormed) {bound done total : Nat}
    (hRun : (settleFrom settings bound done).run forest = .ok total after) :
    ∃ rounds forests, total = done + rounds ∧ Rounds settings forest rounds after forests ∧
      rounds ≤ forest.reachable.length := by
  induction bound generalizing forest done with
  | zero => cases hRun
  | succ bound ih =>
    obtain ⟨_, _, hRead, hRun⟩ := run_bind_eq_ok_iff.mp hRun
    cases hRead
    obtain ⟨_, middle, hCleanUp, hRun⟩ := run_bind_eq_ok_iff.mp hRun
    obtain ⟨_, _, hRead, hRun⟩ := run_bind_eq_ok_iff.mp hRun
    cases hRead
    have round := round_of_run wellFormed hCleanUp
    split at hRun
    next hSame =>
      cases hRun
      exact ⟨1, [forest, after], rfl, ⟨.cons_cons round (.singleton after), rfl, rfl, rfl⟩,
        wellFormed.length_reachable_pos⟩
    next hChanged =>
      obtain ⟨rounds, forests, hTotal, hRounds, hLe⟩ :=
        ih (trims_of_cleanUp wellFormed hCleanUp).wellFormed hRun
      have hFewer := round.length_lt hChanged
      exact ⟨rounds + 1, forest :: forests, by omega, hRounds.cons round, by omega⟩

theorem rounds_of_settle {rounds : Nat} (wellFormed : forest.WellFormed)
    (hRun : (settle settings).run forest = .ok rounds after) :
    ∃ forests, Rounds settings forest rounds after forests ∧ rounds ≤ forest.reachable.length := by
  obtain ⟨_, _, hRead, hRun⟩ := run_bind_eq_ok_iff.mp hRun
  cases hRead
  obtain ⟨count, forests, rfl, hRounds, hLe⟩ := rounds_of_settleFrom wellFormed hRun
  rw [Nat.zero_add]
  exact ⟨forests, hRounds, hLe⟩

end Edit

namespace Pass

/-- The seven passes that come before the flow settles. -/
def prepare (settings : Settings) : Pass Unit := do
  edit Edit.linkUpwards
  resolveTags
  edit Edit.flattenGroups
  edit (Edit.tidyTexts settings)
  resolveStyles
  edit Edit.liftLists
  edit (Edit.dropBreaks settings)

/-- Normalization is the seven passes, and then settling. -/
theorem normalize_eq (settings : Settings) :
    normalize settings = (do prepare settings; edit (Edit.settle settings)) := by
  simp only [normalize, prepare, bind_assoc]

theorem prepare_run {forest linked : Forest} (settings : Settings)
    (hLink : Edit.linkUpwards.run forest = .ok () linked) (hLinked : linked.WellFormed)
    (warnings : List Warning) :
    ∃ flow, (prepare settings).run ⟨forest, warnings⟩ = .ok () flow ∧ flow.forest.WellFormed := by
  obtain ⟨tagged, hTag, hTagged, -⟩ := resolveTags_run ⟨linked, warnings⟩ hLinked
  obtain ⟨flat, hFlatten, hFlat, -⟩ := Edit.flattenGroups_run hTagged
  obtain ⟨tidied, hTidy, hTidied, -⟩ := Edit.tidyTexts_run settings hFlat
  obtain ⟨styled, hStyle, hStyled, -⟩ :=
    resolveStyles_run ⟨tidied, warnings ++ linked.reports Node.tagReport? .root⟩ hTidied
  obtain ⟨lifted, hLift, hLifted, -⟩ := Edit.liftLists_run hStyled
  obtain ⟨dropped, hDrop, hDropped, -⟩ := Edit.dropBreaks_run settings hLifted
  refine ⟨⟨dropped, warnings ++ linked.reports Node.tagReport? .root ++
    tidied.reports Node.styleReport? .root⟩, ?_, hDropped⟩
  exact (run_bind_of_ok (edit_run hLink)).trans <| (run_bind_of_ok hTag).trans <|
    (run_bind_of_ok (edit_run hFlatten)).trans <| (run_bind_of_ok (edit_run hTidy)).trans <|
    (run_bind_of_ok hStyle).trans <| (run_bind_of_ok (edit_run hLift)).trans <| edit_run hDrop

end Pass

/-- **The flow settles.** From a well-formed forest, and from whatever a parser hands over,
normalization comes to its end. The rounds that it reports are no more than the nodes below the root
after the seven passes; none of them makes a node reachable, and each one that changes the revision
leaves fewer nodes reachable. -/
theorem Forest.normalize_settles (forest : Forest) (settings : Settings)
    (hForest : forest.WellFormed ∨ ∃ tree, forest = ofParseTree tree) :
    ∃ flow rounds draft forests,
      (Pass.prepare settings).run ⟨forest, []⟩ = .ok () flow ∧
      forest.normalize settings = .ok rounds draft ∧
      .normalized draft.forest.size draft.warnings.length rounds ∈
        runLog (forest.normalize settings) ∧
      Edit.Rounds settings flow.forest rounds draft.forest forests ∧
      rounds ≤ flow.forest.reachable.length := by
  obtain ⟨linked, hLink, hLinked⟩ :
      ∃ linked, Edit.linkUpwards.run forest = .ok () linked ∧ linked.WellFormed := by
    rcases hForest with wellFormed | ⟨tree, rfl⟩
    · exact ⟨forest, Edit.linkUpwards_unchanged wellFormed, wellFormed⟩
    · obtain ⟨linked, hLink, hLinked, -⟩ := Edit.linkUpwards_run tree
      exact ⟨linked, hLink, hLinked⟩
  obtain ⟨flow, hFlow, hFlowWellFormed⟩ := Pass.prepare_run settings hLink hLinked []
  obtain ⟨rounds, after, hSettle, -⟩ := Edit.settle_run settings hFlowWellFormed
  obtain ⟨forests, hRounds, hLe⟩ := Edit.rounds_of_settle hFlowWellFormed hSettle
  have hRun : forest.normalize settings = .ok rounds ⟨after, flow.warnings⟩ := by
    have hNormalize : (do Pass.prepare settings; Pass.edit (Edit.settle settings) : Pass Nat).run
        ⟨forest, []⟩ = .ok rounds ⟨after, flow.warnings⟩ :=
      (run_bind_of_ok hFlow).trans (Pass.edit_run hSettle)
    rwa [← Pass.normalize_eq] at hNormalize
  refine ⟨flow, rounds, ⟨after, flow.warnings⟩, forests, hFlow, hRun, ?_, hRounds, hLe⟩
  rw [hRun]
  exact List.mem_append_right _ (List.mem_singleton_self _)

/-- A paragraph with a list and a forced line break behind it. -/
def Forest.listBeforeBreak : ParseTree :=
  .node .article "" [.node .paragraph "" [.node .itemList "" [.leaf .item] none none,
    .leaf .breakingReturn] none none] none none

/-- When lists are lifted the break is still there, so it takes a round to lift this one, and
another one to see that nothing is left to do. -/
theorem Forest.normalize_settles_listBeforeBreak :
    (∃ tree, ofParseTree listBeforeBreak = ofParseTree tree) ∧ ∃ flow draft forests,
      (Pass.prepare {}).run ⟨ofParseTree listBeforeBreak, []⟩ = .ok () flow ∧
      (ofParseTree listBeforeBreak).normalize {} = .ok 2 draft ∧
      Edit.Rounds {} flow.forest 2 draft.forest forests ∧ 2 ≤ flow.forest.reachable.length := by
  obtain ⟨flow, rounds, draft, forests, hFlow, hRun, -, hRounds, hLe⟩ :=
    normalize_settles (ofParseTree listBeforeBreak) {} (.inr ⟨listBeforeBreak, rfl⟩)
  have hObserved : observed (fun rounds _ => rounds) ((ofParseTree listBeforeBreak).normalize {}) =
      some 2 := by decide +kernel
  obtain rfl := observe_eq hObserved hRun
  exact ⟨⟨listBeforeBreak, rfl⟩, flow, draft, forests, hFlow, hRun, hRounds, hLe⟩

end WikiMarkup
