import WikiMarkup.Proofs.Flow.Cleanup
import WikiMarkup.Proofs.Forest.Linking
import WikiMarkup.Proofs.Generic.Style
import WikiMarkup.Proofs.Generic.Tag

/-!
# The itinerary of a walk

A walk reads the children of a node only after it has visited the node, while visitors wrap, move,
lift and cut off nodes. To see where it comes all the same, the identifiers that are handed to the
visitor are noted (`noting`), which changes nothing else (`walk_run_of_noting`).

A visit **proceeds** if it advances and lists below its node what was listed there, apart from what
is new (`Forest.Proceeds`). What has been visited, followed by what is below the stack, then stays
the same list but for new nodes (`Forest.OnTheWay.step`): all that a visit moves goes to places that
the walk has left behind, and what is below the rest of the stack does not change.

**Key result.** `walks_visit_in_order`: each of the five passes that walk comes to its end, and it
visits the nodes that were there, in the order in which they were listed below the root when it
started, and no node twice.
-/

namespace WikiMarkup

variable {σ : Type} {α β : Type}

/-! ### Noting where a walk comes -/

/-- A state, with the nodes that have been visited so far. -/
structure Noted (σ : Type) where
  /-- The state. -/
  state : σ
  /-- The nodes in the order in which they have been visited. -/
  visited : List NodeId := []

/-- Visits a node, and notes that it has been visited. -/
def noting (visit : NodeId → EStateM Error σ Unit) (id : NodeId) :
    EStateM Error (Noted σ) Unit := fun ⟨state, visited⟩ =>
  match visit id state with
  | .ok _ after => .ok () ⟨after, visited ++ [id]⟩
  | .error failure after => .error failure ⟨after, visited ++ [id]⟩

/-- A pass comes to its end after it has visited given nodes. Those that were there at the start are
visited in reading order, and none is visited twice. -/
structure Itinerary (view : σ → Forest) (pass : EStateM Error σ Unit)
    (visit : NodeId → EStateM Error σ Unit) (before after : σ) (ids : List NodeId) : Prop where
  /-- All that the pass does is to walk with its visitor. -/
  walks : pass = walk view visit
  /-- The pass comes to its end. -/
  run : pass.run before = .ok () after
  /-- These are the nodes that it visits before it comes to the same end. -/
  visited : (walk (fun noted => view noted.state) (noting visit)).run ⟨before, []⟩ =
    .ok () ⟨after, ids⟩
  /-- Nodes that were there are visited in the order in which they were listed below the root. -/
  filter_eq : ids.filter (· ∈ view before) = (view before).reachable
  /-- No node is visited twice. -/
  nodup : ids.Nodup

/-- Wherever a computation with notes comes to its end, so does the one without, in the same way. -/
def Erases (noted : EStateM Error (Noted σ) α) (plain : EStateM Error σ α) : Prop :=
  ∀ before result after, noted.run before = .ok result after →
    plain.run before.state = .ok result after.state

section

variable {noted : EStateM Error (Noted σ) α} {plain : EStateM Error σ α} {view : σ → Forest}
  {visit : NodeId → EStateM Error σ Unit} {before after : σ} {id : NodeId} {ids : List NodeId}

theorem Erases.bind {next : α → EStateM Error (Noted σ) β} {more : α → EStateM Error σ β}
    (h : Erases noted plain) (hNext : ∀ result, Erases (next result) (more result)) :
    Erases (noted >>= next) (plain >>= more) := by
  intro before result after hRun
  obtain ⟨found, middle, hFirst, hRest⟩ := run_bind_eq_ok_iff.mp hRun
  exact (run_bind_of_ok (h before found middle hFirst)).trans
    (hNext found middle result after hRest)

theorem erases_forM {step : NodeId → EStateM Error (Noted σ) Unit}
    {other : NodeId → EStateM Error σ Unit} (h : ∀ id, Erases (step id) (other id))
    (ids : List NodeId) : Erases (ids.forM step) (ids.forM other) := by
  induction ids with
  | nil =>
    intro before result after hRun
    cases hRun
    rfl
  | cons id ids ih => exact (h id).bind fun _ => ih

theorem noting_run (h : (visit id).run before = .ok () after) (visited : List NodeId) :
    (noting visit id).run ⟨before, visited⟩ = .ok () ⟨after, visited ++ [id]⟩ := by
  have hVisit : visit id before = .ok () after := h
  rw [EStateM.run, noting, hVisit]

theorem erases_noting (visit : NodeId → EStateM Error σ Unit) (id : NodeId) :
    Erases (noting visit id) (visit id) := by
  rintro ⟨before, visited⟩ result after hRun
  rw [EStateM.run, noting] at hRun
  split at hRun
  next hVisit =>
    cases hRun
    exact hVisit
  next => cases hRun

theorem erases_walkFrom (view : σ → Forest) (visit : NodeId → EStateM Error σ Unit) (depth : Nat)
    (id : NodeId) : Erases (walkFrom (fun noted => view noted.state) (noting visit) depth id)
      (walkFrom view visit depth id) := by
  induction depth generalizing id with
  | zero => exact fun _ _ _ hRun => nomatch hRun
  | succ depth ih =>
    refine (erases_noting visit id).bind fun _ => fun before result after hRun => ?_
    exact erases_forM ih _ before result after hRun

/-- **To note where a walk comes changes nothing.** -/
theorem walk_run_of_noting (h : (walk (fun noted => view noted.state) (noting visit)).run
      ⟨before, []⟩ = .ok () ⟨after, ids⟩) : (walk view visit).run before = .ok () after := by
  rw [walk, EStateM.run_bind, EStateM.run_get] at h ⊢
  exact erases_walkFrom view visit _ .root ⟨before, []⟩ () ⟨after, ids⟩ h

end

namespace Forest

variable {start forest after : Forest} {id : NodeId} {visited rest : List NodeId}

/-! ### Visits that proceed -/

/-- What a visit of a walk may do to a forest. -/
structure Proceeds (forest : Forest) (id : NodeId) (after : Forest) : Prop where
  /-- It advances. -/
  advance : forest.Advance id after (after.children id)
  /-- Below the node the same is listed, apart from what is new. -/
  lists : forest.ListsSame after id

theorem SameLinks.proceeds (same : forest.SameLinks after) (wellFormed : forest.WellFormed)
    (hId : id ∈ forest)
    (hLabel : ∀ {other}, other ≠ id → after.label? other = forest.label? other) :
    forest.Proceeds id after :=
  ⟨same.advance wellFormed hLabel, listsSame_of_children_eq wellFormed (same.wellFormed wellFormed)
    hId fun below _ => same.children_eq below⟩

/-- To change nothing proceeds. -/
theorem WellFormed.proceeds_self (wellFormed : forest.WellFormed) (hId : id ∈ forest) :
    forest.Proceeds id forest :=
  (SameLinks.refl forest).proceeds wellFormed hId fun _ => rfl

/-- To cut off a node proceeds. -/
theorem WellFormed.proceeds_cut (wellFormed : forest.WellFormed) (hId : id ∈ forest) :
    forest.Proceeds id (forest.cut id) :=
  ⟨wellFormed.advance_cut id, listsSame_of_children_eq wellFormed (wellFormed.cut id) hId
    fun _ => wellFormed.children_cut_of_reaches⟩

/-- To lift a list proceeds. -/
theorem Lifts.proceeds {paragraph parent : NodeId} (lifts : forest.Lifts after id paragraph parent)
    (wellFormed : forest.WellFormed) : forest.Proceeds id after := by
  have dissolved := lifts.dissolved
  have hChild : id ∈ forest.children paragraph := by
    rw [lifts.children_eq]
    exact List.mem_singleton_self id
  exact ⟨dissolved.advance_child wellFormed lifts.parent?_eq lifts.children_eq,
    listsSame_of_children_eq wellFormed dissolved.wellFormed
      (wellFormed.linked.mem_children_right hChild)
      fun _ => dissolved.children_below_child wellFormed lifts.parent?_eq hChild⟩

/-! ### On the way -/

/-- If an exchange brings in only what was there before or is new, nothing occurs twice. -/
theorem nodup_exchange {front old new back : List NodeId} (h : (front ++ (old ++ back)).Nodup)
    (hNew : new.Nodup) (hMem : ∀ id ∈ new, id ∈ old ∨ id ∉ front ∧ id ∉ back) :
    (front ++ (new ++ back)).Nodup := by
  grind [List.nodup_append]

/-- The invariant of a walk that started at a forest. -/
structure OnTheWay (start forest : Forest) (visited stack : List NodeId) : Prop where
  /-- No node has gone. -/
  mem : ∀ {id : NodeId}, id ∈ start → id ∈ forest
  /-- What has been visited exists. -/
  visited_mem : ∀ id ∈ visited, id ∈ forest
  /-- What has been visited and what is below the stack is what was listed, apart from what is
  new. -/
  filter_eq : (visited ++ stack.flatMap forest.selfAndDescendants).filter (· ∈ start) =
    start.reachable
  /-- Nothing occurs in it twice. -/
  nodup : (visited ++ stack.flatMap forest.selfAndDescendants).Nodup

theorem OnTheWay.init (wellFormed : forest.WellFormed) : forest.OnTheWay forest [] [.root] := by
  refine ⟨fun h => h, fun _ h => (nomatch h), ?_, ?_⟩
  · rw [List.nil_append, List.flatMap_singleton, reachable, List.filter_eq_self]
    intro id hId
    rw [wellFormed.mem_selfAndDescendants_iff] at hId
    exact decide_eq_true (wellFormed.linked.mem_of_reaches forest.root_mem hId)
  · rw [List.nil_append, List.flatMap_singleton]
    exact wellFormed.nodup_selfAndDescendants .root

/-- **A visit that proceeds is on the way.** -/
theorem OnTheWay.step (on : start.OnTheWay forest visited (id :: rest))
    (wellFormed : forest.WellFormed) (pending : forest.Pending (id :: rest))
    (proceeds : forest.Proceeds id after) :
    start.OnTheWay after (visited ++ [id]) (after.children id ++ rest) := by
  have advance := proceeds.advance
  have linked := wellFormed.linked
  have hId := pending.mem id List.mem_cons_self
  have hRest : rest.flatMap after.selfAndDescendants = rest.flatMap forest.selfAndDescendants := by
    refine List.flatMap_congr fun other hOther => ?_
    exact advance.selfAndDescendants_of_apart wellFormed
      (pending.mem other (List.mem_cons_of_mem id hOther))
      ((List.pairwise_cons.mp pending.apart).1 other hOther)
  have hBefore : visited ++ (id :: rest).flatMap forest.selfAndDescendants =
      (visited ++ [id]) ++ (forest.descendants id ++ rest.flatMap forest.selfAndDescendants) := by
    rw [List.flatMap_cons, wellFormed.selfAndDescendants_eq]
    simp only [List.append_assoc, List.cons_append, List.nil_append]
  have hAfter : (after.children id ++ rest).flatMap after.selfAndDescendants =
      after.descendants id ++ rest.flatMap forest.selfAndDescendants := by
    rw [List.flatMap_append, hRest, descendants]
  have hVisited : ∀ other ∈ visited ++ [id], other ∈ forest := by
    rw [List.forall_mem_append, List.forall_mem_singleton]
    exact ⟨on.visited_mem, hId⟩
  have hBelow : ∀ other ∈ rest.flatMap forest.selfAndDescendants, other ∈ forest := by
    intro other hOther
    obtain ⟨above, hAbove, hOther⟩ := List.mem_flatMap.mp hOther
    rw [wellFormed.mem_selfAndDescendants_iff] at hOther
    exact linked.mem_of_reaches (pending.mem above (List.mem_cons_of_mem id hAbove)) hOther
  have hFormer := on.filter_eq
  have hNodup := on.nodup
  rw [hBefore] at hFormer hNodup
  refine ⟨fun h => advance.mem (on.mem h), fun other h => advance.mem (hVisited other h), ?_, ?_⟩
  · -- what is listed below the node is the same if it was there at the start
    have hSame : (after.descendants id).filter (· ∈ start) =
        (forest.descendants id).filter (· ∈ start) := by
      rw [← proceeds.lists, List.filter_filter]
      refine List.filter_congr fun other _ => ?_
      rw [← Bool.decide_and, decide_eq_decide]
      exact (and_iff_left_of_imp on.mem).symm
    rw [hAfter, ← hFormer]
    simp only [List.filter_append, hSame]
  · rw [hAfter]
    refine nodup_exchange hNodup ?_ fun other hOther => ?_
    · have h := advance.wellFormed.nodup_selfAndDescendants id
      rw [advance.wellFormed.selfAndDescendants_eq] at h
      exact h.of_cons
    · by_cases hMem : other ∈ forest
      · refine .inl ?_
        rw [← proceeds.lists, List.mem_filter]
        exact ⟨hOther, decide_eq_true hMem⟩
      · exact .inr ⟨fun h => hMem (hVisited other h), fun h => hMem (hBelow other h)⟩

end Forest

open Forest (Proceeds OnTheWay)

/-- **A pass that walks visits in order** if all visits proceed. -/
theorem exists_itinerary {view : σ → Forest} {pass : EStateM Error σ Unit}
    {visit : NodeId → EStateM Error σ Unit} (hPass : pass = walk view visit)
    (hVisit : ∀ before id, (view before).WellFormed → id ∈ view before →
      ∃ after, (visit id).run before = .ok () after ∧ (view before).Proceeds id (view after))
    {before : σ} (wellFormed : (view before).WellFormed) :
    ∃ after ids, Itinerary view pass visit before after ids := by
  have hStep : Advances (fun noted : Noted σ => view noted.state)
      (walkStep (fun noted => view noted.state) (noting visit)) (fun _ => True)
      (fun _ _ => True) := by
    rintro ⟨middle, visited⟩ id - hMiddle hId
    obtain ⟨after, hRun, proceeds⟩ := hVisit middle id hMiddle hId
    exact ⟨_, _, walkStep_run (noting_run hRun visited), trivial, proceeds.advance,
      fun _ _ _ => trivial⟩
  have hTrail : Traces (fun noted : Noted σ => view noted.state)
      (walkStep (fun noted => view noted.state) (noting visit)) (fun _ => True) (fun _ _ => True)
      fun noted => (view before).OnTheWay (view noted.state) noted.visited := by
    rintro ⟨middle, visited⟩ last id rest next exploring hRun - on
    obtain ⟨after, hRunVisit, proceeds⟩ := hVisit middle id exploring.wellFormed
      (exploring.pending.mem id List.mem_cons_self)
    rw [walkStep_run (noting_run hRunVisit visited)] at hRun
    cases hRun
    exact on.step exploring.wellFormed exploring.pending proceeds
  have hStart : (view before).OnTheWay (view before) [] [.root] := .init wellFormed
  obtain ⟨⟨after, ids⟩, hRun, -, -, -, on⟩ :=
    @explore_traces _ _ _ _ _ hStep _ hTrail ⟨before, []⟩ trivial wellFormed hStart
  have hNoted : (walk (fun noted => view noted.state) (noting visit)).run ⟨before, []⟩ =
      .ok () ⟨after, ids⟩ := by
    rw [walk_run_eq]
    exact hRun
  have hFilter := on.filter_eq
  have hNodup := on.nodup
  rw [List.flatMap_nil, List.append_nil] at hFilter hNodup
  have hRunPass : pass.run before = .ok () after := by
    rw [hPass]
    exact walk_run_of_noting hNoted
  exact ⟨after, ids, hPass, hRunPass, hNoted, hFilter, hNodup⟩

/-! ### The passes -/

section

variable {forest : Forest} {settings : Settings} {id : NodeId}

theorem Pass.Resolver.visit_proceeds {property : Node → Prop}
    {report : NodeId → Node → Option Warning} {visit : NodeId → Pass Unit}
    (resolver : Pass.Resolver property report visit) {draft : Draft}
    (wellFormed : draft.forest.WellFormed) (hId : id ∈ draft.forest) :
    ∃ after, (visit id).run draft = .ok () after ∧ draft.forest.Proceeds id after.forest := by
  obtain ⟨after, hRun, resolves, hSame⟩ := resolver.visit_run wellFormed hId
  exact ⟨_, hRun, resolves.advance, hSame⟩

theorem Edit.tidyText_proceeds (wellFormed : forest.WellFormed) (hId : id ∈ forest) :
    ∃ after, (Edit.tidyText settings id).run forest = .ok () after ∧ forest.Proceeds id after := by
  by_cases h : forest.Tidy settings id
  · exact ⟨forest, Edit.tidyText_unchanged h, wellFormed.proceeds_self hId⟩
  · obtain ⟨_, -, -, -, -, ⟨-, hRun⟩ | ⟨_, -, -, -, hRun⟩⟩ := Edit.tidyText_cases wellFormed h
    · exact ⟨_, hRun, wellFormed.proceeds_cut hId⟩
    · refine ⟨_, hRun, Forest.SameLinks.proceeds ?_ wellFormed hId
        fun hOther => Forest.label?_modify_of_ne (Ne.symm hOther)⟩
      exact Forest.sameLinks_modify fun _ _ => ⟨rfl, rfl⟩

theorem Edit.liftList_proceeds (wellFormed : forest.WellFormed) (hId : id ∈ forest) :
    ∃ after, (Edit.liftList id).run forest = .ok () after ∧ forest.Proceeds id after := by
  by_cases h : forest.Lifted id
  · exact ⟨forest, Edit.liftList_unchanged h, wellFormed.proceeds_self hId⟩
  · obtain ⟨after, _, _, hRun, lifts⟩ := Edit.liftList_lifts wellFormed h
    exact ⟨after, hRun, lifts.proceeds wellFormed⟩

theorem Edit.dropBreak_proceeds (wellFormed : forest.WellFormed) (hId : id ∈ forest) :
    ∃ after, (Edit.dropBreak settings id).run forest = .ok () after ∧ forest.Proceeds id after := by
  by_cases h : forest.Unbroken settings id
  · exact ⟨forest, Edit.dropBreak_unchanged h, wellFormed.proceeds_self hId⟩
  · exact ⟨_, (Edit.dropBreak_detaches wellFormed h).1, wellFormed.proceeds_cut hId⟩

end

/-- **Walks visit in order.** On a well-formed forest each of the five passes that walk comes to its
end. It visits the nodes that were there in the order in which they were listed below the root at
the start, and no node twice, whatever it adds, moves or takes away on its way. -/
theorem walks_visit_in_order :
    (∀ draft : Draft, draft.forest.WellFormed →
      (∃ after ids, Itinerary Draft.forest Pass.resolveTags Pass.resolveTag draft after ids) ∧
        ∃ after ids, Itinerary Draft.forest Pass.resolveStyles Pass.resolveStyle draft after ids) ∧
      ∀ forest : Forest, forest.WellFormed → ∀ settings : Settings,
        (∃ after ids,
          Itinerary id (Edit.tidyTexts settings) (Edit.tidyText settings) forest after ids) ∧
          (∃ after ids, Itinerary id Edit.liftLists Edit.liftList forest after ids) ∧
          ∃ after ids,
            Itinerary id (Edit.dropBreaks settings) (Edit.dropBreak settings) forest after ids := by
  refine ⟨fun draft wellFormed => ⟨?_, ?_⟩, fun forest wellFormed settings => ⟨?_, ?_, ?_⟩⟩
  · exact exists_itinerary rfl (fun _ _ => Pass.resolver_resolveTag.visit_proceeds) wellFormed
  · exact exists_itinerary rfl (fun _ _ => Pass.resolver_resolveStyle.visit_proceeds) wellFormed
  · exact exists_itinerary rfl (fun _ _ => Edit.tidyText_proceeds) wellFormed
  · exact exists_itinerary rfl (fun _ _ => Edit.liftList_proceeds) wellFormed
  · exact exists_itinerary rfl (fun _ _ => Edit.dropBreak_proceeds) wellFormed

/-- Strong and emphasized text, a term, and its description. -/
def markedPage : ParseTree :=
  .node .article "" [.node .style "'''''" [.node .text "a" [] none none] none none,
    .node .style ";" [] none none, .node .style ":" [] none none] none none

/-- Two wrappers are added and visited on the way, and the description is moved into the list that
the term makes. -/
theorem walks_visit_in_order_markedPage :
    ∃ forest after, Edit.linkUpwards.run (.ofParseTree markedPage) = .ok () forest ∧
      forest.WellFormed ∧
      Pass.resolveStyles.run ⟨forest, []⟩ = .ok () after ∧
      after.forest.reachable = [⟨0⟩, ⟨1⟩, ⟨5⟩, ⟨2⟩, ⟨3⟩, ⟨6⟩, ⟨4⟩] ∧
      after.forest.children ⟨3⟩ = [⟨6⟩, ⟨4⟩] ∧
      Itinerary Draft.forest Pass.resolveStyles Pass.resolveStyle ⟨forest, []⟩ after
        [⟨0⟩, ⟨1⟩, ⟨5⟩, ⟨2⟩, ⟨3⟩, ⟨6⟩, ⟨4⟩] := by
  obtain ⟨forest, hLink, wellFormed, -⟩ := Edit.linkUpwards_run markedPage
  obtain ⟨-, after, ids, itinerary⟩ := walks_visit_in_order.1 ⟨forest, []⟩ wellFormed
  have hObserved : observed (fun _ forest => observed (fun _ noted => noted.visited)
      ((walk (fun noted => noted.state.forest) (noting Pass.resolveStyle)).run
        (⟨⟨forest, []⟩, []⟩ : Noted Draft)))
      (Edit.linkUpwards.run (.ofParseTree markedPage)) =
        some (some [⟨0⟩, ⟨1⟩, ⟨5⟩, ⟨2⟩, ⟨3⟩, ⟨6⟩, ⟨4⟩]) := by decide +kernel
  have hResolved : observed (fun _ forest => observed
      (fun _ after => (after.forest.reachable, after.forest.children ⟨3⟩))
      (Pass.resolveStyles.run ⟨forest, []⟩)) (Edit.linkUpwards.run (.ofParseTree markedPage)) =
        some (some ([⟨0⟩, ⟨1⟩, ⟨5⟩, ⟨2⟩, ⟨3⟩, ⟨6⟩, ⟨4⟩], [⟨6⟩, ⟨4⟩])) := by decide +kernel
  have hVisited := observe_eq hObserved hLink
  have hIds := observe_eq hVisited itinerary.visited
  have hOutcome := observe_eq hResolved hLink
  have hAfter := observe_eq hOutcome itinerary.run
  have hReachable := congrArg Prod.fst hAfter
  have hChildren := congrArg Prod.snd hAfter
  exact ⟨forest, after, hLink, wellFormed, itinerary.run, hReachable, hChildren, hIds ▸ itinerary⟩

end WikiMarkup
