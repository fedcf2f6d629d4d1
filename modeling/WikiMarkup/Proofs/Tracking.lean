import WikiMarkup.Proofs.Changes
import WikiMarkup.Proofs.Forest.Counting
import WikiMarkup.Proofs.Stages

/-!
# The revision tells whether links have changed

Settling stops after a round that has left the revision as it was. That is right only if no change
of links goes uncounted. Operations that fail change nothing, and those that come to their end keep
track of what they do, and so do all visits. Linking upwards writes links without counting; it
writes what is there already where the links agree.

**Key result.** `revision_tells_of_changes`: through any sequence of operations and passes on a
well-formed forest the revision does not go back, it grows with every operation that succeeds, and
if it is the same in the end all links have been the same all along.
-/

namespace WikiMarkup

namespace Edit

/-! ### Visits -/

theorem keepsTrack_retag (id : NodeId) (kind : Kind) : KeepsTrack (retag id kind) :=
  keepsTrack_relabel id fun _ => ⟨rfl, rfl⟩

theorem keepsTrack_wrapChildren (id : NodeId) (kind : Kind) : KeepsTrack (wrapChildren id kind) :=
  (keepsTrack_add _).bind fun wrapper => keepsTrack_get.bind fun _ =>
    (keepsTrack_forM (fun child => (counts_append wrapper child).keepsTrack) _).bind fun _ =>
      (counts_append id wrapper).keepsTrack

theorem keepsTrack_appendEntry (list entry : NodeId) : KeepsTrack (appendEntry list entry) := by
  refine keepsTrack_get.bind fun forest => ?_
  cases forest.lastChild? list with
  | some last => exact (counts_moveBeside entry last false).keepsTrack
  | none => exact (counts_append list entry).keepsTrack

theorem keepsTrack_applyMark (id : NodeId) (mark : StyleMark) : KeepsTrack (applyMark id mark) := by
  cases mark with
  | emphasis => exact keepsTrack_retag id .emphasized
  | strong => exact keepsTrack_retag id .strong
  | strongEmphasis =>
    exact (keepsTrack_retag id .strong).bind fun _ => keepsTrack_wrapChildren id .emphasized
  | term =>
    refine keepsTrack_get.bind fun forest => ?_
    cases forest.openList? id with
    | some list => exact (keepsTrack_retag id _).bind fun _ => keepsTrack_appendEntry list id
    | none => exact (keepsTrack_retag id _).bind fun _ => keepsTrack_wrapChildren id _
  | description =>
    refine keepsTrack_get.bind fun forest => ?_
    cases forest.openList? id with
    | some list => exact (keepsTrack_retag id _).bind fun _ => keepsTrack_appendEntry list id
    | none => exact keepsTrack_relabel id fun _ => ⟨rfl, rfl⟩
  | named kind => exact keepsTrack_retag id kind

theorem keepsTrack_flattenGroup (id : NodeId) : KeepsTrack (flattenGroup id) := by
  refine keepsTrack_get.bind fun forest => KeepsTrack.when ?_
  cases forest.parent? id with
  | some parent => exact (counts_replace parent id _).keepsTrack
  | none => exact keepsTrack_pure ()

theorem keepsTrack_foldCaption (id : NodeId) (found : Node) :
    KeepsTrack (foldCaption id found) := by
  unfold foldCaption
  split
  · exact keepsTrack_relabel id fun _ => ⟨rfl, rfl⟩
  · exact keepsTrack_pure ()

theorem keepsTrack_tidyText (settings : Settings) (id : NodeId) :
    KeepsTrack (tidyText settings id) := by
  refine keepsTrack_get.bind fun forest => ?_
  cases forest.get? id with
  | none => exact keepsTrack_pure ()
  | some found =>
    dsimp only
    cases found.parent with
    | none => exact keepsTrack_pure ()
    | some parent =>
      refine KeepsTrack.when ?_
      split
      · exact (counts_replace parent id []).keepsTrack
      · exact (keepsTrack_foldCaption id found).when

theorem keepsTrack_liftList (id : NodeId) : KeepsTrack (liftList id) := by
  refine keepsTrack_get.bind fun forest => KeepsTrack.when ?_
  cases forest.parent? id with
  | none => exact keepsTrack_pure ()
  | some paragraph =>
    refine KeepsTrack.when ?_
    cases forest.parent? paragraph with
    | none => exact keepsTrack_pure ()
    | some grandparent => exact (counts_replace grandparent paragraph [id]).keepsTrack

theorem keepsTrack_dropBreak (settings : Settings) (id : NodeId) :
    KeepsTrack (dropBreak settings id) := by
  refine keepsTrack_get.bind fun forest => KeepsTrack.when ?_
  cases forest.parent? id with
  | none => exact keepsTrack_pure ()
  | some parent => exact (counts_replace parent id []).keepsTrack.when

end Edit

/-! ### Passes -/

namespace Visit

variable {settings : Settings} {before after : Draft}

/-- **Every visit keeps track.** -/
theorem tracked_of_perform (visit : Visit) (wellFormed : before.forest.WellFormed)
    (hRun : (visit.perform settings).run before = .ok () after) :
    before.forest.Tracked after.forest := by
  have hEdit : ∀ {edit : Edit Unit}, edit.KeepsTrack → (Pass.edit edit).run before = .ok () after →
      before.forest.Tracked after.forest := by
    intro edit keeps hRun
    obtain ⟨last, hLast, rfl⟩ := Pass.exists_run_of_edit hRun
    exact keeps _ _ _ hLast
  cases visit with
  | resolveTag id =>
    rcases Pass.resolveTag_cases before id with
      ⟨_, hTag⟩ | ⟨found, resolved, hFound, hKind, hResolved, hTag⟩
    all_goals
      cases hRun.symm.trans hTag
    · exact .refl _
    · exact (Pass.relabelled_of_resolvedTag? hFound hKind hResolved).same.tracked
  | flattenGroup id => exact hEdit (Edit.keepsTrack_flattenGroup id) hRun
  | tidyText id => exact hEdit (Edit.keepsTrack_tidyText settings id) hRun
  | resolveStyle id =>
    rcases Pass.resolveStyle_cases before id with
      ⟨_, hStyle⟩ | ⟨found, mark, hFound, -, -, hStyle⟩
    · cases hRun.symm.trans hStyle
      exact .refl _
    · obtain ⟨last, hApply, -⟩ :=
        Edit.applyMark_applies wellFormed (Forest.mem_of_get? hFound) mark
      cases hRun.symm.trans (hStyle last hApply)
      exact Edit.keepsTrack_applyMark id mark _ _ _ hApply
  | liftList id => exact hEdit (Edit.keepsTrack_liftList id) hRun
  | dropBreak id => exact hEdit (Edit.keepsTrack_dropBreak settings id) hRun

/-- **Any sequence of visits keeps track.** -/
theorem Steps.tracked (h : Steps settings before after) (wellFormed : before.forest.WellFormed) :
    before.forest.Tracked after.forest := by
  induction h with
  | refl => exact .refl _
  | tail hSteps hStep ih =>
    obtain ⟨visit, hRun⟩ := hStep
    exact ih.trans (tracked_of_perform visit (Steps.preserves hSteps wellFormed).wellFormed hRun)

end Visit

namespace Stage

variable {draft after : Draft}

/-- On a well-formed forest a pass is a sequence of visits: linking changes nothing. -/
theorem exists_steps (wellFormed : draft.forest.WellFormed) (stage : Stage)
    (hRun : stage.perform.run draft = .ok () after) :
    ∃ settings, Visit.Steps settings draft after := by
  obtain ⟨forest, warnings⟩ := draft
  cases stage with
  | linkUpwards =>
    cases hRun.symm.trans (Pass.edit_run (Edit.linkUpwards_unchanged wellFormed))
    exact ⟨{}, .refl⟩
  | resolveTags =>
    exact ⟨{}, Visit.steps_of_visits .resolveTag (fun _ => rfl) (visits_of_walk hRun)⟩
  | flattenGroups =>
    obtain ⟨last, hFlatten, rfl⟩ := Pass.exists_run_of_edit hRun
    exact ⟨{}, Visit.steps_of_visits .flattenGroup (fun _ => rfl)
      (Pass.visits_edit (visits_of_flattenGroups hFlatten) warnings)⟩
  | tidyTexts settings =>
    obtain ⟨last, hTidy, rfl⟩ := Pass.exists_run_of_edit hRun
    exact ⟨settings, Pass.steps_of_walk .tidyText (fun _ => rfl) hTidy warnings⟩
  | resolveStyles =>
    exact ⟨{}, Visit.steps_of_visits .resolveStyle (fun _ => rfl) (visits_of_walk hRun)⟩
  | liftLists =>
    obtain ⟨last, hLift, rfl⟩ := Pass.exists_run_of_edit hRun
    exact ⟨{}, Pass.steps_of_walk .liftList (fun _ => rfl) hLift warnings⟩
  | dropBreaks settings =>
    obtain ⟨last, hDrop, rfl⟩ := Pass.exists_run_of_edit hRun
    exact ⟨settings, Pass.steps_of_walk .dropBreak (fun _ => rfl) hDrop warnings⟩
  | normalize settings =>
    obtain ⟨_, last, rounds, course⟩ := Pass.normalize_run_of_linkUpwards settings
      (Edit.linkUpwards_unchanged wellFormed) wellFormed warnings
    cases hRun.symm.trans (run_bind_of_ok course.run)
    exact ⟨settings, course.steps⟩

end Stage

/-- A structural operation or a pass. -/
inductive Action
  /-- An operation. -/
  | call (operation : Call)
  /-- A pass. -/
  | stage (pass : Stage)

namespace Action

/-- Performs an action. -/
def perform : Action → Pass Unit
  | call operation => Pass.edit operation.perform
  | stage pass => pass.perform

/-- The draft that an action leaves behind, whether it succeeds or not. -/
def next (draft : Draft) (action : Action) : Draft :=
  match action.perform.run draft with
  | .ok _ after => after
  | .error _ after => after

/-- The drafts that a sequence of actions goes through, the first one included. -/
def history (draft : Draft) : List Action → List Draft
  | [] => [draft]
  | action :: actions => draft :: history (next draft action) actions

/-- A draft is met while actions are performed one after the other: between two of them, or between
the visits of a pass. -/
inductive Meets : Draft → List Action → Draft → Prop
  /-- It is met at the start. -/
  | start {draft : Draft} {actions : List Action} : Meets draft actions draft
  /-- It is met between visits that make up the first action. -/
  | within {draft middle : Draft} {settings : Settings} {pass : Stage} {actions : List Action}
      (hFirst : Visit.Steps settings draft middle)
      (hRest : Visit.Steps settings middle (next draft (.stage pass))) :
      Meets draft (.stage pass :: actions) middle
  /-- It is met after the first action. -/
  | later {draft met : Draft} {action : Action} {actions : List Action}
      (h : Meets (next draft action) actions met) : Meets draft (action :: actions) met

end Action

/-- Whether an operation sets links if it succeeds. All do, but to add a detached node. -/
def Call.SetsLinks : Call → Prop
  | add _ => False
  | _ => True

theorem Call.counts_perform {call : Call} (h : call.SetsLinks) : Edit.Counts call.perform := by
  cases call with
  | add new => exact h.elim
  | push parent new =>
    exact (Edit.counts_push parent new).bind_keepsTrack fun _ => Edit.keepsTrack_pure ()
  | append parent child => exact Edit.counts_append parent child
  | remove parent child => exact Edit.counts_replace parent child []
  | replace parent child replacements => exact Edit.counts_replace parent child replacements
  | moveBeside id target before => exact Edit.counts_moveBeside id target before

theorem Call.keepsTrack_perform (call : Call) : Edit.KeepsTrack call.perform := by
  by_cases h : call.SetsLinks
  · exact (counts_perform h).keepsTrack
  · cases call with
    | add new => exact (Edit.keepsTrack_add new).bind fun _ => Edit.keepsTrack_pure ()
    | _ => exact absurd trivial h

namespace Action

variable {draft : Draft}

theorem history_ne_nil (draft : Draft) (actions : List Action) : history draft actions ≠ [] := by
  cases actions <;> exact List.cons_ne_nil _ _

/-- All that a sequence of actions goes through is met. -/
theorem meets_of_mem_history {actions : List Action} {between : Draft}
    (h : between ∈ history draft actions) : Meets draft actions between := by
  induction actions generalizing draft with
  | nil =>
    rw [history, List.mem_singleton] at h
    exact h ▸ .start
  | cons action actions ih =>
    rw [history, List.mem_cons] at h
    rcases h with rfl | h
    · exact .start
    · exact .later (ih h)

theorem next_call (draft : Draft) (operation : Call) :
    next draft (.call operation) = ⟨operation.next draft.forest, draft.warnings⟩ := by
  obtain ⟨forest, warnings⟩ := draft
  rw [next, perform, Call.next, EStateM.run, Pass.edit, EStateM.run]
  cases operation.perform forest <;> rfl

/-- An action keeps a forest well-formed, whether it succeeds or not. -/
theorem wellFormed_next (wellFormed : draft.forest.WellFormed) (action : Action) :
    (next draft action).forest.WellFormed := by
  cases action with
  | call operation =>
    rw [next_call]
    exact Call.wellFormed_next wellFormed operation
  | stage pass =>
    obtain ⟨after, hRun, hAfter⟩ := pass.perform_run wellFormed
    rw [next, perform, hRun]
    exact hAfter

/-- **Every action keeps track.** An operation that fails changes nothing. -/
theorem tracked_next (wellFormed : draft.forest.WellFormed) (action : Action) :
    draft.forest.Tracked (next draft action).forest := by
  cases action with
  | call operation =>
    rw [next_call, Call.next]
    split
    next hRun => exact operation.keepsTrack_perform _ _ _ hRun
    next hRun =>
      rw [(Call.perform_guarded wellFormed operation).eq_of_error hRun]
      exact .refl _
  | stage pass =>
    obtain ⟨after, hRun, -⟩ := pass.perform_run wellFormed
    rw [next, perform, hRun]
    obtain ⟨settings, hSteps⟩ := pass.exists_steps wellFormed hRun
    exact hSteps.tracked wellFormed

/-- The revision keeps track of any sequence of actions. -/
theorem tracked_of_mem_history (wellFormed : draft.forest.WellFormed) (actions : List Action) :
    ∀ after ∈ history draft actions, draft.forest.Tracked after.forest := by
  induction actions generalizing draft with
  | nil =>
    intro after h
    rw [history, List.mem_singleton] at h
    exact h ▸ .refl _
  | cons action actions ih =>
    intro after h
    rw [history, List.mem_cons] at h
    rcases h with rfl | h
    · exact .refl _
    · exact (tracked_next wellFormed action).trans (ih (wellFormed_next wellFormed action) after h)

/-- It does so from any point on. -/
theorem pairwise_history (wellFormed : draft.forest.WellFormed) (actions : List Action) :
    (history draft actions).Pairwise fun before after => before.forest.Tracked after.forest := by
  induction actions generalizing draft with
  | nil => exact List.pairwise_singleton _ _
  | cons action actions ih =>
    have hNext := wellFormed_next wellFormed action
    refine List.pairwise_cons.mpr ⟨fun after h => ?_, ih hNext⟩
    exact (tracked_next wellFormed action).trans (tracked_of_mem_history hNext actions after h)

/-- What is met lies between the start and the end. -/
theorem tracked_of_meets {actions : List Action} {between last : Draft}
    (h : Meets draft actions between) (wellFormed : draft.forest.WellFormed)
    (hLast : (history draft actions).getLast? = some last) :
    draft.forest.Tracked between.forest ∧ between.forest.Tracked last.forest := by
  have hEnd : draft.forest.Tracked last.forest :=
    tracked_of_mem_history wellFormed actions last (List.mem_of_getLast? hLast)
  induction h with
  | start => exact ⟨.refl _, hEnd⟩
  | @within draft middle settings pass actions hFirst hRest =>
    have hNext := wellFormed_next wellFormed (.stage pass)
    rw [history, List.getLast?_cons_of_ne_nil (history_ne_nil _ actions)] at hLast
    have hRemaining := tracked_of_mem_history hNext actions last (List.mem_of_getLast? hLast)
    have hMiddle := hRest.tracked (Visit.Steps.preserves hFirst wellFormed).wellFormed
    exact ⟨hFirst.tracked wellFormed, hMiddle.trans hRemaining⟩
  | @later draft met action actions h ih =>
    have hNext := wellFormed_next wellFormed action
    rw [history, List.getLast?_cons_of_ne_nil (history_ne_nil _ actions)] at hLast
    have hRemaining := tracked_of_mem_history hNext actions last (List.mem_of_getLast? hLast)
    obtain ⟨hMet, hRest⟩ := ih hNext hLast hRemaining
    exact ⟨(tracked_next wellFormed action).trans hMet, hRest⟩

/-- **The revision tells whether links have changed**, whatever is done to a well-formed forest: it
does not go back, it grows with every operation that sets links, and if it is the same in the end,
every node has had the same children and the same parent all along. -/
theorem revision_tells_of_changes (wellFormed : draft.forest.WellFormed) (actions : List Action) :
    ((history draft actions).Pairwise fun before after =>
        before.forest.revision ≤ after.forest.revision) ∧
      (∀ before ∈ history draft actions, ∀ call : Call, call.SetsLinks → ∀ after,
        call.perform.run before.forest = .ok () after →
          before.forest.revision < after.revision) ∧
      ∀ last, (history draft actions).getLast? = some last →
        last.forest.revision = draft.forest.revision →
          ∀ between, Meets draft actions between → ∀ id,
            between.forest.children id = draft.forest.children id ∧
              between.forest.parent? id = draft.forest.parent? id := by
  refine ⟨(pairwise_history wellFormed actions).imp fun tracked => tracked.revision_le, ?_, ?_⟩
  · intro before _ call hCall after hRun
    exact Call.counts_perform hCall _ _ _ hRun
  · intro last hLast hSame between hMeets id
    obtain ⟨tracked, hLater⟩ := tracked_of_meets hMeets wellFormed hLast
    have hFirst := tracked.revision_le
    have hSecond := hLater.revision_le
    exact ⟨tracked.children_eq (by omega) id, tracked.parent?_eq (by omega) id⟩

/-- Where an operation is refused and the page then normalized, the revision is the same in the end,
and so are all links. To remove the text would count. -/
theorem revision_tells_of_refused_append :
    Call.textPage.WellFormed ∧
      ∃ last, (history ⟨Call.textPage, []⟩
          [.call (.append .root .root), .stage (.normalize {})]).getLast? = some last ∧
        last.forest.revision = Call.textPage.revision ∧
        (∀ id, last.forest.children id = Call.textPage.children id) ∧
        ∀ after, (Call.remove .root ⟨1⟩).perform.run Call.textPage = .ok () after →
          Call.textPage.revision < after.revision := by
  obtain ⟨-, hCounts, hSame⟩ := @revision_tells_of_changes ⟨Call.textPage, []⟩
    Call.wellFormed_textPage [.call (.append .root .root), .stage (.normalize {})]
  have hLast : next (next ⟨Call.textPage, []⟩ (.call (.append .root .root)))
      (.stage (.normalize {})) ∈
        history ⟨Call.textPage, []⟩ [.call (.append .root .root), .stage (.normalize {})] :=
    List.mem_cons_of_mem _ (List.mem_cons_of_mem _ (List.mem_singleton_self _))
  have hRevision : (next (next ⟨Call.textPage, []⟩ (.call (.append .root .root)))
      (.stage (.normalize {}))).forest.revision = Call.textPage.revision := by decide +kernel
  refine ⟨Call.wellFormed_textPage, _, rfl, hRevision, fun id => ?_, ?_⟩
  · exact (hSame _ rfl hRevision _ (meets_of_mem_history hLast) id).1
  · exact hCounts _ List.mem_cons_self (.remove .root ⟨1⟩) trivial

end Action

end WikiMarkup
