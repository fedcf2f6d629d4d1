import WikiMarkup.Proofs.Forest.Calls
import WikiMarkup.Proofs.Normalization

/-!
# Passes in any order

Normalization runs its passes in a fixed order, but no pass depends on it. A `Stage` is one of the
passes, or normalization as a whole, with the settings that it is given.

**Key result.** `outcomes_ok`: on a well-formed forest any sequence of stages succeeds at every
stage, and each of them leaves a well-formed forest. The same holds of normalization on what a
parser hands over, although there the links upwards are missing.
-/

namespace WikiMarkup

/-- One of the seven passes, or all of normalization. -/
inductive Stage
  /-- Derive the links upwards. -/
  | linkUpwards
  /-- Resolve tags. -/
  | resolveTags
  /-- Flatten groups. -/
  | flattenGroups
  /-- Tidy text. -/
  | tidyTexts (settings : Settings)
  /-- Resolve styles. -/
  | resolveStyles
  /-- Lift lists. -/
  | liftLists
  /-- Drop forced line breaks. -/
  | dropBreaks (settings : Settings)
  /-- Normalize. -/
  | normalize (settings : Settings)

namespace Stage

/-- Performs a stage. What it returns besides is dropped. -/
def perform : Stage → Pass Unit
  | linkUpwards => Pass.edit Edit.linkUpwards
  | resolveTags => Pass.resolveTags
  | flattenGroups => Pass.edit Edit.flattenGroups
  | tidyTexts settings => Pass.edit (Edit.tidyTexts settings)
  | resolveStyles => Pass.resolveStyles
  | liftLists => Pass.edit Edit.liftLists
  | dropBreaks settings => Pass.edit (Edit.dropBreaks settings)
  | normalize settings => do let _ ← Pass.normalize settings

/-- How each of several stages ends that are performed one after the other. A stage that fails
hands on the draft that it leaves behind. -/
def outcomes (draft : Draft) : List Stage → List (EStateM.Result Error Draft Unit)
  | [] => []
  | stage :: stages =>
    stage.perform.run draft ::
      match stage.perform.run draft with
      | .ok _ after => outcomes after stages
      | .error _ after => outcomes after stages

variable {draft : Draft}

/-- **Every stage succeeds** on a well-formed forest, and leaves a well-formed forest. -/
theorem perform_run (wellFormed : draft.forest.WellFormed) (stage : Stage) :
    ∃ after, stage.perform.run draft = .ok () after ∧ after.forest.WellFormed := by
  obtain ⟨forest, warnings⟩ := draft
  cases stage with
  | linkUpwards =>
    exact ⟨_, Pass.edit_run (Edit.linkUpwards_unchanged wellFormed), wellFormed⟩
  | resolveTags =>
    obtain ⟨after, hRun, hAfter, -⟩ := Pass.resolveTags_run ⟨forest, warnings⟩ wellFormed
    exact ⟨_, hRun, hAfter⟩
  | flattenGroups =>
    obtain ⟨after, hRun, hAfter, -⟩ := Edit.flattenGroups_run wellFormed
    exact ⟨_, Pass.edit_run hRun, hAfter⟩
  | tidyTexts settings =>
    obtain ⟨after, hRun, hAfter, -⟩ := Edit.tidyTexts_run settings wellFormed
    exact ⟨_, Pass.edit_run hRun, hAfter⟩
  | resolveStyles =>
    obtain ⟨after, hRun, hAfter, -⟩ := Pass.resolveStyles_run ⟨forest, warnings⟩ wellFormed
    exact ⟨_, hRun, hAfter⟩
  | liftLists =>
    obtain ⟨after, hRun, hAfter, -⟩ := Edit.liftLists_run wellFormed
    exact ⟨_, Pass.edit_run hRun, hAfter⟩
  | dropBreaks settings =>
    obtain ⟨after, hRun, hAfter, -⟩ := Edit.dropBreaks_run settings wellFormed
    exact ⟨_, Pass.edit_run hRun, hAfter⟩
  | normalize settings =>
    obtain ⟨_, _, _, course⟩ := Pass.normalize_run_of_linkUpwards settings
      (Edit.linkUpwards_unchanged wellFormed) wellFormed warnings
    exact ⟨_, run_bind_of_ok course.run, course.normalized.wellFormed⟩

/-- All stages of a sequence succeed and leave well-formed forests. -/
theorem ok_of_mem_outcomes (wellFormed : draft.forest.WellFormed) (stages : List Stage) :
    ∀ outcome ∈ outcomes draft stages,
      ∃ after, outcome = .ok () after ∧ after.forest.WellFormed := by
  induction stages generalizing draft with
  | nil =>
    intro outcome h
    cases h
  | cons stage stages ih =>
    obtain ⟨after, hRun, hAfter⟩ := perform_run wellFormed stage
    intro outcome h
    rw [outcomes, hRun, List.mem_cons] at h
    rcases h with rfl | h
    · exact ⟨after, rfl, hAfter⟩
    · exact ih hAfter outcome h

/-- **Passes never fail and never break a forest.** On a well-formed forest this holds of every
stage of every sequence, and of normalization on whatever a parser hands over. -/
theorem outcomes_ok :
    (∀ draft : Draft, draft.forest.WellFormed → ∀ stages : List Stage,
      ∀ outcome ∈ outcomes draft stages,
        ∃ after, outcome = .ok () after ∧ after.forest.WellFormed) ∧
      ∀ (tree : ParseTree) (settings : Settings),
        ∃ rounds draft, (Forest.ofParseTree tree).normalize settings = .ok rounds draft ∧
          draft.forest.WellFormed := by
  refine ⟨fun _ wellFormed stages => ok_of_mem_outcomes wellFormed stages, fun tree settings => ?_⟩
  obtain ⟨rounds, draft, hRun, normalized⟩ := Pass.normalize_run tree settings
  exact ⟨rounds, draft, hRun, normalized.wellFormed⟩

/-- A definition mark below a root that has been pushed there: styles may be resolved before
anything else, and the whole be normalized in between. -/
theorem outcomes_ok_pushed :
    (Call.next (.singleton .article) (.push .root { kind := .style, caption := ";" })).WellFormed ∧
      ∀ outcome ∈ outcomes
          ⟨Call.next (.singleton .article) (.push .root { kind := .style, caption := ";" }), []⟩
          [resolveStyles, normalize {}, resolveStyles, linkUpwards],
        ∃ after, outcome = .ok () after ∧ after.forest.WellFormed := by
  have wellFormed := Call.wellFormed_next (Forest.wellFormed_singleton .article)
    (.push .root { kind := .style, caption := ";" })
  exact ⟨wellFormed, outcomes_ok.1 _ wellFormed _⟩

end Stage

end WikiMarkup
