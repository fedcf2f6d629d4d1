import WikiMarkup.Normalization
import WikiMarkup.Proofs.Generic.Narrowing
import Mathlib.Data.List.Chain
import Mathlib.Logic.Relation

/-!
# Visits

Apart from linking, all that normalization does is to visit nodes, one after the other. A `Visit`
says what is done at which node, `Visit.Steps` is any number of visits, and a `Visit.History` lists
the drafts that they go through. Each pass that comes to its end is a sequence of visits: a walk
(`Pass.steps_of_walk`), flattening (`visits_of_flattenGroups`) and settling
(`Pass.steps_of_settle`).
-/

namespace WikiMarkup

open Relation (ReflTransGen)

section

variable {σ : Type} {visit : NodeId → EStateM Error σ Unit}
  {step : NodeId → EStateM Error σ (List NodeId)}

/-- One state comes from another by visits at some nodes, one after the other. -/
def Visits (visit : NodeId → EStateM Error σ Unit) : σ → σ → Prop :=
  ReflTransGen fun before after => ∃ id, (visit id).run before = .ok () after

/-- What each step keeps is kept by an exploration, if the nodes that are asked for are of a sort
that the steps may rely on. -/
theorem explore_keeps (Holds : σ → Prop) (Asked : NodeId → Prop)
    (hStep : ∀ before id next after, Holds before → Asked id →
      (step id).run before = .ok next after → Holds after ∧ ∀ other ∈ next, Asked other) :
    ∀ depth before id after, Holds before → Asked id →
      (explore step depth id).run before = .ok () after → Holds after := by
  intro depth
  induction depth with
  | zero =>
    intro before id after _ _ hRun
    cases hRun
  | succ depth ih =>
    intro before id after hBefore hId hRun
    obtain ⟨next, middle, hFirst, hRest⟩ := run_bind_eq_ok_iff.mp hRun
    obtain ⟨hMiddle, hNext⟩ := hStep before id next middle hBefore hId hFirst
    clear hFirst hRun hBefore
    induction next generalizing middle with
    | nil =>
      cases hRest
      exact hMiddle
    | cons id next ihNext =>
      obtain ⟨hId, hNext⟩ := List.forall_mem_cons.mp hNext
      obtain ⟨_, between, hFirst, hRest⟩ := run_bind_eq_ok_iff.mp hRest
      exact ihNext between hRest (ih middle id between hMiddle hId hFirst) hNext

/-- If every step visits its node, an exploration is a sequence of visits. -/
theorem visits_of_explore
    (hStep : ∀ before id next after, (step id).run before = .ok next after →
      (visit id).run before = .ok () after) {depth : Nat} {before after : σ} {id : NodeId}
    (h : (explore step depth id).run before = .ok () after) : Visits visit before after := by
  refine explore_keeps (Visits visit before) (fun _ => True) ?_ depth before id after .refl trivial
    h
  intro middle id next after hVisits _ hRun
  exact ⟨hVisits.tail ⟨id, hStep middle id next after hRun⟩, fun _ _ => trivial⟩

/-- A walk is a sequence of visits. -/
theorem visits_of_walk {view : σ → Forest} {before after : σ}
    (h : (walk view visit).run before = .ok () after) : Visits visit before after := by
  rw [walk_run_eq] at h
  refine visits_of_explore (fun before id next after hStep => ?_) h
  obtain ⟨_, middle, hVisit, hRead⟩ := run_bind_eq_ok_iff.mp hStep
  cases hRead
  exact hVisit

/-- Flattening is a sequence of visits. -/
theorem visits_of_flattenGroups {before after : Forest}
    (h : Edit.flattenGroups.run before = .ok () after) :
    Visits Edit.flattenGroup before after := by
  rw [flattenGroups_run_eq] at h
  refine visits_of_explore (fun before id next after hStep => ?_) h
  obtain ⟨_, _, hRead, hStep⟩ := run_bind_eq_ok_iff.mp hStep
  cases hRead
  obtain ⟨_, middle, hVisit, hRead⟩ := run_bind_eq_ok_iff.mp hStep
  cases hRead
  exact hVisit

end

namespace Edit

variable {settings : Settings} {before after : Forest} (Holds : Forest → Prop)
  (hRound : ∀ before after, Holds before → (cleanUp settings).run before = .ok () after →
    Holds after)

include hRound

theorem settleFrom_keeps {bound done rounds : Nat} (hBefore : Holds before)
    (hRun : (settleFrom settings bound done).run before = .ok rounds after) : Holds after := by
  induction bound generalizing before done with
  | zero => cases hRun
  | succ bound ih =>
    obtain ⟨_, _, hRead, hRun⟩ := run_bind_eq_ok_iff.mp hRun
    cases hRead
    obtain ⟨_, middle, hCleanUp, hRun⟩ := run_bind_eq_ok_iff.mp hRun
    obtain ⟨_, _, hRead, hRun⟩ := run_bind_eq_ok_iff.mp hRun
    cases hRead
    have hMiddle := hRound before middle hBefore hCleanUp
    split at hRun
    · cases hRun
      exact hMiddle
    · exact ih hMiddle hRun

/-- What each round of cleaning up keeps is kept by settling. -/
theorem settle_keeps {rounds : Nat} (hBefore : Holds before)
    (hRun : (settle settings).run before = .ok rounds after) : Holds after := by
  obtain ⟨_, _, hRead, hRun⟩ := run_bind_eq_ok_iff.mp hRun
  cases hRead
  exact settleFrom_keeps Holds hRound hBefore hRun

end Edit

/-- What a pass does at one node. -/
inductive Visit
  /-- Resolve a tag. -/
  | resolveTag (id : NodeId)
  /-- Flatten a group. -/
  | flattenGroup (id : NodeId)
  /-- Tidy a text. -/
  | tidyText (id : NodeId)
  /-- Resolve a style. -/
  | resolveStyle (id : NodeId)
  /-- Lift a list. -/
  | liftList (id : NodeId)
  /-- Drop a forced line break. -/
  | dropBreak (id : NodeId)

namespace Visit

/-- Performs a visit. -/
def perform (settings : Settings) : Visit → Pass Unit
  | resolveTag id => Pass.resolveTag id
  | flattenGroup id => Pass.edit (Edit.flattenGroup id)
  | tidyText id => Pass.edit (Edit.tidyText settings id)
  | resolveStyle id => Pass.resolveStyle id
  | liftList id => Pass.edit (Edit.liftList id)
  | dropBreak id => Pass.edit (Edit.dropBreak settings id)

/-- One draft comes from another by a visit. -/
def Step (settings : Settings) (before after : Draft) : Prop :=
  ∃ visit, (perform settings visit).run before = .ok () after

/-- One draft comes from another by visits, one after the other. -/
def Steps (settings : Settings) : Draft → Draft → Prop := ReflTransGen (Step settings)

/-- The drafts that visits go through, the first and the last one included. -/
structure History (settings : Settings) (before after : Draft) (drafts : List Draft) : Prop where
  /-- Each draft comes from the one in front of it by a visit. -/
  isChain : drafts.IsChain (Step settings)
  /-- The visits start from here. -/
  head?_eq : drafts.head? = some before
  /-- This is what they come to. -/
  getLast?_eq : drafts.getLast? = some after

theorem Steps.exists_history {settings : Settings} {before after : Draft}
    (h : Steps settings before after) : ∃ drafts, History settings before after drafts := by
  obtain ⟨drafts, hChain, hLast⟩ := List.exists_isChain_cons_of_relationReflTransGen h
  exact ⟨before :: drafts, hChain, rfl, by rw [← hLast, List.getLast?_eq_some_getLast]⟩

theorem steps_of_visits {settings : Settings} {visit : NodeId → Pass Unit}
    (perform : NodeId → Visit) (h : ∀ id, (perform id).perform settings = visit id)
    {before after : Draft} (hVisits : Visits visit before after) : Steps settings before after := by
  refine ReflTransGen.mono (fun before after hVisit => ?_) _ _ hVisits
  obtain ⟨id, hVisit⟩ := hVisit
  exact ⟨perform id, by rwa [h]⟩

end Visit

namespace Pass

open Visit (Steps steps_of_visits)

variable {settings : Settings} {forest last : Forest}

/-- Visits that edit a forest are visits of a draft. -/
theorem visits_edit {visit : NodeId → Edit Unit} (hVisits : Visits visit forest last)
    (warnings : List Warning) :
    Visits (fun id => edit (visit id)) ⟨forest, warnings⟩ ⟨last, warnings⟩ := by
  refine ReflTransGen.lift (fun forest => (⟨forest, warnings⟩ : Draft)) ?_ _ _ hVisits
  rintro forest last ⟨id, hVisit⟩
  exact ⟨id, edit_run hVisit⟩

theorem steps_of_walk {visit : NodeId → Edit Unit} (perform : NodeId → Visit)
    (h : ∀ id, (perform id).perform settings = edit (visit id))
    (hRun : (Edit.walk visit).run forest = .ok () last) (warnings : List Warning) :
    Steps settings ⟨forest, warnings⟩ ⟨last, warnings⟩ :=
  steps_of_visits perform h (visits_edit (visits_of_walk hRun) warnings)

/-- A round of cleaning up is a sequence of visits. -/
theorem steps_of_cleanUp (hRun : (Edit.cleanUp settings).run forest = .ok () last)
    (warnings : List Warning) : Steps settings ⟨forest, warnings⟩ ⟨last, warnings⟩ := by
  obtain ⟨_, tidied, hTidy, hRun⟩ := run_bind_eq_ok_iff.mp hRun
  obtain ⟨_, lifted, hLift, hDrop⟩ := run_bind_eq_ok_iff.mp hRun
  have hTidied : Steps settings ⟨forest, warnings⟩ ⟨tidied, warnings⟩ :=
    steps_of_walk .tidyText (fun _ => rfl) hTidy warnings
  have hLifted : Steps settings ⟨tidied, warnings⟩ ⟨lifted, warnings⟩ :=
    steps_of_walk .liftList (fun _ => rfl) hLift warnings
  exact hTidied.trans (hLifted.trans (steps_of_walk .dropBreak (fun _ => rfl) hDrop warnings))

/-- Settling is a sequence of visits. -/
theorem steps_of_settle {rounds : Nat} (hRun : (Edit.settle settings).run forest = .ok rounds last)
    (warnings : List Warning) : Steps settings ⟨forest, warnings⟩ ⟨last, warnings⟩ :=
  Edit.settle_keeps (fun state => Steps settings ⟨forest, warnings⟩ ⟨state, warnings⟩)
    (fun _ _ hSteps hRound => hSteps.trans (steps_of_cleanUp hRound warnings)) .refl hRun

end Pass

end WikiMarkup
