import WikiMarkup.Generic
import WikiMarkup.Proofs.Outcome

/-!
# Explorations

Walking and flattening are instances of one recursion: at each node do something, which says where
to go on, and go on there (`explore`). What is still to be explored forms a **stack**, with the
node that comes next at its front.

**Key result.** `explore_run` is the rule for explorations. If the nodes that one step asks for may
take the place of the node in the stack, then exploring the node ends and leaves the rest of the
stack.
-/

namespace WikiMarkup

variable {σ : Type}

/-- Does a step at a node, then explores the nodes that the step asks for. -/
def explore (step : NodeId → EStateM Error σ (List NodeId)) :
    (depth : Nat) → NodeId → EStateM Error σ Unit
  | 0, id => throw (.integrity (.endlessChain id))
  | depth + 1, id => do
    let ids ← step id
    ids.forM (explore step depth)

/-- The step of a walk: visit a node and ask for the children that it then has. -/
def walkStep (view : σ → Forest) (visit : NodeId → EStateM Error σ Unit) (id : NodeId) :
    EStateM Error σ (List NodeId) := do
  visit id
  return (view (← get)).children id

/-- The step of flattening: flatten a node and ask for the children that it had. -/
def flattenStep (id : NodeId) : Edit (List NodeId) := do
  let children := (← get).children id
  Edit.flattenGroup id
  return children

/-- A walk is an exploration whose steps visit a node and then ask for its children. -/
theorem walkFrom_eq_explore (view : σ → Forest) (visit : NodeId → EStateM Error σ Unit)
    (depth : Nat) (id : NodeId) :
    walkFrom view visit depth id = explore (walkStep view visit) depth id := by
  induction depth generalizing id with
  | zero => rfl
  | succ depth ih =>
    rw [walkFrom, explore, walkStep, bind_assoc, funext ih]
    simp only [bind_assoc, pure_bind]

/-- Flattening is an exploration whose steps ask for the children before they flatten. -/
theorem flattenFrom_eq_explore (depth : Nat) (id : NodeId) :
    Edit.flattenFrom depth id = explore flattenStep depth id := by
  induction depth generalizing id with
  | zero => rfl
  | succ depth ih =>
    rw [Edit.flattenFrom, explore, flattenStep, bind_assoc, funext ih]
    simp only [bind_assoc, pure_bind]

/-- A walk is an exploration from the root. -/
theorem walk_run_eq (view : σ → Forest) (visit : NodeId → EStateM Error σ Unit) (before : σ) :
    (walk view visit).run before =
      (explore (walkStep view visit) (view before).walkDepth .root).run before := by
  rw [walk, EStateM.run_bind, EStateM.run_get]
  simp only [walkFrom_eq_explore]

/-- Flattening is an exploration from the root. -/
theorem flattenGroups_run_eq (before : Forest) :
    Edit.flattenGroups.run before =
      (explore flattenStep before.walkDepth .root).run before := by
  rw [Edit.flattenGroups, EStateM.run_bind, EStateM.run_get]
  simp only [flattenFrom_eq_explore]

theorem walkStep_run {view : σ → Forest} {visit : NodeId → EStateM Error σ Unit} {id : NodeId}
    {before after : σ} (h : (visit id).run before = .ok () after) :
    (walkStep view visit id).run before = .ok ((view after).children id) after :=
  run_bind_of_ok h

theorem flattenStep_run {id : NodeId} {before after : Forest}
    (h : (Edit.flattenGroup id).run before = .ok () after) :
    (flattenStep id).run before = .ok (before.children id) after :=
  run_bind_of_ok h

section

variable {step : NodeId → EStateM Error σ (List NodeId)} {Stacked : σ → List NodeId → Prop}
  {Fits : σ → Nat → NodeId → Prop}

/-- What a step may do if it is taken at the front of a stack: the nodes that it asks for take the
place of the node, one level further down, and the rest of the stack does not become deeper. -/
def StepsDown (step : NodeId → EStateM Error σ (List NodeId)) (Stacked : σ → List NodeId → Prop)
    (Fits : σ → Nat → NodeId → Prop) : Prop :=
  ∀ before depth id rest, Stacked before (id :: rest) → Fits before depth id →
    ∃ below ids after, depth = below + 1 ∧ (step id).run before = .ok ids after ∧
      Stacked after (ids ++ rest) ∧ (∀ next ∈ ids, Fits after below next) ∧
      ∀ other ∈ rest, ∀ depth, Fits before depth other → Fits after depth other

private theorem forM_explore_run {depth : Nat}
    (h : ∀ before id rest, Stacked before (id :: rest) → Fits before depth id →
      ∃ after, (explore step depth id).run before = .ok () after ∧ Stacked after rest ∧
        ∀ other ∈ rest, ∀ depth, Fits before depth other → Fits after depth other) :
    ∀ before ids rest, Stacked before (ids ++ rest) → (∀ id ∈ ids, Fits before depth id) →
      ∃ after, (ids.forM (explore step depth)).run before = .ok () after ∧ Stacked after rest ∧
        ∀ other ∈ rest, ∀ depth, Fits before depth other → Fits after depth other := by
  intro before ids rest
  induction ids generalizing before with
  | nil => exact fun hStacked _ => ⟨before, rfl, hStacked, fun _ _ _ hFits => hFits⟩
  | cons id ids ih =>
    intro hStacked hFits
    obtain ⟨hId, hIds⟩ := List.forall_mem_cons.mp hFits
    -- what comes after the first node is a stack too, so it fits as before
    obtain ⟨middle, hFirst, hMiddle, hKept⟩ := h before id (ids ++ rest) hStacked hId
    obtain ⟨after, hLast, hAfter, hRest⟩ := ih middle hMiddle fun other hOther =>
      hKept other (List.mem_append_left rest hOther) depth (hIds other hOther)
    refine ⟨after, (run_bind_of_ok hFirst).trans hLast, hAfter, ?_⟩
    intro other hOther depth hDepth
    exact hRest other hOther depth (hKept other (List.mem_append_right ids hOther) depth hDepth)

/-- **The rule for explorations.** -/
theorem explore_run (hStep : StepsDown step Stacked Fits) :
    ∀ depth before id rest, Stacked before (id :: rest) → Fits before depth id →
      ∃ after, (explore step depth id).run before = .ok () after ∧ Stacked after rest ∧
        ∀ other ∈ rest, ∀ depth, Fits before depth other → Fits after depth other := by
  intro depth
  induction depth with
  | zero =>
    intro before id rest hStacked hFits
    obtain ⟨below, _, _, hDepth, -⟩ := hStep before 0 id rest hStacked hFits
    omega
  | succ depth ih =>
    intro before id rest hStacked hFits
    obtain ⟨below, ids, middle, hDepth, hRun, hMiddle, hIds, hRest⟩ :=
      hStep before (depth + 1) id rest hStacked hFits
    -- the nodes asked for have one level less
    obtain rfl : depth = below := by omega
    obtain ⟨after, hLast, hAfter, hKept⟩ := forM_explore_run ih middle ids rest hMiddle hIds
    refine ⟨after, (run_bind_of_ok hRun).trans hLast, hAfter, ?_⟩
    intro other hOther deep hDeep
    exact hKept other hOther deep (hRest other hOther deep hDeep)

end

end WikiMarkup
