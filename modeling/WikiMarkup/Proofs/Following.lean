import WikiMarkup.Proofs.Forest.Exploration

/-!
# Computations that follow one another

Two computations run from two states that match. The second **follows** the first if it comes to its
end wherever the first does, with a result that corresponds, and in a state that matches again.
Following is kept up by sequences (`Follows.bind`), loops (`Follows.forM`) and explorations
(`Follows.explore`), for which the second may have more depth left.
-/

namespace WikiMarkup

variable {ε σ α β γ δ : Type}

/-- Wherever the first computation comes to its end so does the second, with a result that
corresponds and a state that matches. -/
def Follows (Matches : σ → σ → Prop) (Corresponds : α → β → Prop) (before other : σ)
    (first : EStateM ε σ α) (second : EStateM ε σ β) : Prop :=
  ∀ result after, first.run before = .ok result after →
    ∃ found last, second.run other = .ok found last ∧ Corresponds result found ∧
      Matches after last

namespace Follows

variable {Matches : σ → σ → Prop} {Corresponds : α → β → Prop} {before other : σ}
  {first : EStateM ε σ α} {second : EStateM ε σ β}

theorem pure {result : α} {found : β} (hMatches : Matches before other)
    (h : Corresponds result found) :
    Follows Matches Corresponds before other (Pure.pure result : EStateM ε σ α)
      (Pure.pure found) := by
  intro _ _ hRun
  cases hRun
  exact ⟨found, other, rfl, h, hMatches⟩

/-- What fails is followed by anything. -/
theorem of_error {failure : ε} {after : σ} (h : first.run before = .error failure after) :
    Follows Matches Corresponds before other first second := by
  intro _ _ hRun
  rw [h] at hRun
  cases hRun

/-- Steps that follow one another make up sequences that do. -/
theorem bind {Last : σ → σ → Prop} {Next : γ → δ → Prop} {next : α → EStateM ε σ γ}
    {more : β → EStateM ε σ δ} (h : Follows Matches Corresponds before other first second)
    (hNext : ∀ result found after last, Corresponds result found → Matches after last →
      Follows Last Next after last (next result) (more found)) :
    Follows Last Next before other (first >>= next) (second >>= more) := by
  intro result after hRun
  obtain ⟨found, middle, hFirst, hRest⟩ := run_bind_eq_ok_iff.mp hRun
  obtain ⟨otherFound, otherMiddle, hSecond, hFound, hMiddle⟩ := h found middle hFirst
  obtain ⟨otherResult, last, hLast, hResult⟩ :=
    hNext found otherFound middle otherMiddle hFound hMiddle result after hRest
  exact ⟨otherResult, last, (run_bind_of_ok hSecond).trans hLast, hResult⟩

/-- Both may read the state first. -/
theorem get {first : σ → EStateM ε σ α} {second : σ → EStateM ε σ β}
    (h : Follows Matches Corresponds before other (first before) (second other)) :
    Follows Matches Corresponds before other (MonadState.get >>= first)
      (MonadState.get >>= second) := h

theorem of_modify (change otherChange : σ → σ)
    (h : Matches (change before) (otherChange other)) :
    Follows Matches Eq before other (modify change : EStateM ε σ PUnit) (modify otherChange) := by
  intro _ _ hRun
  cases hRun
  exact ⟨_, _, rfl, rfl, h⟩

/-- More may be known of what matches in the end. -/
theorem strengthen {Better : σ → σ → Prop}
    (h : Follows Matches Corresponds before other first second)
    (hBetter : ∀ result after last, first.run before = .ok result after → Matches after last →
      Better after last) : Follows Better Corresponds before other first second := by
  intro result after hRun
  obtain ⟨found, last, hLast, hFound, hMatches⟩ := h result after hRun
  exact ⟨found, last, hLast, hFound, hBetter result after last hRun hMatches⟩

variable {rename : NodeId → NodeId}

theorem forM {visit otherVisit : NodeId → EStateM ε σ Unit}
    (h : ∀ id before other, Matches before other →
      Follows Matches Eq before other (visit id) (otherVisit (rename id)))
    (ids : List NodeId) (hMatches : Matches before other) :
    Follows Matches Eq before other (ids.forM visit) ((ids.map rename).forM otherVisit) := by
  induction ids generalizing before other with
  | nil => exact .pure hMatches rfl
  | cons id ids ih =>
    exact (h id before other hMatches).bind fun _ _ _ _ _ hMiddle => ih hMiddle

end Follows

section

variable {Matches : σ → σ → Prop} {rename : NodeId → NodeId} {before other : σ}

/-- **Explorations follow** if their steps do. -/
theorem Follows.explore {step : NodeId → EStateM Error σ (List NodeId)}
    (h : ∀ id before other, Matches before other →
      Follows Matches (fun ids found => found = ids.map rename) before other (step id)
        (step (rename id))) {depth deeper : Nat} (hDepth : depth ≤ deeper) (id : NodeId)
    (hMatches : Matches before other) :
    Follows Matches Eq before other (explore step depth id)
      (WikiMarkup.explore step deeper (rename id)) := by
  induction depth generalizing deeper id before other with
  | zero => exact .of_error rfl
  | succ depth ih =>
    obtain ⟨deeper, rfl⟩ := Nat.exists_eq_add_of_lt (Nat.lt_of_lt_of_le (Nat.zero_lt_succ _) hDepth)
    rw [Nat.zero_add]
    refine (h id before other hMatches).bind fun ids found after last hFound hAfter => ?_
    rw [hFound]
    exact Follows.forM (fun id _ _ hMatches => ih (by omega) id hMatches) ids hAfter

theorem Forest.walkDepth_le_walkDepth {forest other : Forest} (h : forest.size ≤ other.size) :
    forest.walkDepth ≤ other.walkDepth := by
  rw [walkDepth, walkDepth]
  omega

/-- **Walks follow** if their visits do. -/
theorem Follows.walk {view : σ → Forest} {visit : NodeId → EStateM Error σ Unit}
    (hRoot : rename .root = .root)
    (hChildren : ∀ before other id, Matches before other →
      (view other).children (rename id) = ((view before).children id).map rename)
    (hSize : (view before).size ≤ (view other).size)
    (h : ∀ id before other, Matches before other →
      Follows Matches Eq before other (visit id) (visit (rename id)))
    (hMatches : Matches before other) :
    Follows Matches Eq before other (walk view visit) (WikiMarkup.walk view visit) := by
  intro result after hRun
  rw [walk_run_eq] at hRun ⊢
  have hDepth := Forest.walkDepth_le_walkDepth hSize
  rw [← hRoot]
  refine Follows.explore (fun id before other hMatches => ?_) hDepth .root hMatches result after
    hRun
  exact (h id before other hMatches).bind fun _ _ after last _ hAfter =>
    .get (.pure hAfter (hChildren after last id hAfter))

end

end WikiMarkup
