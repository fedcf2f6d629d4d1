import Mathlib.Tactic.ByContra

/-!
# Outcomes of computations that may fail

A computation on a state is **guarded** by a condition if it comes to its end exactly under that
condition, with an outcome that is known, and otherwise leaves the state as it found it. A
computation that only looks at the state may come before a guarded one, and its condition is then
added (`Guarded.bind`). A long operation is therefore guarded if it looks first and the steps
that follow cannot fail.

Of a computation that comes to its end one can observe its result and its last state (`observed`).
-/

namespace WikiMarkup

variable {ε σ α β : Type} {first : EStateM ε σ α} {next : α → EStateM ε σ β} {before after : σ}

theorem run_bind_of_ok {result : α} (h : first.run before = .ok result after) :
    (first >>= next).run before = (next result).run after := by
  rw [EStateM.run_bind, h]

theorem run_bind_of_error {failure : ε} (h : first.run before = .error failure after) :
    (first >>= next).run before = .error failure after := by
  rw [EStateM.run_bind, h]

/-- A sequence comes to its end if its parts do, one after the other. -/
theorem run_bind_eq_ok_iff {result : β} : (first >>= next).run before = .ok result after ↔
    ∃ found middle, first.run before = .ok found middle ∧
      (next found).run middle = .ok result after := by
  rw [EStateM.run_bind]
  cases first.run before <;> simp [and_assoc]

/-- What can be observed of a computation that comes to its end. -/
def observed (observe : α → σ → β) : EStateM.Result ε σ α → Option β
  | .ok result after => some (observe result after)
  | .error _ _ => none

theorem observed_eq_some_iff {observe : α → σ → β} {outcome : EStateM.Result ε σ α} {value : β} :
    observed observe outcome = some value ↔
      ∃ result after, outcome = .ok result after ∧ observe result after = value := by
  constructor
  · intro h
    cases outcome with
    | ok result after => exact ⟨result, after, rfl, Option.some_inj.mp h⟩
    | error _ _ => cases h
  · rintro ⟨result, after, rfl, rfl⟩
    rfl

/-- What can be observed is observed of the outcome that is known. -/
theorem observe_eq {observe : α → σ → β} {outcome : EStateM.Result ε σ α} {value : β}
    {result : α} (hObserved : observed observe outcome = some value)
    (hOutcome : outcome = .ok result after) : observe result after = value := by
  rw [hOutcome] at hObserved
  exact Option.some_inj.mp hObserved

/-- A computation that comes to its end exactly under a condition, then with a known outcome, and
that changes nothing if it fails. -/
structure Guarded (computation : EStateM ε σ α) (before : σ) (condition : Prop)
    (outcome : α → σ → Prop) : Prop where
  /-- Under the condition the computation comes to its end. -/
  ends : condition →
    ∃ result after, computation.run before = .ok result after ∧ outcome result after
  /-- Otherwise it fails and leaves the state as it was. -/
  refuses : ¬ condition → ∃ failure, computation.run before = .error failure before

namespace Guarded

variable {computation : EStateM ε σ α} {condition other : Prop} {outcome : α → σ → Prop}

theorem ends_iff (guarded : Guarded computation before condition outcome) :
    (∃ result after, computation.run before = .ok result after) ↔ condition := by
  constructor
  · rintro ⟨result, after, hOk⟩
    by_contra h
    obtain ⟨failure, hError⟩ := guarded.refuses h
    rw [hOk] at hError
    cases hError
  · intro h
    obtain ⟨result, after, hOk, -⟩ := guarded.ends h
    exact ⟨result, after, hOk⟩

theorem eq_of_error (guarded : Guarded computation before condition outcome) {failure : ε}
    (h : computation.run before = .error failure after) : after = before := by
  by_cases hCondition : condition
  · obtain ⟨result, after, hOk, -⟩ := guarded.ends hCondition
    rw [hOk] at h
    cases h
  · obtain ⟨failure, hError⟩ := guarded.refuses hCondition
    rw [hError] at h
    cases h
    rfl

theorem congr (guarded : Guarded computation before condition outcome)
    (h : condition ↔ other) : Guarded computation before other outcome where
  ends hOther := guarded.ends (h.mpr hOther)
  refuses hOther := guarded.refuses fun hCondition => hOther (h.mp hCondition)

theorem mono {weaker : α → σ → Prop} (guarded : Guarded computation before condition outcome)
    (h : condition → ∀ result after, outcome result after → weaker result after) :
    Guarded computation before condition weaker where
  ends hCondition := by
    obtain ⟨result, after, hOk, hOutcome⟩ := guarded.ends hCondition
    exact ⟨result, after, hOk, h hCondition result after hOutcome⟩
  refuses := guarded.refuses

/-- Reading the state first makes no difference. -/
theorem get_bind {computation : σ → EStateM ε σ α}
    (guarded : Guarded (computation before) before condition outcome) :
    Guarded (get >>= computation) before condition outcome :=
  ⟨guarded.ends, guarded.refuses⟩

/-- Looking at the state before a guarded computation adds a condition, on which the computation
may rely. -/
theorem bind {found : α → Prop} {computation : α → EStateM ε σ β} {outcome : β → σ → Prop}
    (look : Guarded first before condition fun result after => after = before ∧ found result)
    (guarded : condition → ∀ result, found result →
      Guarded (computation result) before other outcome) :
    Guarded (first >>= computation) before (condition ∧ other) outcome where
  ends h := by
    obtain ⟨result, after, hOk, rfl, hFound⟩ := look.ends h.1
    rw [run_bind_of_ok hOk]
    exact (guarded h.1 result hFound).ends h.2
  refuses h := by
    by_cases hCondition : condition
    · obtain ⟨result, after, hOk, rfl, hFound⟩ := look.ends hCondition
      rw [run_bind_of_ok hOk]
      exact (guarded hCondition result hFound).refuses fun hOther => h ⟨hCondition, hOther⟩
    · obtain ⟨failure, hError⟩ := look.refuses hCondition
      exact ⟨failure, run_bind_of_error hError⟩

/-- A check before a guarded computation adds a condition, on which the computation may rely. -/
theorem bind_check {computation : α → EStateM ε σ β} {outcome : β → σ → Prop}
    (check : Guarded first before condition fun _ after => after = before)
    (guarded : condition → ∀ result, Guarded (computation result) before other outcome) :
    Guarded (first >>= computation) before (condition ∧ other) outcome := by
  have look : Guarded first before condition fun _ after => after = before ∧ True :=
    check.mono fun _ _ _ h => ⟨h, trivial⟩
  exact look.bind fun hCondition result _ => guarded hCondition result

/-- A computation that cannot fail after a check adds no condition. -/
theorem bind_ok {computation : α → EStateM ε σ β} {outcome : β → σ → Prop}
    (check : Guarded first before condition fun _ after => after = before)
    (hOk : condition → ∀ result, ∃ last after,
      (computation result).run before = .ok last after ∧ outcome last after) :
    Guarded (first >>= computation) before condition outcome := by
  refine (check.bind_check fun hCondition result => ?_).congr (and_iff_left trivial)
  exact ⟨fun _ => hOk hCondition result, absurd trivial⟩

/-- Dropping the result leaves the condition as it is. -/
theorem drop {last : σ → Prop} (guarded : Guarded computation before condition outcome)
    (h : ∀ result after, outcome result after → last after) :
    Guarded (do let _ ← computation) before condition fun _ after => last after where
  ends hCondition := by
    obtain ⟨result, after, hOk, hOutcome⟩ := guarded.ends hCondition
    exact ⟨(), after, run_bind_of_ok hOk, h result after hOutcome⟩
  refuses hCondition := by
    obtain ⟨failure, hError⟩ := guarded.refuses hCondition
    exact ⟨failure, run_bind_of_error hError⟩

/-- A computation that never fails is guarded by every condition that holds. -/
theorem of_ok {result : α} (hCondition : condition)
    (hOk : computation.run before = .ok result after) (hOutcome : outcome result after) :
    Guarded computation before condition outcome where
  ends _ := ⟨result, after, hOk, hOutcome⟩
  refuses h := absurd hCondition h

/-- A computation that fails at once is guarded by every condition that fails. -/
theorem of_error {failure : ε} (hCondition : ¬ condition)
    (hError : computation.run before = .error failure before) :
    Guarded computation before condition outcome where
  ends h := absurd h hCondition
  refuses _ := ⟨failure, hError⟩

end Guarded

end WikiMarkup
