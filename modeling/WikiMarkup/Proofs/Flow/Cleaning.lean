import WikiMarkup.Normalization
import WikiMarkup.Proofs.Generic.Narrowing

/-!
# Passes that clean up

A visit of a pass that cleans up is either **loud**, and then it counts up the revision and takes
something off the lists of children, or **quiet**, and then it leaves the links alone and its node
settled. So a whole pass that leaves the revision as it was has been quiet at every node, and all
below the root is settled (`clean_run`); and there are only as many passes that do not as there
are listed children (`Cleaned`).
-/

namespace WikiMarkup

namespace Forest

variable {forest middle after : Forest} {id : NodeId}

/-- What cleaning up does to a forest: it makes nothing generic, and each change of links takes
something off the lists of children. -/
structure Cleaned (forest after : Forest) : Prop where
  /-- Nothing becomes generic. -/
  narrows : forest.Narrows after
  /-- The revision does not go back. -/
  revision_le : forest.revision ≤ after.revision
  /-- There are no more listings. -/
  listed_le : after.listed.length ≤ forest.listed.length
  /-- If links have changed there are fewer. -/
  listed_lt : forest.revision < after.revision → after.listed.length < forest.listed.length

theorem Cleaned.refl (forest : Forest) : forest.Cleaned forest :=
  ⟨.refl forest, Nat.le_refl _, Nat.le_refl _, fun h => absurd h (Nat.lt_irrefl _)⟩

theorem Cleaned.trans (h : forest.Cleaned middle) (hAfter : middle.Cleaned after) :
    forest.Cleaned after where
  narrows := h.narrows.trans hAfter.narrows
  revision_le := h.revision_le.trans hAfter.revision_le
  listed_le := hAfter.listed_le.trans h.listed_le
  listed_lt hRevision := by
    rcases Nat.lt_or_ge forest.revision middle.revision with hLoud | hQuiet
    · exact Nat.lt_of_le_of_lt hAfter.listed_le (h.listed_lt hLoud)
    · exact Nat.lt_of_lt_of_le (hAfter.listed_lt (Nat.lt_of_le_of_lt hQuiet hRevision))
        h.listed_le

/-- What a visit of a pass that cleans up may do. -/
structure Cleans (Kept : Forest → Prop) (Settled : Forest → NodeId → Prop) (forest : Forest)
    (id : NodeId) (after : Forest) : Prop where
  /-- The visit advances. -/
  advance : forest.Advance id after (after.children id)
  /-- It makes nothing generic. -/
  narrows : forest.Narrows after
  /-- It is loud or quiet. -/
  outcome : forest.revision < after.revision ∧ after.listed.length < forest.listed.length ∨
    forest.SameLinks after ∧ (Kept forest → Kept after) ∧ Settled after id ∧
      ∀ other, other ≠ id → Settled forest other → Settled after other

theorem Cleans.cleaned {Kept : Forest → Prop} {Settled : Forest → NodeId → Prop}
    (cleans : Cleans Kept Settled forest id after) : forest.Cleaned after := by
  rcases cleans.outcome with ⟨hRevision, hListed⟩ | ⟨same, -⟩
  · exact ⟨cleans.narrows, hRevision.le, hListed.le, fun _ => hListed⟩
  · refine ⟨cleans.narrows, same.revision_eq.ge, (congrArg List.length same.listed_eq).le, ?_⟩
    exact fun h => absurd same.revision_eq h.ne'

/-- A visit that changes nothing cleans if the node is settled. -/
theorem WellFormed.cleans_self {Kept : Forest → Prop} {Settled : Forest → NodeId → Prop}
    (wellFormed : forest.WellFormed) (hSettled : Settled forest id) :
    Cleans Kept Settled forest id forest :=
  ⟨(SameLinks.refl forest).advance wellFormed fun _ => rfl, .refl forest,
    .inr ⟨.refl forest, fun h => h, hSettled, fun _ _ h => h⟩⟩

end Forest

namespace Edit

open Forest (Cleans Cleaned)

variable {Kept : Forest → Prop} {Settled : Forest → NodeId → Prop} {visit : NodeId → Edit Unit}
  {forest : Forest}

/-- **Passes that clean up** come to their end. If they leave the revision as it was, all below
the root is settled. -/
theorem clean_run
    (hVisit : ∀ {forest : Forest} {id : NodeId}, forest.WellFormed → id ∈ forest →
      ∃ after, (visit id).run forest = .ok () after ∧ Cleans Kept Settled forest id after)
    (wellFormed : forest.WellFormed) (hKept : Kept forest) :
    ∃ after, (walk visit).run forest = .ok () after ∧ after.WellFormed ∧
      forest.Cleaned after ∧
      (after.revision = forest.revision →
        Kept after ∧ ∀ id, after.Reaches .root id → Settled after id) := by
  -- all is about states with the revision of the start: once it has changed nothing is claimed
  have hStep : Advances id (walkStep id visit)
      (fun state => forest.Cleaned state ∧ (state.revision = forest.revision → Kept state))
      (fun state id => state.revision = forest.revision → Settled state id) := by
    rintro before id ⟨hCleaned, hQuiet⟩ wellFormed hId
    obtain ⟨after, hRun, cleans⟩ := hVisit wellFormed hId
    have hRevision := hCleaned.revision_le
    refine ⟨_, after, walkStep_run hRun, ⟨hCleaned.trans cleans.cleaned, ?_⟩, cleans.advance, ?_⟩
    · intro hSame
      rcases cleans.outcome with ⟨hLoud, -⟩ | ⟨same, hKept, -⟩
      · exact absurd hSame (Nat.ne_of_gt (Nat.lt_of_le_of_lt hRevision hLoud))
      · exact hKept (hQuiet (same.revision_eq.symm.trans hSame))
    · intro other hReaches hFormer hSame
      rcases cleans.outcome with ⟨hLoud, -⟩ | ⟨same, -, hSettled, hOthers⟩
      · exact absurd hSame (Nat.ne_of_gt (Nat.lt_of_le_of_lt hRevision hLoud))
      · by_cases hOther : other = id
        · exact hOther ▸ hSettled
        · have hMem := cleans.advance.wellFormed.linked.mem_of_reaches after.root_mem hReaches
          exact hOthers other hOther
            (hFormer (same.mem_iff.mp hMem) hOther (same.revision_eq.symm.trans hSame))
  obtain ⟨after, hRun, ⟨hCleaned, hQuiet⟩, hAfter, hSettled⟩ :=
    walk_covers hStep ⟨.refl forest, fun _ => hKept⟩ wellFormed
  exact ⟨after, hRun, hAfter, hCleaned, fun hSame =>
    ⟨hQuiet hSame, fun id hId => hSettled id hId hSame⟩⟩

/-- A pass that changes nothing at the nodes below the root leaves the forest as it is. -/
theorem clean_unchanged (wellFormed : forest.WellFormed)
    (hVisit : ∀ id, forest.Reaches .root id → (visit id).run forest = .ok () forest) :
    (walk visit).run forest = .ok () forest := by
  have hWalk : ∃ after, (walk visit).run forest = .ok () after ∧ after = forest := by
    refine walk_unchanged wellFormed ?_ rfl
    rintro before id rfl hReaches
    exact ⟨before, hVisit id hReaches, rfl⟩
  obtain ⟨_, hRun, rfl⟩ := hWalk
  exact hRun

end Edit

end WikiMarkup
