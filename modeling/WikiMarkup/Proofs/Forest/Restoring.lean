import WikiMarkup.Proofs.Forest.Calls
import WikiMarkup.Proofs.Forest.Traversal

/-!
# Linking whatever stands in the table

Linking reads no link upwards, so in a well-formed forest it does not matter what has been written
into those of the root and of what is below it (`Edit.linkUpwards_run_of_disturbed`).

A search that comes to its end meets no node below itself (`Search.not_reaches`). Linking then comes
to the same nodes in the same order, and there is enough depth for all of them, so it fails only at
a listed node that does not exist, and at the first one (`linkBelow_linksUntil`).

**Key result.** `linkUpwards_restores`: linking restores a well-formed forest, leaves it alone if
nothing has been overwritten, and otherwise names the first node that is missing.
-/

namespace WikiMarkup

namespace Forest

variable {forest : Forest} {id child : NodeId} {ids stack found : List NodeId}

/-! ### Searches that come to their end -/

/-- A search of two stacks, one on top of the other, is a search of one and then of the other. -/
theorem Search.exists_append (h : forest.Search (ids ++ stack) found) :
    ∃ first rest, forest.Search ids first ∧ forest.Search stack rest ∧ found = first ++ rest := by
  generalize hAll : ids ++ stack = all at h
  induction h generalizing ids with
  | done =>
    obtain ⟨rfl, rfl⟩ := List.append_eq_nil_iff.mp hAll
    exact ⟨[], [], .done, .done, rfl⟩
  | @visit id below found h ih =>
    cases ids with
    | nil =>
      rw [List.nil_append] at hAll
      exact ⟨[], _, .done, hAll ▸ Search.visit h, rfl⟩
    | cons other ids =>
      rw [List.cons_append] at hAll
      obtain ⟨rfl, rfl⟩ := List.cons_eq_cons.mp hAll
      obtain ⟨first, rest, hFirst, hRest, rfl⟩ := ih (List.append_assoc _ _ _)
      exact ⟨other :: first, rest, .visit hFirst, hRest, rfl⟩

/-- A search meets a node, then what is below it, then the rest. -/
theorem Search.exists_cons (h : forest.Search (id :: ids) found) :
    ∃ below rest, forest.Search (forest.children id) below ∧ forest.Search ids rest ∧
      found = id :: (below ++ rest) := by
  cases h with
  | visit h =>
    obtain ⟨below, rest, hBelow, hRest, rfl⟩ := h.exists_append
    exact ⟨below, rest, hBelow, hRest, rfl⟩

/-- A search from one of several nodes is no longer than one from all. -/
theorem Search.exists_of_mem (h : forest.Search ids found) (hId : id ∈ ids) :
    ∃ below, forest.Search [id] below ∧ below.length ≤ found.length := by
  obtain ⟨front, back, rfl⟩ := List.append_of_mem hId
  obtain ⟨first, rest, -, hRest, rfl⟩ := h.exists_append
  obtain ⟨below, last, hBelow, -, rfl⟩ := hRest.exists_cons
  refine ⟨id :: below, .visit ?_, ?_⟩
  · rwa [List.append_nil]
  · simp only [List.length_append, List.length_cons]
    omega

/-- Nor is one from what is below. -/
theorem Search.exists_of_reaches (h : forest.Search [id] found)
    (hReaches : forest.Reaches id child) :
    ∃ below, forest.Search [child] below ∧ below.length ≤ found.length := by
  induction hReaches with
  | refl => exact ⟨found, h, Nat.le_refl _⟩
  | @tail parent child _ hChild ih =>
    obtain ⟨middle, hMiddle, hLength⟩ := ih
    obtain ⟨_, _, hChildren, -, rfl⟩ := hMiddle.exists_cons
    obtain ⟨below, hBelow, hShorter⟩ := hChildren.exists_of_mem hChild
    refine ⟨below, hBelow, ?_⟩
    simp only [List.length_cons, List.length_append] at hLength
    omega

/-- Where a search comes to its end, no node is below itself. -/
theorem Search.not_reaches (h : forest.Search (forest.children id) found)
    (hChild : child ∈ forest.children id) : ¬ forest.Reaches child id := by
  intro hReaches
  obtain ⟨below, hBelow, hLength⟩ := h.exists_of_mem hChild
  obtain ⟨again, hAgain, hShorter⟩ := hBelow.exists_of_reaches hReaches
  have hSelf : forest.Search [id] (id :: found) := .visit (by rwa [List.append_nil])
  -- the search from the node would be shorter than itself
  rw [hSelf.unique hAgain, List.length_cons] at hShorter
  omega

theorem Search.height_lt (h : forest.Search (forest.children id) found)
    (hChild : child ∈ forest.children id) (hMem : child ∈ forest) :
    forest.height id < forest.height child :=
  height_lt_of_not_reaches hMem (Reaches.of_mem_children hChild) (h.not_reaches hChild)

end Forest

namespace Edit

open Forest (Disturbed SameDownwards)

variable {forest : Forest} {id child missing : NodeId} {ids found below : List NodeId}
  {edit next : Edit Unit}

/-! ### Linking up to a missing node -/

/-- An edit that links the nodes of a list, one after the other: it comes to its end if all of them
exist, and otherwise fails at the first that does not. -/
def LinksUntil (forest : Forest) (found : List NodeId) (edit : Edit Unit) : Prop :=
  ∀ state, forest.SameDownwards state →
    (found.find? (· ∉ forest) = none →
      ∃ after, edit.run state = .ok () after ∧ forest.SameDownwards after) ∧
    ∀ missing, found.find? (· ∉ forest) = some missing →
      ∃ after, edit.run state = .error (.unknownNode missing) after

theorem LinksUntil.bind (h : LinksUntil forest found edit)
    (hNext : found.find? (· ∉ forest) = none → LinksUntil forest below next) :
    LinksUntil forest (found ++ below) (do edit; next) := by
  intro state same
  obtain ⟨hEnds, hFails⟩ := h state same
  rw [List.find?_append]
  cases hFound : found.find? (· ∉ forest) with
  | some first =>
    obtain ⟨after, hRun⟩ := hFails first hFound
    refine ⟨fun h => (nomatch h), fun missing hMissing => ?_⟩
    obtain rfl : first = missing := Option.some_inj.mp hMissing
    exact ⟨after, run_bind_of_error hRun⟩
  | none =>
    obtain ⟨middle, hRun, hMiddle⟩ := hEnds hFound
    rw [Option.none_or, run_bind_of_ok hRun]
    exact hNext hFound middle hMiddle

theorem modifyNode_linksUntil (id child : NodeId) :
    LinksUntil forest [child] (modifyNode child fun node => { node with parent := some id }) := by
  intro state same
  by_cases hMem : child ∈ forest
  · have hState := same.mem_iff.mpr hMem
    refine ⟨fun _ => ⟨_, modifyNode_run _ hState, same.modify_parent _ _⟩, fun missing h => ?_⟩
    simp [hMem] at h
  · have hState : state.get? child = none :=
      Forest.get?_eq_none_iff_notMem.mpr fun h => hMem (same.mem_iff.mp h)
    refine ⟨fun h => absurd h (by simp [hMem]), fun missing h => ⟨state, ?_⟩⟩
    obtain rfl : child = missing := by simpa [hMem] using h
    exact run_bind_of_error (by simp [node, hState]; rfl)

/-- **Linking below a node fails at the first missing node** that a search meets there, if there is
one. -/
theorem linkBelow_linksUntil : ∀ depth id found, forest.size < depth + forest.height id →
    forest.Search (forest.children id) found → LinksUntil forest found (linkBelow depth id) := by
  intro depth
  induction depth with
  | zero =>
    intro id found hDepth
    have hHeight := forest.height_le_size id
    omega
  | succ depth ih =>
    intro id found hDepth hSearch state same
    have hChildren : ∀ ids below, (∀ child ∈ ids, child ∈ forest.children id) →
        forest.Search ids below → LinksUntil forest below (ids.forM fun child => do
          modifyNode child fun node => { node with parent := some id }
          linkBelow depth child) := by
      intro ids
      induction ids with
      | nil =>
        intro below _ hBelow
        cases hBelow
        exact fun state same => ⟨fun _ => ⟨state, rfl, same⟩, fun _ h => nomatch h⟩
      | cons child ids ihIds =>
        intro below hIds hBelow
        obtain ⟨hChild, hRest⟩ := List.forall_mem_cons.mp hIds
        obtain ⟨under, rest, hUnder, hSearchRest, rfl⟩ := hBelow.exists_cons
        rw [← List.cons_append]
        refine LinksUntil.bind ?_ fun _ => ihIds rest hRest hSearchRest
        refine (modifyNode_linksUntil id child).bind fun hFound => ih child under ?_ hUnder
        have hMem : child ∈ forest := by simpa using hFound
        have hHeight := hSearch.height_lt hChild hMem
        omega
    rw [linkBelow, EStateM.run_bind, EStateM.run_get]
    dsimp only
    rw [same.children_eq]
    exact hChildren _ found (fun _ h => h) hSearch state same

/-- Linking fails at the first missing node that a search from the root meets. -/
theorem linkUpwards_run_of_missing (hSearch : forest.Search [.root] found)
    (hMissing : found.find? (· ∉ forest) = some missing) :
    ∃ after, linkUpwards.run forest = .error (.unknownNode missing) after := by
  obtain ⟨below, _, hBelow, hRest, rfl⟩ := hSearch.exists_cons
  cases hRest
  rw [List.append_nil, List.find?_cons_of_neg (by simp [Forest.root_mem])] at hMissing
  have same := SameDownwards.modify_parent (SameDownwards.refl forest) .root none
  obtain ⟨after, hRun⟩ :=
    (linkBelow_linksUntil (forest.size + 1) .root below (by omega) hBelow _ same).2 missing hMissing
  rw [← same.size_eq] at hRun
  exact ⟨after, (run_bind_of_ok rfl).trans hRun⟩

/-- **Linking restores a well-formed forest** in which links upwards have been overwritten, and
leaves it as it is if none have been. Where a search from the root comes to its end, linking names
the first missing node that the search meets. -/
theorem linkUpwards_restores :
    (∀ forest disturbed : Forest, forest.WellFormed → forest.Disturbed disturbed →
      linkUpwards.run disturbed = .ok () forest) ∧
      (∀ forest : Forest, forest.WellFormed → linkUpwards.run forest = .ok () forest) ∧
      ∀ (forest : Forest) (found : List NodeId) (missing : NodeId), forest.Search [.root] found →
        found.find? (· ∉ forest) = some missing →
          ∃ after, linkUpwards.run forest = .error (.unknownNode missing) after :=
  ⟨fun _ _ => linkUpwards_run_of_disturbed, fun _ => linkUpwards_unchanged,
    fun _ _ _ => linkUpwards_run_of_missing⟩

/-- The page with an unknown node over the root, and the text over itself. -/
def scrawledPage : Forest :=
  (Call.textPage.modify .root fun node => { node with parent := some ⟨9⟩ }).modify ⟨1⟩ fun node =>
    { node with parent := some ⟨1⟩ }

/-- A page with a group, both of which list a node that does not exist. -/
def brokenPage : Forest where
  nodes := #[{ kind := .article, children := [⟨1⟩, ⟨5⟩] }, { kind := .group, children := [⟨7⟩] }]
  nonempty := by decide

/-- The page is restored, and the node missing below the group is met before the one below the
root. -/
theorem linkUpwards_restores_scrawledPage :
    Call.textPage.WellFormed ∧ Call.textPage.Disturbed scrawledPage ∧
      linkUpwards.run scrawledPage = .ok () Call.textPage ∧
      linkUpwards.run Call.textPage = .ok () Call.textPage ∧
      brokenPage.Search [.root] [⟨0⟩, ⟨1⟩, ⟨7⟩, ⟨5⟩] ∧
      ∃ after, linkUpwards.run brokenPage = .error (.unknownNode ⟨7⟩) after := by
  have wellFormed := Call.wellFormed_textPage
  have hText : Call.textPage.Reaches .root ⟨1⟩ := .of_mem_children (by decide +kernel)
  have hDisturbed : Call.textPage.Disturbed scrawledPage :=
    ((Forest.Disturbed.refl Call.textPage).modify_parent (.refl _ _) _).modify_parent hText _
  have hSearch : brokenPage.Search [.root] [⟨0⟩, ⟨1⟩, ⟨7⟩, ⟨5⟩] :=
    .visit (.visit (.visit (.visit .done)))
  obtain ⟨hRestores, hUnchanged, hFails⟩ := linkUpwards_restores
  exact ⟨wellFormed, hDisturbed, hRestores _ _ wellFormed hDisturbed, hUnchanged _ wellFormed,
    hSearch, hFails _ _ ⟨7⟩ hSearch (by decide)⟩

end Edit

end WikiMarkup
