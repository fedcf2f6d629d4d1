import WikiMarkup.Proofs.Forest.Surroundings

/-!
# Runs of structural operations

A `Call` is one of the structural operations with its arguments. `Call.Allowed` says of each when
it goes ahead, in words of parents and ancestors alone.

**Key results.** `succeeds_iff_allowed_and_atomic`: on a well-formed forest a call succeeds exactly
if it is allowed, and a failure changes nothing. `history_invariant`: whatever is called, in
whatever order, on a forest that started as a single node, the forest is well-formed all the time.
-/

namespace WikiMarkup

/-- A structural operation with its arguments. -/
inductive Call
  /-- Add a detached node. -/
  | add (new : Node)
  /-- Add a node as the last child of a parent. -/
  | push (parent : NodeId) (new : Node)
  /-- Make a node the last child of a parent. -/
  | append (parent child : NodeId)
  /-- Take a child away from its parent. -/
  | remove (parent child : NodeId)
  /-- Put a list of nodes in the place of a child. -/
  | replace (parent child : NodeId) (replacements : List NodeId)
  /-- Put a node right before or right after a target. -/
  | moveBeside (id target : NodeId) (before : Bool)

namespace Call

/-- Performs a call. What it returns besides is dropped. -/
def perform : Call → Edit Unit
  | add new => do let _ ← Edit.add new
  | push parent new => do let _ ← Edit.push parent new
  | append parent child => Edit.append parent child
  | remove parent child => Edit.remove parent child
  | replace parent child replacements => Edit.replace parent child replacements
  | moveBeside id target before => Edit.moveBeside id target before

/-- The condition under which a call goes ahead. -/
def Allowed (forest : Forest) : Call → Prop
  | add _ => True
  | push parent _ => parent ∈ forest
  | append parent child =>
    parent ∈ forest ∧ child ∈ forest ∧ child ≠ .root ∧ child ≠ parent ∧
      ¬ forest.Ancestor child parent
  | remove parent child => child ∈ forest.children parent
  | replace parent child replacements =>
    child ∈ forest.children parent ∧ replacements.Nodup ∧
      ∀ id ∈ replacements, id ∈ forest ∧ id ≠ .root ∧ id ≠ parent ∧ ¬ forest.Ancestor id parent
  | moveBeside id target _ =>
    id ∈ forest ∧ target ∈ forest ∧ (∃ parent, forest.parent? target = some parent) ∧
      id ≠ .root ∧ id ≠ target ∧ ¬ forest.Ancestor id target

variable {forest : Forest} {parent child id target : NodeId}

/-! ### One call -/

theorem placeable_iff_not_ancestor (linked : forest.Linked) :
    forest.Placeable parent child ↔ parent ∈ forest ∧ child ∈ forest ∧ child ≠ .root ∧
      child ≠ parent ∧ ¬ forest.Ancestor child parent := by
  rw [Forest.placeable_iff, linked.reaches_iff_eq_or_ancestor, not_or]
  tauto

theorem placeable_beside_iff_not_ancestor (linked : forest.Linked) :
    (id ≠ target ∧ ∃ parent, forest.parent? target = some parent ∧ forest.Placeable parent id) ↔
      id ∈ forest ∧ target ∈ forest ∧ (∃ parent, forest.parent? target = some parent) ∧
        id ≠ .root ∧ id ≠ target ∧ ¬ forest.Ancestor id target := by
  rw [linked.ancestor_iff_reaches_parent]
  constructor
  · rintro ⟨hNe, parent, hParent, hPlaceable⟩
    refine ⟨hPlaceable.child_mem, Forest.mem_of_parent? hParent, ⟨parent, hParent⟩,
      hPlaceable.ne_root, hNe, ?_⟩
    rintro ⟨above, hAbove, hReaches⟩
    rw [hParent, Option.some_inj] at hAbove
    exact hPlaceable.not_reaches (hAbove ▸ hReaches)
  · rintro ⟨hId, -, ⟨parent, hParent⟩, hRoot, hNe, hAncestor⟩
    exact ⟨hNe, parent, hParent, hId, linked.mem_of_parent?_right hParent, hRoot,
      fun hReaches => hAncestor ⟨parent, hParent, hReaches⟩⟩

/-- **Every call is guarded**, and leaves a well-formed forest. -/
theorem perform_guarded (wellFormed : forest.WellFormed) (call : Call) :
    Guarded call.perform forest (call.Allowed forest) fun _ after => after.WellFormed := by
  have linked := wellFormed.linked
  cases call with
  | add new => exact .of_ok trivial rfl (wellFormed.add new)
  | push parent new =>
    refine ((Edit.push_guarded wellFormed parent new).mono ?_).drop fun _ _ => id
    rintro hParent _ after ⟨rfl, rfl⟩
    -- the new node is detached, so to cut it off changes nothing
    refine (wellFormed.add new).move (Forest.placeable_add hParent new) ?_
    rw [Forest.cut_of_parent?_eq_none (Forest.parent?_add_fst forest new), Forest.children_add]
  | append parent child =>
    refine ((Edit.append_guarded wellFormed parent child).mono ?_).congr
      (placeable_iff_not_ancestor linked)
    rintro hPlaceable _ after rfl
    exact wellFormed.move hPlaceable (Nat.le_refl _)
  | remove parent child =>
    refine (Edit.remove_guarded wellFormed parent child).mono ?_
    rintro - _ after rfl
    exact wellFormed.cut child
  | replace parent child replacements =>
    refine ((Edit.replace_guarded wellFormed parent child replacements).mono ?_).congr ?_
    · rintro - _ after ⟨_, _, -, gathered⟩
      exact gathered.wellFormed
    · refine and_congr_right fun hChild => and_comm.trans (and_congr_right fun _ => ?_)
      refine forall₂_congr fun id _ => ?_
      rw [placeable_iff_not_ancestor linked]
      exact and_iff_right (Forest.mem_of_mem_children hChild)
  | moveBeside id target before =>
    refine ((Edit.moveBeside_guarded wellFormed id target before).mono ?_).congr ?_
    · rintro ⟨-, above, hAbove, hPlaceable⟩ _ after ⟨parent, front, back, hParent, hChildren, rfl⟩
      rw [hAbove, Option.some_inj] at hParent
      subst hParent
      refine wellFormed.move hPlaceable ?_
      rw [linked.children_cut, hChildren, List.length_append, List.length_cons]
      split <;> omega
    · exact placeable_beside_iff_not_ancestor linked

/-- The forest that a call leaves behind, whether it succeeds or not. -/
def next (forest : Forest) (call : Call) : Forest :=
  match call.perform.run forest with
  | .ok _ after => after
  | .error _ after => after

/-- One call keeps the forest well-formed, whether it succeeds or not. -/
theorem wellFormed_next (wellFormed : forest.WellFormed) (call : Call) :
    (next forest call).WellFormed := by
  have guarded := perform_guarded wellFormed call
  unfold next
  by_cases h : call.Allowed forest
  · obtain ⟨_, after, hOk, hAfter⟩ := guarded.ends h
    rw [hOk]
    exact hAfter
  · obtain ⟨failure, hError⟩ := guarded.refuses h
    rw [hError]
    exact wellFormed

/-- **Exact conditions and atomicity.** On a well-formed forest a call succeeds exactly if it is
allowed, and if it fails the forest is what it was. -/
theorem succeeds_iff_allowed_and_atomic (wellFormed : forest.WellFormed) (call : Call) :
    ((∃ after, call.perform.run forest = .ok () after) ↔ call.Allowed forest) ∧
      ∀ failure after, call.perform.run forest = .error failure after → after = forest := by
  have guarded := perform_guarded wellFormed call
  refine ⟨?_, fun failure after h => guarded.eq_of_error h⟩
  rw [← guarded.ends_iff]
  exact ⟨fun ⟨after, h⟩ => ⟨(), after, h⟩, fun ⟨_, after, h⟩ => ⟨after, h⟩⟩

/-- A page of two siblings, a paragraph with a text in it and another text. -/
def siblingsPage : Forest :=
  next (next (next (.singleton .article) (push .root { kind := .paragraph }))
    (push .root { kind := .text, caption := "b" })) (push ⟨1⟩ { kind := .text, caption := "a" })

theorem wellFormed_siblingsPage : siblingsPage.WellFormed :=
  wellFormed_next (wellFormed_next (wellFormed_next (Forest.wellFormed_singleton .article) _) _) _

/-- A paragraph may give up its place to its text and its sibling, and the sibling may move beside
the text. A node may not be replaced by its own parent, nor may it move beside what is below it;
both are refused without a trace, the former after another replacement has passed. -/
theorem replace_and_moveBeside_siblingsPage :
    (∃ after, (replace .root ⟨1⟩ [⟨3⟩, ⟨2⟩]).perform.run siblingsPage = .ok () after) ∧
      (∃ after, (moveBeside ⟨2⟩ ⟨3⟩ true).perform.run siblingsPage = .ok () after) ∧
      (∃ failure, (replace ⟨1⟩ ⟨3⟩ [⟨2⟩, ⟨1⟩]).perform.run siblingsPage =
        .error failure siblingsPage) ∧
      ∃ failure, (moveBeside ⟨1⟩ ⟨3⟩ false).perform.run siblingsPage =
        .error failure siblingsPage := by
  have wellFormed := wellFormed_siblingsPage
  have allowed : ∀ call : Call, call.Allowed siblingsPage →
      ∃ after, call.perform.run siblingsPage = .ok () after := fun call =>
    (succeeds_iff_allowed_and_atomic wellFormed call).1.mpr
  have refused : ∀ call : Call, ¬ call.Allowed siblingsPage →
      ∃ failure, call.perform.run siblingsPage = .error failure siblingsPage := by
    intro call hRefused
    obtain ⟨hSucceeds, hAtomic⟩ := succeeds_iff_allowed_and_atomic wellFormed call
    cases hRun : call.perform.run siblingsPage with
    | ok _ after => exact absurd (hSucceeds.mp ⟨after, hRun⟩) hRefused
    | error failure after => exact ⟨failure, by rw [hAtomic failure after hRun]⟩
  have hAncestors : ∀ above id, siblingsPage.Ancestor above id ↔
      above ∈ siblingsPage.ancestorsUp id := fun _ _ => wellFormed.mem_ancestorsUp_iff.symm
  refine ⟨allowed _ ?_, allowed _ ?_, refused _ ?_, refused _ ?_⟩
  · simp only [Allowed, hAncestors]
    decide +kernel
  · simp only [Allowed, hAncestors]
    exact ⟨by decide +kernel, by decide +kernel, ⟨⟨1⟩, by decide +kernel⟩, by decide +kernel⟩
  · rintro ⟨-, -, hReplacements⟩
    exact (hReplacements ⟨1⟩ (by decide)).2.2.1 rfl
  · rintro ⟨-, -, -, -, -, hAncestor⟩
    rw [hAncestors] at hAncestor
    exact hAncestor (by decide +kernel)

/-! ### Many calls -/

/-- The forests that a sequence of calls goes through, the first one included. -/
def history (forest : Forest) : List Call → List Forest
  | [] => [forest]
  | call :: calls => forest :: history (next forest call) calls

/-- A page with one text. -/
def textPage : Forest := next (.singleton .article) (push .root { caption := "a" })

theorem wellFormed_textPage : textPage.WellFormed :=
  wellFormed_next (Forest.wellFormed_singleton .article) (push .root { caption := "a" })

/-- All calls of a sequence keep the forest well-formed. -/
theorem wellFormed_of_mem_history (wellFormed : forest.WellFormed) (calls : List Call) :
    ∀ after ∈ history forest calls, after.WellFormed := by
  induction calls generalizing forest with
  | nil =>
    intro after h
    rw [history, List.mem_singleton] at h
    exact h ▸ wellFormed
  | cons call calls ih =>
    intro after h
    rw [history, List.mem_cons] at h
    rcases h with rfl | h
    · exact wellFormed
    · exact ih (wellFormed_next wellFormed call) after h

/-- **The forest is well-formed all the time**, whatever is called on a forest that started as a
single node: the check finds nothing, climbing ends at a node without parent, and so on. -/
theorem history_invariant (kind : Kind) (calls : List Call) :
    ∀ forest ∈ history (Forest.singleton kind) calls,
      forest.check = .ok () ∧
      (∀ id ∈ forest, ∃ top, forest.parent? top = none ∧ (top = id ∨ forest.Ancestor top id)) ∧
      forest.parent? .root = none ∧
      (∀ child parent, forest.parent? child = some parent ↔ child ∈ forest.children parent) ∧
      forest.listed.Nodup ∧
      (∀ id ∈ forest.listed, id ∈ forest) ∧
      ∀ id, ¬ forest.Ancestor id id := by
  intro forest h
  have wellFormed := wellFormed_of_mem_history (Forest.wellFormed_singleton kind) calls forest h
  have linked := wellFormed.linked
  refine ⟨wellFormed.check_eq_ok, fun id _ => wellFormed.exists_top id, linked.root_parent,
    fun _ _ => linked.parent_iff, linked.nodup_listed, fun id hId => ?_,
    fun _ => wellFormed.not_ancestor_self⟩
  obtain ⟨parent, hParent⟩ := Forest.mem_listed_iff.mp hId
  exact linked.mem_children_right hParent

/-- A node put under a lone root, and then the root under that node, which is refused: the forest
passes the check, and no node is above itself. -/
theorem history_of_refused_append :
    ∃ forest ∈ history (Forest.singleton .article) [push .root {}, append ⟨1⟩ .root],
      forest = next (next (Forest.singleton .article) (push .root {})) (append ⟨1⟩ .root) ∧
        forest.check = .ok () ∧ forest.listed.Nodup ∧ ∀ id, ¬ forest.Ancestor id id := by
  have hLast : next (next (Forest.singleton .article) (push .root {})) (append ⟨1⟩ .root) ∈
      history (Forest.singleton .article) [push .root {}, append ⟨1⟩ .root] :=
    List.mem_cons_of_mem _ (List.mem_cons_of_mem _ (List.mem_singleton_self _))
  obtain ⟨hCheck, -, -, -, hNodup, -, hAncestor⟩ := history_invariant .article _ _ hLast
  exact ⟨_, hLast, rfl, hCheck, hNodup, hAncestor⟩

end Call

end WikiMarkup
