import WikiMarkup.Forest.Navigation
import WikiMarkup.Proofs.Forest.Rearrangement

/-!
# Neighbours and ancestors

In a forest whose links agree the sibling before a node is the last of those in front of it, and
the sibling after it is the first of those behind. Neighbours are settled by the links alone;
whether there is an ancestor of some kind is settled by the links and the kinds.
-/

namespace WikiMarkup

namespace Forest

/-- One of the ancestors of a node has a property. -/
def Under (forest : Forest) (property : Node → Prop) (id : NodeId) : Prop :=
  ∃ above, above ≠ id ∧ forest.Reaches above id ∧ forest.Has property above

variable {forest after : Forest} {id above parent : NodeId} {front back : List NodeId}

/-! ### Siblings -/

/-- A node is one of the children of its parent. -/
theorem siblingsAndSelf_of_parent? (h : forest.parent? id = some parent) :
    forest.siblingsAndSelf id = forest.children parent := by
  rw [siblingsAndSelf, h]

theorem siblingsAndSelf_of_parent?_eq_none (h : forest.parent? id = none) :
    forest.siblingsAndSelf id = [] := by
  rw [siblingsAndSelf, h]

private theorem entryBefore?_middle (h : id ∉ front) :
    entryBefore? id (front ++ id :: back) = front.getLast? := by
  induction front with
  | nil =>
    cases back with
    | nil => rfl
    | cons second back => rw [List.nil_append, entryBefore?, if_pos rfl, List.getLast?_nil]
  | cons first front ih =>
    rw [List.mem_cons, not_or] at h
    have hFirst : first ≠ id := Ne.symm h.1
    cases front with
    | nil =>
      rw [List.singleton_append, entryBefore?, if_neg hFirst, if_pos rfl]
      rfl
    | cons second front =>
      have hSecond : second ≠ id := fun hId => h.2 (hId ▸ List.mem_cons_self)
      rw [List.getLast?_cons_cons, ← ih h.2]
      rw [List.cons_append, List.cons_append, entryBefore?, if_neg hFirst, if_neg hSecond]

/-- The sibling before a node is the last of those in front of it. -/
theorem Linked.previous?_eq_getLast? (linked : forest.Linked)
    (h : forest.children parent = front ++ id :: back) :
    forest.previous? id = front.getLast? := by
  have hFront : id ∉ front := fun hId =>
    linked.notMem_of_children h (List.mem_append_left back hId)
  have hParent : forest.parent? id = some parent := by
    rw [linked.parent_iff, h]
    exact List.mem_append_right front List.mem_cons_self
  rw [previous?, siblingsAndSelf_of_parent? hParent, h, entryBefore?_middle hFront]

private theorem entryAfter?_middle (h : id ∉ front) :
    entryAfter? id (front ++ id :: back) = back.head? := by
  have hFront : ∀ other ∈ front, decide (other ≠ id) = true := fun other hOther =>
    decide_eq_true fun hId => h (hId ▸ hOther)
  rw [entryAfter?, List.dropWhile_append_of_pos hFront, List.dropWhile_cons_of_neg (by simp)]
  rfl

/-- The sibling after a node is the first of those behind it. -/
theorem Linked.next?_eq_head? (linked : forest.Linked)
    (h : forest.children parent = front ++ id :: back) : forest.next? id = back.head? := by
  have hFront : id ∉ front := fun hId =>
    linked.notMem_of_children h (List.mem_append_left back hId)
  have hParent : forest.parent? id = some parent := by
    rw [linked.parent_iff, h]
    exact List.mem_append_right front List.mem_cons_self
  rw [next?, siblingsAndSelf_of_parent? hParent, h, entryAfter?_middle hFront]

theorem next?_eq_none_of_parent? (h : forest.parent? id = none) : forest.next? id = none := by
  rw [next?, siblingsAndSelf_of_parent?_eq_none h]
  rfl

theorem previous?_eq_none_of_parent? (h : forest.parent? id = none) :
    forest.previous? id = none := by
  rw [previous?, siblingsAndSelf_of_parent?_eq_none h]
  rfl

/-! ### What is below the root -/

/-- What is listed below a node is reached from it. -/
theorem reaches_of_mem_below {depth : Nat} (h : id ∈ forest.below depth parent) :
    forest.Reaches parent id := by
  induction depth generalizing parent with
  | zero => cases h
  | succ depth ih =>
    rw [below, List.mem_cons, List.mem_flatMap] at h
    rcases h with rfl | ⟨child, hChild, h⟩
    · exact Reaches.refl forest id
    · exact (Reaches.of_mem_children hChild).trans (ih h)

/-! ### Ancestors -/

/-- Climbing meets ancestors only. -/
theorem ancestor_of_mem_parentChain {steps : Nat} (h : above ∈ forest.parentChain steps id) :
    forest.Ancestor above id := by
  induction steps generalizing id with
  | zero => cases h
  | succ steps ih =>
    rw [parentChain] at h
    split at h
    · cases h
    next parent hParent =>
      rcases List.mem_cons.mp h with rfl | h
      · exact .single hParent
      · exact .head hParent (ih h)

/-- Climbing far enough meets every ancestor. -/
theorem WellFormed.mem_parentChain (wellFormed : forest.WellFormed) {steps : Nat}
    (hSteps : forest.height id ≤ steps) (h : forest.Ancestor above id) :
    above ∈ forest.parentChain steps id := by
  have linked := wellFormed.linked
  induction steps generalizing id with
  | zero =>
    obtain ⟨parent, hParent, -⟩ := linked.ancestor_iff_reaches_parent.mp h
    have hLower := wellFormed.height_lt hParent
    omega
  | succ steps ih =>
    obtain ⟨parent, hParent, hReaches⟩ := linked.ancestor_iff_reaches_parent.mp h
    have hLower := wellFormed.height_lt hParent
    rw [parentChain, hParent, List.mem_cons]
    exact (linked.reaches_iff_eq_or_ancestor.mp hReaches).imp_right (ih (by omega))

/-- Climbing further meets nothing more. -/
theorem WellFormed.parentChain_eq_parentChain (wellFormed : forest.WellFormed) {steps more : Nat}
    (hSteps : forest.height id ≤ steps) (hMore : steps ≤ more) :
    forest.parentChain steps id = forest.parentChain more id := by
  induction steps generalizing id more with
  | zero =>
    cases hParent : forest.parent? id with
    | none =>
      cases more with
      | zero => rfl
      | succ more => rw [parentChain, parentChain, hParent]
    | some parent =>
      have hLower := wellFormed.height_lt hParent
      omega
  | succ steps ih =>
    obtain ⟨more, rfl⟩ := Nat.exists_eq_add_of_lt hMore
    rw [parentChain, parentChain]
    cases hParent : forest.parent? id with
    | none => rfl
    | some parent =>
      have hLower := wellFormed.height_lt hParent
      exact congrArg (parent :: ·) (ih (by omega) (by omega))

/-- The ancestors of a node are the other nodes that it is reached from. -/
theorem WellFormed.ancestor_iff (wellFormed : forest.WellFormed) :
    forest.Ancestor above id ↔ above ≠ id ∧ forest.Reaches above id := by
  rw [wellFormed.linked.reaches_iff_eq_or_ancestor]
  constructor
  · intro h
    refine ⟨?_, .inr h⟩
    rintro rfl
    exact wellFormed.not_ancestor_self h
  · exact fun h => h.2.resolve_left h.1

/-- Climbing meets the ancestors and nothing else. -/
theorem WellFormed.mem_ancestorsUp_iff (wellFormed : forest.WellFormed) :
    above ∈ forest.ancestorsUp id ↔ forest.Ancestor above id := by
  refine ⟨ancestor_of_mem_parentChain, fun h => wellFormed.mem_parentChain ?_ h⟩
  have hHeight := forest.height_le_size id
  omega

/-- **Looking for an ancestor of some kind** finds it if there is one. -/
theorem WellFormed.hasAncestorOfKind_iff (wellFormed : forest.WellFormed) {kind : Kind} :
    forest.hasAncestorOfKind id kind ↔ forest.Under (·.kind = kind) id := by
  simp only [hasAncestorOfKind, List.any_eq_true, decide_eq_true_eq, wellFormed.mem_ancestorsUp_iff,
    Under, has_kind_iff, wellFormed.ancestor_iff, and_assoc]

/-! ### Same links -/

namespace SameLinks

variable (same : forest.SameLinks after)

include same

theorem siblingsAndSelf_eq (id : NodeId) :
    after.siblingsAndSelf id = forest.siblingsAndSelf id := by
  rw [siblingsAndSelf, siblingsAndSelf, same.parent?_eq]
  cases forest.parent? id with
  | none => rfl
  | some parent => exact same.children_eq parent

theorem previous?_eq (id : NodeId) : after.previous? id = forest.previous? id := by
  rw [previous?, previous?, same.siblingsAndSelf_eq]

theorem next?_eq (id : NodeId) : after.next? id = forest.next? id := by
  rw [next?, next?, same.siblingsAndSelf_eq]

theorem parentChain_eq (steps : Nat) (id : NodeId) :
    after.parentChain steps id = forest.parentChain steps id := by
  induction steps generalizing id with
  | zero => rfl
  | succ steps ih =>
    rw [parentChain, parentChain, same.parent?_eq]
    cases forest.parent? id with
    | none => rfl
    | some parent => exact congrArg (parent :: ·) (ih parent)

/-- Under the same links and kinds the same ancestors are found. -/
theorem hasAncestorOfKind_eq (hKind : ∀ id, after.kind? id = forest.kind? id) (id : NodeId)
    (kind : Kind) : after.hasAncestorOfKind id kind = forest.hasAncestorOfKind id kind := by
  rw [hasAncestorOfKind, hasAncestorOfKind, ancestorsUp, ancestorsUp, same.size_eq,
    same.parentChain_eq]
  simp only [hKind]

end SameLinks

end Forest

end WikiMarkup
