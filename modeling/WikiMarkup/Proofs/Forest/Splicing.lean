import WikiMarkup.Proofs.Forest.Linking
import WikiMarkup.Proofs.Forest.Operations

/-!
# Splicing

Where nodes go that replace a child. They may come from anywhere: from before or behind the child,
from below it, from another tree of the forest, from below one another, and the child itself may be
among them. `Forest.Spliced` says what comes out, for every node of the forest.

**Key result.** `replace_spliced`: a replacement that succeeds splices. The insertion point is not
mentioned. It moves while nodes are taken away in front of it, and always stands behind what has
been placed so far.
-/

namespace WikiMarkup

namespace Forest

/-- What comes out if nodes take the place of a child between two parts of the children of a
parent. -/
structure Spliced (forest after : Forest) (parent child : NodeId) (front ids back : List NodeId) :
    Prop where
  /-- The nodes stand in order where the child was, and nowhere else under the parent. -/
  children_parent : after.children parent =
    front.filter (· ∉ ids) ++ ids ++ back.filter (· ∉ ids)
  /-- Every other node loses those of its children that are spliced in. -/
  children_of_ne : ∀ other : NodeId, other ≠ parent →
    after.children other = (forest.children other).filter (· ∉ ids)
  /-- The nodes have the parent. -/
  parent?_of_mem : ∀ id ∈ ids, after.parent? id = some parent
  /-- The child has no parent, unless it is spliced in itself. -/
  parent?_child : child ∉ ids → after.parent? child = none
  /-- No other parent changes. -/
  parent?_of_ne : ∀ other : NodeId, other ∉ ids → other ≠ child →
    after.parent? other = forest.parent? other
  /-- Only links change. -/
  label?_eq : ∀ id : NodeId, after.label? id = forest.label? id
  /-- The child counts once for being taken out, and each node once for being put in, and once more
  if it had to be taken away from elsewhere. -/
  revision_eq : after.revision = forest.revision + (1 + ids.length +
    (ids.filter fun id => id ≠ child ∧ (forest.parent? id).isSome).length)

end Forest

namespace Edit

variable {forest after : Forest} {parent child : NodeId} {front ids back : List NodeId}

/-- **A replacement that succeeds splices**, whatever the nodes are and wherever they were. -/
theorem replace_spliced (wellFormed : forest.WellFormed)
    (hChildren : forest.children parent = front ++ [child] ++ back)
    (hRun : (replace parent child ids).run forest = .ok () after) :
    forest.Spliced after parent child front ids back := by
  have linked := wellFormed.linked
  have guarded := replace_guarded wellFormed parent child ids
  obtain ⟨_, _, hEnds, front', back', hSplit, gathered⟩ :=
    guarded.ends (guarded.ends_iff.mp ⟨(), after, hRun⟩)
  rw [hRun] at hEnds
  cases hEnds
  -- the child is listed once, so there is one way to split the children at it
  rw [List.append_assoc, List.singleton_append] at hChildren
  have hNodup := linked.nodup parent
  obtain ⟨rfl, rfl⟩ : front' = front ∧ back' = back := by
    have hSame := hSplit.symm.trans hChildren
    have hLength : front'.length = front.length := by
      rw [← idxOf_middle (hSplit ▸ hNodup), hSame, idxOf_middle (hChildren ▸ hNodup)]
    obtain ⟨hFront, hBack⟩ := List.append_inj hSame hLength
    exact ⟨hFront, List.cons_injective hBack⟩
  have hParent : forest.parent? child = some parent :=
    linked.parent_iff.mpr (by rw [hChildren]; simp)
  refine ⟨gathered.children_parent, ?_, ?_, ?_, ?_, ?_, ?_⟩
  · intro other hOther
    rw [gathered.children_of_ne other (Ne.symm hOther), linked.children_cut,
      List.erase_of_not_mem (linked.notMem_children_of_ne hParent (Ne.symm hOther))]
  · intro id hId
    rw [gathered.parent?_eq, if_pos hId]
  · intro hNot
    rw [gathered.parent?_eq, if_neg hNot, Forest.parent?_cut_self]
  · intro other hNot hOther
    rw [gathered.parent?_eq, if_neg hNot, Forest.parent?_cut, if_neg (Ne.symm hOther)]
  · intro id
    rw [gathered.label?_eq, Forest.label?_cut]
  · -- the child itself has been taken out before it is put in again
    have hHeld : (ids.filter fun id => ((forest.cut child).parent? id).isSome) =
        ids.filter fun id => id ≠ child ∧ (forest.parent? id).isSome := by
      refine List.filter_congr fun id _ => ?_
      rw [Forest.parent?_cut]
      by_cases hId : child = id
      · simp [hId]
      · simp [hId, Ne.symm hId]
    rw [gathered.revision_eq, hHeld, Forest.revision_cut, hParent, Option.isSome_some, if_pos rfl]
    omega

/-- Three nodes side by side, the first two with nodes below them. -/
def threeBranches : ParseTree :=
  .node .article "" [.node .item "" [.leaf .text] none none,
    .node .item "" [.leaf .text, .leaf .text] none none, .leaf .item] none none

/-- In the place of the second node go the third, a node from below the second, the second itself, a
node from below the first, and then the first. -/
theorem replace_spliced_threeBranches :
    ∃ forest after, linkUpwards.run (.ofParseTree threeBranches) = .ok () forest ∧
      forest.WellFormed ∧ forest.children .root = [⟨1⟩] ++ [⟨3⟩] ++ [⟨6⟩] ∧
      (replace .root ⟨3⟩ [⟨6⟩, ⟨4⟩, ⟨3⟩, ⟨2⟩, ⟨1⟩]).run forest = .ok () after ∧
      forest.Spliced after .root ⟨3⟩ [⟨1⟩] [⟨6⟩, ⟨4⟩, ⟨3⟩, ⟨2⟩, ⟨1⟩] [⟨6⟩] := by
  obtain ⟨forest, hLink, wellFormed, same⟩ := linkUpwards_run threeBranches
  have hChildren : forest.children .root = [⟨1⟩] ++ [⟨3⟩] ++ [⟨6⟩] := by
    rw [same.children_eq]
    decide +kernel
  have hOk : observed (fun result _ => result)
      ((do linkUpwards; replace .root ⟨3⟩ [⟨6⟩, ⟨4⟩, ⟨3⟩, ⟨2⟩, ⟨1⟩] : Edit Unit).run
        (.ofParseTree threeBranches)) = some () := by decide +kernel
  rw [run_bind_of_ok hLink] at hOk
  obtain ⟨_, after, hRun, -⟩ := observed_eq_some_iff.mp hOk
  exact ⟨forest, after, hLink, wellFormed, hChildren, hRun,
    replace_spliced wellFormed hChildren hRun⟩

end Edit

end WikiMarkup
