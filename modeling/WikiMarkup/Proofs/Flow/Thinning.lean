import WikiMarkup.Proofs.Flow.Cleanup
import WikiMarkup.Proofs.Forest.Preservation

/-!
# Thinning out the flow

Tidying texts and dropping breaks do two things only: they fold the caption of a text, and they cut
off a break or a blank text that touches a block (`Forest.Thins`). Any number of such steps leads to
a forest that is `Thinned`: each list of children has lost some entries, and what it has lost is
inline.

**Key result.** To take inline nodes away brings no node away from a block. The neighbours of a node
that touches a block are the block and what lies between, which is nothing; the block is not inline,
so it stays, and it stays next to the node (`Thinned.touchesBlock`).
-/

namespace WikiMarkup

open Relation (ReflTransGen)

namespace Forest

variable {settings : Settings} {start forest after : Forest} {id other above parent : NodeId}

/-! ### Steps -/

/-- A break, or blank text that is not preformatted: a node that only fills the flow. -/
def IsFiller (forest : Forest) (id : NodeId) : Prop :=
  forest.kind? id = some .breakingReturn ∨
    (forest.Has Node.IsBlankText id ∧ ¬ forest.Under (·.kind = .preFormatted) id)

/-- A filler below another node that touches a block. -/
structure Removable (settings : Settings) (forest : Forest) (id : NodeId) : Prop where
  /-- It is below another node. -/
  isSome_parent? : (forest.parent? id).isSome
  /-- It touches a block. -/
  touchesBlock : forest.touchesBlock settings id
  /-- It is a filler. -/
  isFiller : forest.IsFiller id

/-- Text below another node, not preformatted, in which lines are to be folded. -/
structure Foldable (settings : Settings) (forest : Forest) (id : NodeId) (folded : String) :
    Prop where
  /-- The settings ask for it. -/
  foldLines : settings.foldLines
  /-- It is below another node. -/
  isSome_parent? : (forest.parent? id).isSome
  /-- It is not preformatted. -/
  plain : ¬ forest.Under (·.kind = .preFormatted) id
  /-- It is text with lines to fold. -/
  has_lines : forest.Has (fun label => label.kind = .text ∧ foldLines? label.caption = some folded)
    id

/-- What a visit does to a forest, if it does anything. -/
inductive Thins (settings : Settings) (forest : Forest) : Forest → Prop
  /-- It folds the lines of a text. -/
  | folded {id : NodeId} {folded : String} (h : forest.Foldable settings id folded) :
      Thins settings forest (forest.modify id fun node => { node with caption := folded })
  /-- It takes a filler away. -/
  | removed {id : NodeId} (h : forest.Removable settings id) : Thins settings forest (forest.cut id)

/-! ### What steps come to -/

/-- A text has been folded on the way, and it is not preformatted if it is still there. -/
structure FoldedIn (settings : Settings) (start forest : Forest) (id : NodeId) (label : Node)
    (folded : String) : Prop where
  /-- This is what it was. -/
  label?_start : start.label? id = some label
  /-- It has lines to fold. -/
  foldLines?_eq : foldLines? label.caption = some folded
  /-- It has been folded. -/
  label?_eq : forest.label? id = some { label with caption := folded }
  /-- It is text. -/
  kind_eq : label.kind = .text
  /-- The settings ask for it. -/
  foldLines : settings.foldLines
  /-- It was below another node. -/
  isSome_parent? : (start.parent? id).isSome
  /-- It is not preformatted. -/
  plain : forest.Reaches .root id → ¬ start.Under (·.kind = .preFormatted) id

/-- What any number of steps leads to. -/
structure Thinned (settings : Settings) (start forest : Forest) : Prop where
  /-- The links agree, and there are no cycles. -/
  wellFormed : forest.WellFormed
  /-- A node that still has a parent has the one it had. -/
  parent?_eq : ∀ {id parent : NodeId}, forest.parent? id = some parent →
    start.parent? id = some parent
  /-- Children that have a parent stay, in their order. -/
  children_eq : ∀ id : NodeId, forest.children id =
    (start.children id).filter fun child => (forest.parent? child).isSome
  /-- What has been taken away is inline. -/
  inline : ∀ {id : NodeId}, (start.parent? id).isSome → forest.parent? id = none →
    forest.layout? settings id = some .inline
  /-- Nothing but texts has changed, by folding. -/
  label?_eq : ∀ id : NodeId, forest.label? id = start.label? id ∨
    ∃ label folded, FoldedIn settings start forest id label folded

theorem layout?_eq_map_label? (forest : Forest) (id : NodeId) :
    forest.layout? settings id = (forest.label? id).map (·.layout settings) := by
  rw [layout?, label?, Option.map_map]
  rfl

/-- Fillers are inline. -/
theorem IsFiller.layout?_eq (h : forest.IsFiller id) :
    forest.layout? settings id = some .inline := by
  rw [layout?_eq_map_label?]
  rcases h with h | ⟨⟨label, hLabel, hText, -⟩, -⟩
  · obtain ⟨label, hLabel, hKind⟩ := has_kind_iff.mpr h
    rw [hLabel, Option.map_some, Node.layout, hKind]
    rfl
  · rw [hLabel, Option.map_some, Node.layout, hText]
    rfl

/-- A well-formed forest has been thinned by nothing. -/
theorem WellFormed.thinned_self (wellFormed : forest.WellFormed) :
    Thinned settings forest forest where
  wellFormed := wellFormed
  parent?_eq := id
  children_eq id := by
    refine (List.filter_eq_self.mpr fun child hChild => ?_).symm
    rw [wellFormed.linked.parent_iff.mpr hChild]
    rfl
  inline h hNone := by
    rw [hNone] at h
    cases h
  label?_eq _ := .inl rfl

namespace Thinned

variable (thinned : Thinned settings start forest)

include thinned

/-- Thinning leaves all kinds as they are. -/
theorem kind?_eq (id : NodeId) : forest.kind? id = start.kind? id := by
  rcases thinned.label?_eq id with h | ⟨label, folded, h⟩
  · exact kind?_congr h
  · rw [kind?_eq_map_label?, kind?_eq_map_label?, h.label?_eq, h.label?_start]
    rfl

theorem has_kind_iff {kind : Kind} :
    forest.Has (·.kind = kind) id ↔ start.Has (·.kind = kind) id := by
  rw [Forest.has_kind_iff, Forest.has_kind_iff, thinned.kind?_eq]

/-- Thinning makes no text blank, and none that was blank otherwise. -/
theorem has_isBlankText_iff :
    forest.Has Node.IsBlankText id ↔ start.Has Node.IsBlankText id := by
  rcases thinned.label?_eq id with h | ⟨label, folded, h⟩
  · rw [Has, Has, h]
  · rw [has_iff_of_label? h.label?_eq, has_iff_of_label? h.label?_start, Node.IsBlankText,
      Node.IsBlankText, isBlank_foldLines? h.foldLines?_eq]

/-- Folding a text leaves its layout alone. -/
theorem layout?_eq (id : NodeId) : forest.layout? settings id = start.layout? settings id := by
  rw [layout?_eq_map_label?, layout?_eq_map_label?]
  rcases thinned.label?_eq id with h | ⟨label, folded, h⟩
  · rw [h]
  · rw [h.label?_eq, h.label?_start, Option.map_some, Option.map_some, Node.layout, Node.layout,
      h.kind_eq]

/-- Thinning lists nothing that was not listed. -/
theorem mem_children_start (h : id ∈ forest.children parent) : id ∈ start.children parent := by
  rw [thinned.children_eq] at h
  exact (List.mem_filter.mp h).1

/-- Thinning reaches nothing that was not reached. -/
theorem reaches_start (h : forest.Reaches above id) : start.Reaches above id :=
  h.mono thinned.mem_children_start

/-- What is above a node below the root is what was above it. -/
theorem reaches_iff (linked : start.Linked) (h : forest.Reaches .root id) :
    forest.Reaches above id ↔ start.Reaches above id := by
  refine ⟨thinned.reaches_start, fun hAbove => ?_⟩
  induction h with
  | refl =>
    obtain rfl := linked.eq_root_of_reaches_root hAbove
    exact Reaches.refl forest _
  | @tail parent child _ hChild ih =>
    have hParent := thinned.parent?_eq (thinned.wellFormed.linked.parent_iff.mpr hChild)
    rcases linked.reaches_iff_parent.mp hAbove with rfl | ⟨found, hFound, hAbove⟩
    · exact Reaches.refl forest _
    · rw [hParent, Option.some_inj] at hFound
      subst hFound
      exact (ih hAbove).trans (Reaches.of_mem_children hChild)

/-- What has been kept stands under the same kinds as before. -/
theorem under_iff (linked : start.Linked) {kind : Kind} (h : forest.Reaches .root id) :
    forest.Under (·.kind = kind) id ↔ start.Under (·.kind = kind) id := by
  simp only [Under, thinned.reaches_iff linked h, thinned.has_kind_iff]

/-- What has been kept is filler if it was. -/
theorem isFiller_iff (linked : start.Linked) (h : forest.Reaches .root id) :
    forest.IsFiller id ↔ start.IsFiller id := by
  rw [IsFiller, IsFiller, thinned.kind?_eq, thinned.has_isBlankText_iff,
    thinned.under_iff linked h]

/-! ### One more step -/

/-- A text that is folded has not been folded on the way, so it is what it was in the beginning. -/
theorem foldedIn_of_foldable (linked : start.Linked) {folded : String}
    (h : forest.Foldable settings id folded) : ∃ label,
      FoldedIn settings start (forest.modify id fun node => { node with caption := folded }) id
        label folded := by
  obtain ⟨label, hLabel, hText, hFold⟩ := h.has_lines
  obtain ⟨found, hFound, rfl⟩ := Option.map_eq_some_iff.mp hLabel
  have same : forest.SameLinks (forest.modify id fun node => { node with caption := folded }) :=
    sameLinks_modify fun _ _ => ⟨rfl, rfl⟩
  have hNow : (forest.modify id fun node => { node with caption := folded }).label? id =
      some { found.unlinked with caption := folded } := by
    rw [label?_modify_self, hFound]
    rfl
  rcases thinned.label?_eq id with hSame | ⟨former, text, hFolded⟩
  · obtain ⟨above, hAbove⟩ := Option.isSome_iff_exists.mp h.isSome_parent?
    refine ⟨found.unlinked, hSame ▸ hLabel, hFold, hNow, hText, h.foldLines, ?_, fun hReaches => ?_⟩
    · rw [thinned.parent?_eq hAbove]
      rfl
    · rw [← thinned.under_iff linked (same.reaches_iff.mp hReaches)]
      exact h.plain
  · -- what is folded cannot be folded again
    rw [hFolded.label?_eq, Option.some_inj] at hLabel
    rw [← hLabel, foldLines?_foldLines? hFolded.foldLines?_eq] at hFold
    cases hFold

/-- To fold a caption thins. -/
theorem fold (linked : start.Linked) {folded : String}
    (h : forest.Foldable settings id folded) :
    Thinned settings start (forest.modify id fun node => { node with caption := folded }) := by
  have same : forest.SameLinks (forest.modify id fun node => { node with caption := folded }) :=
    sameLinks_modify fun _ _ => ⟨rfl, rfl⟩
  have hLayout : ∀ other,
      (forest.modify id fun node => { node with caption := folded }).layout? settings other =
        forest.layout? settings other := by
    obtain ⟨label, hLabel, hText, -⟩ := h.has_lines
    obtain ⟨found, hFound, rfl⟩ := Option.map_eq_some_iff.mp hLabel
    exact layout?_modify_caption hFound hText folded
  refine ⟨same.wellFormed thinned.wellFormed, fun hParent => ?_, fun other => ?_,
    fun hSome hNone => ?_, fun other => ?_⟩
  · rw [same.parent?_eq] at hParent
    exact thinned.parent?_eq hParent
  · simp only [same.children_eq, same.parent?_eq, thinned.children_eq other]
  · rw [same.parent?_eq] at hNone
    rw [hLayout]
    exact thinned.inline hSome hNone
  · by_cases hOther : other = id
    · obtain ⟨label, hFolded⟩ := thinned.foldedIn_of_foldable linked h
      exact .inr ⟨label, folded, hOther ▸ hFolded⟩
    · have hLabelOther :
          (forest.modify id fun node => { node with caption := folded }).label? other =
            forest.label? other := label?_modify_of_ne (Ne.symm hOther)
      refine (thinned.label?_eq other).imp hLabelOther.trans ?_
      rintro ⟨former, text, hFolded⟩
      exact ⟨former, text, { hFolded with
        label?_eq := hLabelOther.trans hFolded.label?_eq
        plain := fun hReaches => hFolded.plain (same.reaches_iff.mp hReaches) }⟩

/-- To remove filler thins. -/
theorem remove (h : forest.Removable settings id) : Thinned settings start (forest.cut id) := by
  have linked := thinned.wellFormed.linked
  refine ⟨thinned.wellFormed.cut id, fun {child parent} hParent => ?_, fun other => ?_,
    fun {child} hSome hNone => ?_, fun other => ?_⟩
  · rw [parent?_cut] at hParent
    split at hParent
    · cases hParent
    · exact thinned.parent?_eq hParent
  · rw [linked.children_cut, (linked.nodup other).erase_eq_filter, thinned.children_eq,
      List.filter_filter]
    refine List.filter_congr fun child _ => ?_
    rw [parent?_cut]
    by_cases hChild : id = child
    · simp [hChild]
    · simp [hChild, Ne.symm hChild]
  · rw [layout?_eq_map_label?, label?_cut, ← layout?_eq_map_label?]
    rw [parent?_cut] at hNone
    split at hNone
    next hChild => exact hChild ▸ h.isFiller.layout?_eq
    next => exact thinned.inline hSome hNone
  · rw [label?_cut]
    refine (thinned.label?_eq other).imp_right ?_
    rintro ⟨former, text, hFolded⟩
    exact ⟨former, text, { hFolded with
      label?_eq := label?_cut.trans hFolded.label?_eq
      plain := fun hReaches => hFolded.plain (linked.reaches_of_reaches_cut hReaches) }⟩

/-- One step after another thins. -/
theorem step (linked : start.Linked) (h : Thins settings forest after) :
    Thinned settings start after := by
  cases h with
  | folded h => exact thinned.fold linked h
  | removed h => exact thinned.remove h

end Thinned

/-- **Any number of steps thin.** -/
theorem WellFormed.thinned (wellFormed : start.WellFormed)
    (h : ReflTransGen (Thins settings) start forest) : Thinned settings start forest := by
  induction h with
  | refl => exact wellFormed.thinned_self
  | tail _ hStep ih => exact ih.step wellFormed.linked hStep

/-! ### Thinning out further -/

theorem getLast?_filter_eq {p : NodeId → Bool} {ids : List NodeId}
    (h : ∀ id ∈ ids.getLast?, p id) : (ids.filter p).getLast? = ids.getLast? := by
  rcases List.eq_nil_or_concat' ids with rfl | ⟨front, last, rfl⟩
  · rfl
  · rw [List.getLast?_concat] at h ⊢
    rw [List.filter_append, List.filter_cons_of_pos (h last rfl), List.filter_nil,
      List.getLast?_concat]

theorem head?_filter_eq {p : NodeId → Bool} {ids : List NodeId}
    (h : ∀ id ∈ ids.head?, p id) : (ids.filter p).head? = ids.head? := by
  cases ids with
  | nil => rfl
  | cons first rest => rw [List.filter_cons_of_pos (h first rfl)]; rfl

/-- Where siblings have been taken away, but not the one before a node, that one is still there. -/
theorem Linked.previous?_eq_of_filter {kept : NodeId → Bool} (linked : forest.Linked)
    (hAfter : after.Linked) (hParent : forest.parent? id = some parent)
    (hChildren : after.children parent = (forest.children parent).filter kept) (hKept : kept id)
    (h : ∀ before ∈ forest.children parent, forest.previous? id = some before → kept before) :
    after.previous? id = forest.previous? id := by
  obtain ⟨front, back, hSplit⟩ := List.append_of_mem (linked.parent_iff.mp hParent)
  rw [hSplit, List.filter_append, List.filter_cons_of_pos hKept] at hChildren
  have hPrevious := linked.previous?_eq_getLast? hSplit
  rw [hPrevious, hAfter.previous?_eq_getLast? hChildren]
  refine getLast?_filter_eq fun before hBefore => h before ?_ (hPrevious.trans hBefore)
  rw [hSplit]
  exact List.mem_append_left _ (List.mem_of_getLast? hBefore)

/-- The node behind stays if it is kept. -/
theorem Linked.next?_eq_of_filter {kept : NodeId → Bool} (linked : forest.Linked)
    (hAfter : after.Linked) (hParent : forest.parent? id = some parent)
    (hChildren : after.children parent = (forest.children parent).filter kept) (hKept : kept id)
    (h : ∀ behind ∈ forest.children parent, forest.next? id = some behind → kept behind) :
    after.next? id = forest.next? id := by
  obtain ⟨front, back, hSplit⟩ := List.append_of_mem (linked.parent_iff.mp hParent)
  rw [hSplit, List.filter_append, List.filter_cons_of_pos hKept] at hChildren
  have hNext := linked.next?_eq_head? hSplit
  rw [hNext, hAfter.next?_eq_head? hChildren]
  refine head?_filter_eq fun behind hBehind => h behind ?_ (hNext.trans hBehind)
  rw [hSplit]
  exact List.mem_append_right _ (List.mem_cons_of_mem _ (List.mem_of_mem_head? hBehind))

/-- Where the flow ends it ends at the neighbour that is looked for first. -/
theorem endsFlow_of_orElse {first rest : Option NodeId}
    (h : forest.endsFlow settings (first <|> rest)) : forest.endsFlow settings first := by
  cases first with
  | none => rfl
  | some found => exact h

/-- Of two forests that have been thinned out from the same one, the second has lost all below the
root that the first has lost. -/
structure Thinner (settings : Settings) (start forest after : Forest) : Prop where
  /-- The start is well-formed. -/
  wellFormed : start.WellFormed
  /-- The first has been thinned out. -/
  first : Thinned settings start forest
  /-- So has the second. -/
  second : Thinned settings start after
  /-- What the first has lost the second has lost. -/
  reaches : ∀ {id : NodeId}, after.Reaches .root id → forest.Reaches .root id

namespace Thinner

variable (thinner : Thinner settings start forest after)

include thinner

/-- What has been kept has the same parent as before. -/
theorem parent?_eq (h : after.Reaches .root id) : after.parent? id = forest.parent? id := by
  have linked := thinner.first.wellFormed.linked
  have hAfter := thinner.second.wellFormed.linked
  rcases hAfter.reaches_iff_parent.mp h with rfl | ⟨parent, hParent, -⟩
  · rw [hAfter.root_parent, linked.root_parent]
  rcases linked.reaches_iff_parent.mp (thinner.reaches h) with rfl | ⟨above, hAbove, -⟩
  · exact absurd rfl (hAfter.ne_root hParent)
  · -- both are the parent at the start
    rw [hParent, hAbove, ← thinner.second.parent?_eq hParent, ← thinner.first.parent?_eq hAbove]

/-- Of the children of what has been kept those are left that still have a parent. -/
theorem children_eq (h : after.Reaches .root id) : after.children id =
    (forest.children id).filter fun child => (after.parent? child).isSome := by
  rw [thinner.second.children_eq, thinner.first.children_eq, List.filter_filter]
  refine List.filter_congr fun child hChild => ?_
  cases hParent : after.parent? child with
  | none => rfl
  | some parent =>
    have hSame := thinner.wellFormed.linked.parent_iff.mpr hChild
    rw [thinner.second.parent?_eq hParent, Option.some_inj] at hSame
    subst hSame
    have hReaches := h.trans (Reaches.of_mem_children
      (thinner.second.wellFormed.linked.parent_iff.mp hParent))
    rw [← thinner.parent?_eq hReaches, hParent]
    rfl

theorem layout?_eq (id : NodeId) : after.layout? settings id = forest.layout? settings id := by
  rw [thinner.second.layout?_eq, thinner.first.layout?_eq]

/-- A neighbour ends the flow if it did. -/
theorem endsFlow_eq (neighbour : Option NodeId) :
    after.endsFlow settings neighbour = forest.endsFlow settings neighbour := by
  cases neighbour with
  | none => rfl
  | some neighbour => rw [endsFlow, endsFlow, thinner.layout?_eq]

/-- A child that ends the flow stays. -/
theorem isSome_parent? (hChild : id ∈ forest.children parent)
    (hEnds : forest.endsFlow settings (some id)) : (after.parent? id).isSome := by
  have hStart : (start.parent? id).isSome := by
    rw [thinner.wellFormed.linked.parent_iff.mpr (thinner.first.mem_children_start hChild)]
    rfl
  by_contra h
  have hInline := thinner.second.inline hStart (Option.not_isSome_iff_eq_none.mp h)
  rw [thinner.layout?_eq] at hInline
  simp [endsFlow, hInline] at hEnds

/-- With a node its parent has been kept. -/
theorem reaches_parent (h : after.Reaches .root id) (hParent : forest.parent? id = some parent) :
    after.Reaches .root parent := by
  have linked := thinner.second.wellFormed.linked
  refine linked.root_reaches_of_reaches (.of_mem_children (linked.parent_iff.mp ?_)) h
  rw [thinner.parent?_eq h, hParent]

/-- The node in front stays if it ends the flow, because only filler goes. -/
theorem previous?_eq (h : after.Reaches .root id)
    (hEnds : forest.endsFlow settings (forest.previous? id)) :
    after.previous? id = forest.previous? id := by
  cases hParent : forest.parent? id with
  | none =>
    rw [previous?_eq_none_of_parent? hParent,
      previous?_eq_none_of_parent? ((thinner.parent?_eq h).trans hParent)]
  | some parent =>
    refine thinner.first.wellFormed.linked.previous?_eq_of_filter thinner.second.wellFormed.linked
      hParent (thinner.children_eq (thinner.reaches_parent h hParent)) ?_ ?_
    · rw [thinner.parent?_eq h, hParent]
      rfl
    · intro before hChild hBefore
      rw [hBefore] at hEnds
      exact thinner.isSome_parent? hChild hEnds

/-- The node behind stays if it ends the flow, because only filler goes. -/
theorem next?_eq (h : after.Reaches .root id)
    (hEnds : forest.endsFlow settings (forest.next? id)) : after.next? id = forest.next? id := by
  cases hParent : forest.parent? id with
  | none =>
    rw [next?_eq_none_of_parent? hParent,
      next?_eq_none_of_parent? ((thinner.parent?_eq h).trans hParent)]
  | some parent =>
    refine thinner.first.wellFormed.linked.next?_eq_of_filter thinner.second.wellFormed.linked
      hParent (thinner.children_eq (thinner.reaches_parent h hParent)) ?_ ?_
    · rw [thinner.parent?_eq h, hParent]
      rfl
    · intro behind hChild hBehind
      rw [hBehind] at hEnds
      exact thinner.isSome_parent? hChild hEnds

/-- **No node is brought away from a block.** -/
theorem touchesBlock (h : after.Reaches .root id) (hTouches : forest.touchesBlock settings id) :
    after.touchesBlock settings id := by
  have hParent := thinner.parent?_eq h
  rw [Forest.touchesBlock, Bool.or_eq_true] at hTouches ⊢
  refine hTouches.imp (fun hEnds => ?_) fun hEnds => ?_
  · rw [neighbourBefore?] at hEnds ⊢
    rw [thinner.previous?_eq h (endsFlow_of_orElse hEnds), hParent, thinner.endsFlow_eq]
    exact hEnds
  · rw [neighbourAfter?] at hEnds ⊢
    rw [thinner.next?_eq h (endsFlow_of_orElse hEnds), hParent, thinner.endsFlow_eq]
    cases hBehind : forest.next? id with
    | some behind =>
      rw [hBehind] at hEnds
      exact hEnds
    | none =>
      -- nothing stands behind the node, so what stands behind its parent decides
      rw [hBehind] at hEnds
      cases hAbove : forest.parent? id with
      | none => rfl
      | some parent =>
        rw [hAbove] at hEnds
        have linked := thinner.second.wellFormed.linked
        have hReaches : after.Reaches .root parent := linked.root_reaches_of_reaches
          (.of_mem_children (linked.parent_iff.mp (hParent.trans hAbove))) h
        have hSame := thinner.next?_eq hReaches hEnds
        show forest.endsFlow settings (after.next? parent)
        rw [hSame]
        exact hEnds

end Thinner

/-- **What is settled holds out.** No number of steps takes away what is below the root of a forest
that has been thinned out from the same start until no filler below its root touches a block. -/
theorem reaches_of_thins (wellFormed : start.WellFormed) (thinned : Thinned settings start after)
    (hSettled : ∀ id, after.Reaches .root id → ¬ after.Removable settings id)
    (h : ReflTransGen (Thins settings) start forest) (hReaches : after.Reaches .root id) :
    forest.Reaches .root id := by
  induction h generalizing id with
  | refl => exact thinned.reaches_start hReaches
  | @tail before forest hBefore hStep ih =>
    have hThinned := wellFormed.thinned hBefore
    have thinner : Thinner settings start before after := ⟨wellFormed, hThinned, thinned, ih⟩
    cases hStep with
    | @folded text folded h =>
      have same : before.SameLinks
          (before.modify text fun node => { node with caption := folded }) :=
        sameLinks_modify fun _ _ => ⟨rfl, rfl⟩
      exact same.reaches_iff.mpr (ih hReaches)
    | @removed removed h =>
      -- if the filler were still there, it would touch a block there too
      have hGone : ¬ after.Reaches .root removed := by
        intro hThere
        refine hSettled removed hThere ⟨?_, thinner.touchesBlock hThere h.touchesBlock, ?_⟩
        · rw [thinner.parent?_eq hThere]
          exact h.isSome_parent?
        · rw [thinned.isFiller_iff wellFormed.linked hThere,
            ← hThinned.isFiller_iff wellFormed.linked (ih hThere)]
          exact h.isFiller
      induction hReaches with
      | refl => exact Reaches.refl _ _
      | @tail parent child hParent hChild ihParent =>
        have hThere := hParent.trans (Reaches.of_mem_children hChild)
        refine ihParent.trans (Reaches.of_mem_children ?_)
        rw [hThinned.wellFormed.linked.mem_children_cut]
        refine ⟨fun hSame => hGone (hSame ▸ hThere), ?_⟩
        rw [thinner.children_eq hParent] at hChild
        exact (List.mem_filter.mp hChild).1

end Forest

end WikiMarkup
