import WikiMarkup.Proofs.Forest.Rearrangement

/-!
# Edits that count what they do to links

A forest comes from another **tracked** if the revision has not gone back, and the links are the
same if it is (`Forest.Tracked`). To cut a link and to set one count up, so an edit that writes
links in no other way keeps track wherever it comes to its end (`Edit.KeepsTrack`), whatever forest
it starts from.

**Key results.** All operations on links count: `counts_append`, `counts_push`, `counts_replace` and
`counts_moveBeside`. Replacing takes the child out of its parent by writes that do not count, but
counts up before it goes on.
-/

namespace WikiMarkup

namespace Forest

variable {forest middle after : Forest}

/-- The revision has not gone back, and if it is the same so are the links. -/
structure Tracked (forest after : Forest) : Prop where
  /-- The revision has not gone back. -/
  revision_le : forest.revision ≤ after.revision
  /-- If it is the same, every node has the children that it had. -/
  children_eq : after.revision = forest.revision →
    ∀ id : NodeId, after.children id = forest.children id
  /-- If it is the same, every node has the parent that it had. -/
  parent?_eq : after.revision = forest.revision →
    ∀ id : NodeId, after.parent? id = forest.parent? id

theorem Tracked.refl (forest : Forest) : forest.Tracked forest :=
  ⟨Nat.le_refl _, fun _ _ => rfl, fun _ _ => rfl⟩

/-- A greater revision keeps track of any change. -/
theorem Tracked.of_lt (h : forest.revision < after.revision) : forest.Tracked after :=
  ⟨h.le, fun hSame => absurd hSame h.ne', fun hSame => absurd hSame h.ne'⟩

/-- Where links stay the same there is nothing to keep track of. -/
theorem SameLinks.tracked (same : forest.SameLinks after) : forest.Tracked after :=
  ⟨same.revision_eq.ge, fun _ => same.children_eq, fun _ => same.parent?_eq⟩

theorem tracked_add (forest : Forest) (new : Node) : forest.Tracked (forest.add new).2 :=
  ⟨Nat.le_refl _, fun _ => children_add forest new, fun _ => parent?_add forest new⟩

/-- If the revision is the same in the end it has been the same on the way. -/
theorem Tracked.trans (tracked : forest.Tracked middle) (hAfter : middle.Tracked after) :
    forest.Tracked after := by
  have hFirst := tracked.revision_le
  have hSecond := hAfter.revision_le
  refine ⟨hFirst.trans hSecond, fun hSame id => ?_, fun hSame id => ?_⟩
  · rw [hAfter.children_eq (by omega), tracked.children_eq (by omega)]
  · rw [hAfter.parent?_eq (by omega), tracked.parent?_eq (by omega)]

end Forest

/-! ### Edits -/

namespace Edit

open Forest (Tracked)

variable {α β : Type} {edit : Edit α} {next : α → Edit β} {R S T : Forest → Forest → Prop}

/-- Wherever an edit comes to its end, the forest that it leaves is related to the one before. -/
def Relates (R : Forest → Forest → Prop) (edit : Edit α) : Prop :=
  ∀ before result after, edit.run before = .ok result after → R before after

/-- Wherever an edit comes to its end, the revision has kept track of it. -/
abbrev KeepsTrack (edit : Edit α) : Prop := Relates Tracked edit

/-- Wherever an edit comes to its end, it has counted up the revision. -/
abbrev Counts (edit : Edit α) : Prop :=
  Relates (fun before after => before.revision < after.revision) edit

/-- Wherever an edit comes to its end, the revision has not gone back. -/
abbrev NeverGoesBack (edit : Edit α) : Prop :=
  Relates (fun before after => before.revision ≤ after.revision) edit

/-- What an edit relates is related by any weaker relation. -/
theorem Relates.mono (h : Relates R edit) (hRelated : ∀ {before after}, R before after →
    S before after) : Relates S edit :=
  fun before result after hRun => hRelated (h before result after hRun)

/-- Two edits in sequence relate what their relations compose to. -/
theorem Relates.bind (h : Relates R edit) (hNext : ∀ result, Relates S (next result))
    (hTrans : ∀ {before middle after}, R before middle → S middle after → T before after) :
    Relates T (edit >>= next) := by
  intro before result after hRun
  obtain ⟨found, middle, hFirst, hRest⟩ := run_bind_eq_ok_iff.mp hRun
  exact hTrans (h before found middle hFirst) (hNext found middle result after hRest)

theorem relates_throw (failure : Error) : Relates R (throw failure : Edit α) :=
  fun _ _ _ hRun => nomatch hRun

theorem relates_modify {change : Forest → Forest} (h : ∀ forest, R forest (change forest)) :
    Relates R (modify change : Edit PUnit) := by
  intro before result after hRun
  cases hRun
  exact h before

/-- A check changes nothing: it either fails or lets the rest go ahead. -/
theorem Relates.check {condition : Prop} [Decidable condition] {failure : Error}
    (h : Relates R edit) :
    Relates R (if condition then throw failure >>= fun _ : PUnit => edit else edit) := by
  split
  · exact fun _ _ _ hRun => nomatch hRun
  · exact h

theorem Counts.keepsTrack (counts : Counts edit) : KeepsTrack edit := counts.mono .of_lt

/-- Edits that keep track do so in sequence. -/
theorem KeepsTrack.bind (keeps : KeepsTrack edit) (hNext : ∀ result, KeepsTrack (next result)) :
    KeepsTrack (edit >>= next) := Relates.bind keeps hNext .trans

/-- An edit counts up if its last part does and what comes before keeps track. -/
theorem KeepsTrack.bind_counts (keeps : KeepsTrack edit) (hNext : ∀ result, Counts (next result)) :
    Counts (edit >>= next) :=
  Relates.bind keeps hNext fun tracked => tracked.revision_le.trans_lt

/-- An edit counts up if its first part does and what comes after keeps track. -/
theorem Counts.bind_keepsTrack (counts : Counts edit)
    (hNext : ∀ result, KeepsTrack (next result)) : Counts (edit >>= next) :=
  Relates.bind counts hNext fun hLt tracked => hLt.trans_le tracked.revision_le

theorem keepsTrack_pure (result : α) : KeepsTrack (pure result : Edit α) := by
  intro before result after hRun
  cases hRun
  exact .refl before

theorem KeepsTrack.when {edit : Edit Unit} {condition : Prop} [Decidable condition]
    (keeps : KeepsTrack edit) : KeepsTrack (if condition then edit else pure ()) := by
  split
  · exact keeps
  · exact keepsTrack_pure ()

theorem keepsTrack_get : KeepsTrack (get : Edit Forest) := by
  intro before result after hRun
  cases hRun
  exact .refl before

theorem keepsTrack_add (new : Node) : KeepsTrack (add new) := by
  intro before result after hRun
  cases hRun
  exact Forest.tracked_add before new

/-- Edits of several nodes keep track if each of them does. -/
theorem keepsTrack_forM {visit : NodeId → Edit Unit} (h : ∀ id, KeepsTrack (visit id))
    (ids : List NodeId) : KeepsTrack (ids.forM visit) := by
  induction ids with
  | nil => exact keepsTrack_pure ()
  | cons id ids ih => exact (h id).bind fun _ => ih

/-- To change what is on a node, and not its links, keeps track. -/
theorem keepsTrack_relabel (id : NodeId) {change : Node → Node}
    (h : ∀ node, (change node).children = node.children ∧ (change node).parent = node.parent) :
    KeepsTrack (modify (·.modify id change) : Edit PUnit) :=
  relates_modify fun _ => (Forest.sameLinks_modify fun node _ => h node).tracked

/-! ### Checks and steps -/

theorem keepsTrack_node (id : NodeId) : KeepsTrack (node id) := by
  refine keepsTrack_get.bind fun forest => ?_
  cases forest.get? id with
  | none => exact relates_throw _
  | some node => exact keepsTrack_pure node

theorem keepsTrack_checkAbove (id target : NodeId) (steps : Nat) (current : NodeId) :
    KeepsTrack (checkAbove id target steps current) := by
  induction steps generalizing current with
  | zero => exact relates_throw _
  | succ steps ih =>
    refine Relates.check ((keepsTrack_node current).bind fun node => ?_)
    cases node.parent with
    | none => exact keepsTrack_pure ()
    | some parent => exact ih parent

/-- Checks keep track, for they change nothing. -/
theorem keepsTrack_checkPlacement (id target : NodeId) : KeepsTrack (checkPlacement id target) :=
  Relates.check (keepsTrack_get.bind fun _ => keepsTrack_checkAbove _ _ _ _)

theorem keepsTrack_checkReplacements (target : NodeId) (before ids : List NodeId) :
    KeepsTrack (checkReplacements target before ids) := by
  induction ids generalizing before with
  | nil => exact keepsTrack_pure ()
  | cons id ids ih =>
    exact (keepsTrack_node id).bind fun _ => (keepsTrack_checkPlacement id target).bind fun _ =>
      Relates.check (ih _)

/-- To cut a link counts. -/
theorem counts_unlink (parent : NodeId) (position : Nat) (id : NodeId) :
    Counts (modify (·.unlink parent position id) : Edit PUnit) :=
  relates_modify fun forest => Nat.lt_succ_self forest.revision

/-- To set a link counts. -/
theorem counts_link (parent : NodeId) (position : Nat) (id : NodeId) :
    Counts (modify (·.link parent position id) : Edit PUnit) :=
  relates_modify fun forest => Nat.lt_succ_self forest.revision

/-- To detach a node keeps track, for it counts up if there is a parent. -/
theorem keepsTrack_detach (id : NodeId) : KeepsTrack (detach id) := by
  refine (keepsTrack_node id).bind fun node => ?_
  cases node.parent with
  | none => exact keepsTrack_pure none
  | some parent =>
    refine keepsTrack_get.bind fun forest => ?_
    cases forest.position? parent id with
    | none => exact relates_throw _
    | some position =>
      exact (counts_unlink parent position id).keepsTrack.bind fun _ => keepsTrack_pure _

/-- To place nodes keeps track. -/
theorem keepsTrack_placeAt (target : NodeId) (point : Nat) (ids : List NodeId) :
    KeepsTrack (placeAt target point ids) := by
  induction ids generalizing point with
  | nil => exact keepsTrack_pure ()
  | cons id ids ih =>
    exact (keepsTrack_detach id).bind fun from? =>
      (counts_link target _ id).keepsTrack.bind fun _ => ih _

/-! ### Operations -/

/-- To append counts up. -/
theorem counts_append (parent child : NodeId) : Counts (append parent child) :=
  (keepsTrack_node child).bind_counts fun _ =>
    (keepsTrack_checkPlacement child parent).bind_counts fun _ =>
      (keepsTrack_detach child).bind_counts fun _ =>
        (keepsTrack_node parent).bind_counts fun _ => counts_link _ _ _

/-- To push counts up. -/
theorem counts_push (parent : NodeId) (new : Node) : Counts (push parent new) :=
  (keepsTrack_node parent).bind_counts fun _ => (keepsTrack_add new).bind_counts fun id =>
    (counts_append parent id).bind_keepsTrack fun _ => keepsTrack_pure id

/-- The child is taken out by two writes that do not count, and then the revision is counted up. -/
theorem counts_replace (parent child : NodeId) (replacements : List NodeId) :
    Counts (replace parent child replacements) := by
  refine keepsTrack_get.bind_counts fun forest => ?_
  cases forest.position? parent child with
  | none => exact relates_throw _
  | some position =>
    refine (keepsTrack_checkReplacements parent [] replacements).bind_counts fun _ => ?_
    have hErase : NeverGoesBack (modify (·.modify parent fun node =>
        { node with children := node.children.eraseIdx position }) : Edit PUnit) :=
      relates_modify fun _ => Nat.le_refl _
    have hClear : NeverGoesBack (modifyNode child fun node => { node with parent := none }) :=
      Relates.bind (keepsTrack_node child) (fun _ => relates_modify fun _ => Nat.le_refl _)
        fun tracked => tracked.revision_le.trans
    have hTouch : Counts (modify (·.touch) >>= fun _ : PUnit =>
        placeAt parent position replacements) :=
      Counts.bind_keepsTrack (relates_modify fun forest => Nat.lt_succ_self forest.revision)
        fun _ => keepsTrack_placeAt parent position replacements
    exact hErase.bind (fun _ => hClear.bind (fun _ => hTouch) Nat.lt_of_le_of_lt) Nat.lt_of_le_of_lt

/-- To move counts up. -/
theorem counts_moveBeside (id target : NodeId) (before : Bool) :
    Counts (moveBeside id target before) := by
  refine (keepsTrack_node id).bind_counts fun _ =>
    (keepsTrack_node target).bind_counts fun node => ?_
  cases node.parent with
  | none => exact relates_throw _
  | some parent =>
    refine Relates.check <| (keepsTrack_checkPlacement id parent).bind_counts fun _ =>
      (keepsTrack_detach id).bind_counts fun _ => keepsTrack_get.bind_counts fun forest => ?_
    cases forest.position? parent target with
    | none => exact relates_throw _
    | some position => exact counts_link _ _ _

end Edit

end WikiMarkup
