import WikiMarkup.Proofs.Forest.Linking
import WikiMarkup.Proofs.Generic.Restyling

/-!
# Resolving styles regroups siblings

The walk that resolves styles does what a scan of the children of each node says, although it moves
nodes about under its own feet. It goes over the children that a node had after its visit, while
some of them leave for a list further to the front, and the lists grow after the walk has left them.

* **A loop** over the children of a holder keeps an invariant (`Scanning`). Nothing below the
  children to come has been touched; the holder has left what the scan of those that are done has
  kept; looking back from the next child finds the list that the scan has open; and those that are
  done are settled, with the entries filed so far. `Scanning.step` adds one child.
* **A walk** from a node (`Regroups`) is a visit and a loop. Outside what is below the node it
  changes no more than the list that the node is filed in and the parent that the node has left.

**Key result.** `resolveStyles_regroups`: on a well-formed forest resolving styles comes to its end,
and the forest is then regrouped.
-/

namespace WikiMarkup

namespace Forest

variable {forest middle after : Forest} {id other child parent holder list entry : NodeId}
  {label : Node}

/-! ### What resolving settles -/

/-- Only the nodes below matter for what becomes of a node. -/
theorem Resettled.congr {isOpen : Bool} {entries : List NodeId}
    (resettled : middle.Resettled after isOpen entries id)
    (hMem : ∀ {other}, other ∈ forest → other ∈ middle)
    (hLabel : middle.label? id = forest.label? id)
    (hChildren : middle.children id = forest.children id)
    (hBelow : ∀ child ∈ forest.children id, middle.label? child = forest.label? child) :
    forest.Resettled after isOpen entries id := by
  have hScan : middle.scan (middle.children id) = forest.scan (forest.children id) := by
    rw [hChildren]
    exact scan_congr hBelow (List.Subset.refl _)
  refine ⟨by rw [resettled.label?_eq, hLabel], fun label h hWhole => ?_,
    fun label kind h hKind => ?_⟩
  · rw [resettled.children_eq label (hLabel.trans h) hWhole, hScan]
  · obtain ⟨wrapper, hNew, hRest⟩ := resettled.wrapped label kind (hLabel.trans h) hKind
    rw [hScan] at hRest
    exact ⟨wrapper, fun h => hNew (hMem h), hRest⟩

/-- What a walk from a node does, the visit of the node included. -/
structure Regroups (forest after : Forest) (id : NodeId) : Prop where
  /-- The forest stays well-formed. -/
  wellFormed : after.WellFormed
  /-- No node goes from the table. -/
  mem : ∀ {other : NodeId}, other ∈ forest → other ∈ after
  /-- What is not below the node keeps its label. -/
  label?_eq : ∀ {other : NodeId}, other ∈ forest → ¬ forest.Reaches id other →
    after.label? other = forest.label? other
  /-- It keeps its children, but for the node if it is filed. -/
  children_eq : ∀ {other : NodeId}, other ∈ forest → ¬ forest.Reaches id other →
    after.children other = refiled (forest.filing? id) id other (forest.children other)
  /-- The node is settled. -/
  self : forest.Resettled after (forest.openList? id).isSome [] id
  /-- So is what is below it. -/
  below : ∀ parent front child back, forest.Reaches id parent →
    forest.children parent = front ++ child :: back →
    forest.Resettled after (forest.scan front).openList.isSome
      ((forest.scan (forest.children parent)).entries child) child

/-- Where a walk stands that has come to some of the children of a holder, and has not come to
others. -/
structure Scanning (forest after : Forest) (holder : NodeId) (done todo : List NodeId) : Prop where
  /-- The forest stays well-formed. -/
  wellFormed : after.WellFormed
  /-- No node goes from the table. -/
  mem : ∀ {other : NodeId}, other ∈ forest → other ∈ after
  /-- What is not below a child that is done keeps its label. -/
  label?_eq : ∀ {other : NodeId}, other ∈ forest → (∀ id ∈ done, ¬ forest.Reaches id other) →
    after.label? other = forest.label? other
  /-- It keeps its children, unless it is the holder. -/
  children_eq : ∀ {other : NodeId}, other ∈ forest → other ≠ holder →
    (∀ id ∈ done, ¬ forest.Reaches id other) → after.children other = forest.children other
  /-- The holder has lost what has been filed. -/
  children_holder : after.children holder = (forest.scan done).kept ++ todo
  /-- Looking back finds the list that is open. -/
  openAfter_eq : after.openAfter (forest.scan done).kept = (forest.scan done).openList
  /-- What is done is settled, as far as anything has been filed in it. -/
  settled : ∀ front id back, done = front ++ id :: back →
    forest.Resettled after (forest.scan front).openList.isSome ((forest.scan done).entries id) id
  /-- So is what is below it. -/
  below : ∀ id ∈ done, ∀ parent front child back, forest.Reaches id parent →
    forest.children parent = front ++ child :: back →
    forest.Resettled after (forest.scan front).openList.isSome
      ((forest.scan (forest.children parent)).entries child) child

theorem Scanning.init (wellFormed : forest.WellFormed) (holder : NodeId) :
    forest.Scanning forest holder [] (forest.children holder) where
  wellFormed := wellFormed
  mem h := h
  label?_eq _ _ := rfl
  children_eq _ _ _ := rfl
  children_holder := rfl
  openAfter_eq := rfl
  settled front id back h := absurd h (by simp)
  below id h := absurd h List.not_mem_nil

namespace Scanning

variable {last : Forest} {done todo : List NodeId}
  (scanning : forest.Scanning after holder done (id :: todo))

include scanning

theorem openList?_eq : after.openList? id = (forest.scan done).openList := by
  rw [scanning.wellFormed.linked.openList?_eq scanning.children_holder, scanning.openAfter_eq]

variable (wellFormed : forest.WellFormed) (hChildren : forest.children holder = done ++ id :: todo)

include wellFormed hChildren

omit scanning in
/-- What is below a child that is done is not below the next one. -/
theorem not_reaches {before : NodeId} (hBefore : before ∈ done)
    (hReaches : forest.Reaches before other) : ¬ forest.Reaches id other := by
  intro hBelow
  have linked := wellFormed.linked
  have hId : id ∈ forest.children holder := by simp [hChildren]
  have hChild : before ∈ forest.children holder := by simp [hChildren, hBefore]
  have hNe : before ≠ id := by
    rintro rfl
    exact linked.notMem_of_children hChildren (List.mem_append_left _ hBefore)
  rcases linked.reaches_total hReaches hBelow with h | h
  · exact hNe (wellFormed.eq_of_reaches_of_mem_children hChild hId h)
  · exact hNe (wellFormed.eq_of_reaches_of_mem_children hId hChild h).symm

omit scanning in
theorem id_mem : id ∈ forest :=
  wellFormed.linked.mem_children_right (show id ∈ forest.children holder by simp [hChildren])

/-- What is below the next child has not been touched. -/
theorem unchanged (hBelow : forest.Reaches id other) :
    after.label? other = forest.label? other ∧ after.children other = forest.children other := by
  have hMem := wellFormed.linked.mem_of_reaches (id_mem wellFormed hChildren) hBelow
  have hFresh : ∀ before ∈ done, ¬ forest.Reaches before other := fun before hBefore hReaches =>
    not_reaches wellFormed hChildren hBefore hReaches hBelow
  refine ⟨scanning.label?_eq hMem hFresh, scanning.children_eq hMem ?_ hFresh⟩
  rintro rfl
  exact wellFormed.not_reaches_of_mem_children (by simp [hChildren]) hBelow

theorem reaches_iff : after.Reaches id other ↔ forest.Reaches id other :=
  reaches_congr fun _ h => (scanning.unchanged wellFormed hChildren h).2

theorem label?_next : after.label? id = forest.label? id :=
  (scanning.unchanged wellFormed hChildren (Reaches.refl forest id)).1

theorem filing?_eq : after.filing? id = (forest.scan done).filing? (forest.role id) := by
  rw [filing?, role_congr (scanning.label?_next wellFormed hChildren), scanning.openList?_eq]
  cases forest.role id <;> rfl

theorem mem_done_of_filing? (h : after.filing? id = some list) : list ∈ done :=
  mem_of_filing? (scanning.filing?_eq wellFormed hChildren ▸ h)

/-- What becomes of nodes below the next child is told by the forest before the walk. -/
theorem congr {isOpen : Bool} {entries : List NodeId}
    (resettled : after.Resettled last isOpen entries other) (hBelow : forest.Reaches id other) :
    forest.Resettled last isOpen entries other := by
  obtain ⟨hLabel, hSame⟩ := scanning.unchanged wellFormed hChildren hBelow
  exact resettled.congr scanning.mem hLabel hSame fun child hChild =>
    (scanning.unchanged wellFormed hChildren
      (hBelow.trans (Reaches.of_mem_children hChild))).1

variable (regroups : after.Regroups last id)

include regroups

/-- Outside the next child only the list that it is filed in changes, and the holder. -/
theorem children_outside (hMem : other ∈ after) (hOther : other ≠ holder)
    (hOutside : ¬ forest.Reaches id other) : last.children other =
      after.children other ++ if after.filing? id = some other then [id] else [] := by
  rw [regroups.children_eq hMem (mt (scanning.reaches_iff wellFormed hChildren).mp hOutside)]
  split
  next hFiling => rw [hFiling, refiled, if_pos rfl]
  next hFiling =>
    rw [List.append_nil, refiled_eq_self hFiling]
    intro hId
    have hHolder : id ∈ after.children holder := by simp [scanning.children_holder]
    exact hOther (scanning.wellFormed.linked.eq_of_mem_children hId hHolder)

/-- What has been settled outside the next child stays so, with one more entry if the child is filed
there. -/
theorem extend {isOpen : Bool} {entries : List NodeId}
    (resettled : forest.Resettled after isOpen entries other) (hMem : other ∈ forest)
    (hOther : other ≠ holder) (hOutside : ¬ forest.Reaches id other) :
    forest.Resettled last isOpen
      (entries ++ if after.filing? id = some other then [id] else []) other := by
  have linked := wellFormed.linked
  have hKept : last.children other = _ :=
    scanning.children_outside wellFormed hChildren regroups (scanning.mem hMem) hOther hOutside
  refine ⟨?_, fun label h hWhole => ?_, fun label kind h hKind => ?_⟩
  · rw [regroups.label?_eq (scanning.mem hMem)
      (mt (scanning.reaches_iff wellFormed hChildren).mp hOutside), resettled.label?_eq]
  · rw [hKept, resettled.children_eq label h hWhole, List.append_assoc]
  · obtain ⟨wrapper, hNew, hWrapper, hBelow, hAbove⟩ := resettled.wrapped label kind h hKind
    have hWrapperMem := mem_of_label? hWrapper
    have hWrapperOutside : ¬ forest.Reaches id wrapper := fun h =>
      hNew (linked.mem_of_reaches (id_mem wellFormed hChildren) h)
    have hWrapperNe : wrapper ≠ holder := by
      rintro rfl
      exact hNew (mem_of_mem_children (show id ∈ forest.children wrapper by simp [hChildren]))
    have hFiling : after.filing? id ≠ some wrapper := fun h => hNew <|
      linked.mem_children_right (show wrapper ∈ forest.children holder by
        simp [hChildren, scanning.mem_done_of_filing? wellFormed hChildren h])
    refine ⟨wrapper, hNew, ?_, ?_, by rw [hKept, hAbove, List.cons_append]⟩
    · rw [regroups.label?_eq hWrapperMem
        (mt (scanning.reaches_iff wellFormed hChildren).mp hWrapperOutside), hWrapper]
    · rw [scanning.children_outside wellFormed hChildren regroups hWrapperMem hWrapperNe
        hWrapperOutside, if_neg hFiling, List.append_nil, hBelow]

theorem children_holder_step :
    last.children holder = (forest.scan (done ++ [id])).kept ++ todo := by
  have linked := wellFormed.linked
  have hId : id ∈ after.children holder := by simp [scanning.children_holder]
  have hOutside := scanning.wellFormed.not_reaches_of_mem_children hId
  rw [regroups.children_eq (mem_of_mem_children hId) hOutside, scanning.children_holder,
    scan_concat, Scan.kept_step, ← scanning.filing?_eq wellFormed hChildren]
  cases hFiling : after.filing? id with
  | none => simp [refiled]
  | some list =>
    have hList : holder ≠ list := by
      rintro rfl
      have hChild : holder ∈ forest.children holder := by
        simp [hChildren, scanning.mem_done_of_filing? wellFormed hChildren hFiling]
      exact wellFormed.not_reaches_of_mem_children hChild (Reaches.refl forest holder)
    have hKept : id ∉ (forest.scan done).kept := fun h =>
      linked.notMem_of_children hChildren (List.mem_append_left _ (mem_of_mem_kept h))
    rw [refiled, if_neg hList, List.erase_append_right _ hKept, List.erase_cons_head]
    rfl

theorem openAfter_step : last.openAfter (forest.scan (done ++ [id])).kept =
    (forest.scan (done ++ [id])).openList := by
  have hNext := scanning.label?_next wellFormed hChildren
  have hKept : last.openAfter (forest.scan done).kept = (forest.scan done).openList := by
    rw [← scanning.openAfter_eq]
    refine openAfter_congr fun before hBefore => role_congr (regroups.label?_eq ?_ ?_)
    · refine scanning.mem (wellFormed.linked.mem_children_right
        (show before ∈ forest.children holder from ?_))
      simp [hChildren, mem_of_mem_kept hBefore]
    · rw [scanning.reaches_iff wellFormed hChildren]
      exact not_reaches wellFormed hChildren (mem_of_mem_kept hBefore) (Reaches.refl forest before)
  obtain ⟨label, hLabel⟩ := exists_label?_of_mem (id_mem wellFormed hChildren)
  have hRole : last.role id =
      (forest.role id).settled (forest.scan done).openList.isSome := by
    have hRestyled := regroups.self.label?_eq
    rw [hNext, hLabel, Option.map_some, scanning.openList?_eq] at hRestyled
    rw [role_of_label? hRestyled, role_of_label? hLabel]
    exact Node.role_restyled
  rw [scan_concat, Scan.kept_step, Scan.openList_step]
  cases hFormer : forest.role id <;> cases hOpen : (forest.scan done).openList <;>
    simp [Scan.filing?, hOpen, hKept, openAfter_concat, hRole, hFormer, Role.settled]

theorem settled_step {front back : List NodeId} (hDone : done ++ [id] = front ++ child :: back) :
    forest.Resettled last (forest.scan front).openList.isSome
      ((forest.scan (done ++ [id])).entries child) child := by
  have linked := wellFormed.linked
  rw [scan_concat, Scan.entries_step, ← scanning.filing?_eq wellFormed hChildren]
  rcases List.eq_nil_or_concat back with rfl | ⟨back, latest, rfl⟩
  · obtain ⟨rfl, hSame⟩ := List.append_inj' hDone rfl
    obtain rfl := List.singleton_inj.mp hSame
    have hNot : id ∉ done := fun h =>
      linked.notMem_of_children hChildren (List.mem_append_left _ h)
    rw [entries_eq_nil hNot, if_neg fun h =>
      hNot (scanning.mem_done_of_filing? wellFormed hChildren h), List.append_nil,
      ← scanning.openList?_eq]
    exact scanning.congr wellFormed hChildren regroups.self (Reaches.refl forest id)
  · rw [List.concat_eq_append, ← List.cons_append, ← List.append_assoc] at hDone
    obtain ⟨hSplit, -⟩ := List.append_inj' hDone rfl
    have hBefore : child ∈ done := by simp [hSplit]
    have hChild : child ∈ forest.children holder := by simp [hChildren, hBefore]
    refine scanning.extend wellFormed hChildren regroups (scanning.settled front child back hSplit)
      (linked.mem_children_right hChild) ?_
      (not_reaches wellFormed hChildren hBefore (Reaches.refl forest child))
    rintro rfl
    exact wellFormed.not_reaches_of_mem_children hChild (Reaches.refl forest child)

theorem below_step {before parent : NodeId} {front back : List NodeId}
    (hBefore : before ∈ done ++ [id]) (hParent : forest.Reaches before parent)
    (hSplit : forest.children parent = front ++ child :: back) :
    forest.Resettled last (forest.scan front).openList.isSome
      ((forest.scan (forest.children parent)).entries child) child := by
  have linked := wellFormed.linked
  have hChild : child ∈ forest.children parent := by simp [hSplit]
  have hBelow := hParent.trans (Reaches.of_mem_children hChild)
  rcases List.mem_append.mp hBefore with hBefore | hBefore
  · have hOutside := not_reaches wellFormed hChildren hBefore hBelow
    have hListed : before ∈ forest.children holder := by simp [hChildren, hBefore]
    have hHolder := wellFormed.not_reaches_of_mem_children hListed
    have hFiling : after.filing? id ≠ some child := fun h => by
      have hSibling : child ∈ forest.children holder := by
        simp [hChildren, scanning.mem_done_of_filing? wellFormed hChildren h]
      exact hHolder (linked.eq_of_mem_children hSibling hChild ▸ hParent)
    have hSettled := scanning.extend wellFormed hChildren regroups
      (scanning.below before hBefore parent front child back hParent hSplit)
      (linked.mem_children_right hChild) (fun h => hHolder (h ▸ hBelow)) hOutside
    rwa [if_neg hFiling, List.append_nil] at hSettled
  · obtain rfl := List.mem_singleton.mp hBefore
    have hSame := (scanning.unchanged wellFormed hChildren hParent).2
    have hLabels : ∀ other ∈ forest.children parent, after.label? other = forest.label? other :=
      fun _ h => (scanning.unchanged wellFormed hChildren
        (hParent.trans (Reaches.of_mem_children h))).1
    have hSettled := regroups.below parent front child back
      ((scanning.reaches_iff wellFormed hChildren).mpr hParent) (hSame.trans hSplit)
    rw [hSame, scan_congr hLabels (List.Subset.refl _), scan_congr hLabels (by simp [hSplit])]
      at hSettled
    exact scanning.congr wellFormed hChildren hSettled hBelow

/-- **A step of the walk** is a step of the scan. -/
theorem step : forest.Scanning last holder (done ++ [id]) todo := by
  have hOld : ∀ {other}, (∀ before ∈ done ++ [id], ¬ forest.Reaches before other) →
      (∀ before ∈ done, ¬ forest.Reaches before other) ∧ ¬ forest.Reaches id other :=
    fun h => ⟨fun before hBefore => h before (List.mem_append_left _ hBefore), h id (by simp)⟩
  refine ⟨regroups.wellFormed, fun h => regroups.mem (scanning.mem h), ?_, ?_,
    scanning.children_holder_step wellFormed hChildren regroups,
    scanning.openAfter_step wellFormed hChildren regroups,
    fun _ _ _ => scanning.settled_step wellFormed hChildren regroups,
    fun _ hBefore _ _ _ _ => scanning.below_step wellFormed hChildren regroups hBefore⟩
  · intro other hMem h
    obtain ⟨hDone, hId⟩ := hOld h
    rw [regroups.label?_eq (scanning.mem hMem)
      (mt (scanning.reaches_iff wellFormed hChildren).mp hId), scanning.label?_eq hMem hDone]
  · intro other hMem hOther h
    obtain ⟨hDone, hId⟩ := hOld h
    rw [scanning.children_outside wellFormed hChildren regroups (scanning.mem hMem) hOther hId,
      if_neg, List.append_nil, scanning.children_eq hMem hOther hDone]
    intro hFiling
    exact hDone other (scanning.mem_done_of_filing? wellFormed hChildren hFiling)
      (Reaches.refl forest other)

end Scanning

/-! ### Walks -/

/-- What has come of what is below a holder when the walk has come to all its children. -/
structure Scanned (forest after : Forest) (holder : NodeId) : Prop where
  /-- The forest stays well-formed. -/
  wellFormed : after.WellFormed
  /-- No node goes from the table. -/
  mem : ∀ {other : NodeId}, other ∈ forest → other ∈ after
  /-- What is not below a child keeps its label. -/
  label?_eq : ∀ {other : NodeId}, other ∈ forest →
    (∀ child ∈ forest.children holder, ¬ forest.Reaches child other) →
    after.label? other = forest.label? other
  /-- It keeps its children, unless it is the holder. -/
  children_eq : ∀ {other : NodeId}, other ∈ forest → other ≠ holder →
    (∀ child ∈ forest.children holder, ¬ forest.Reaches child other) →
    after.children other = forest.children other
  /-- The holder has the children that stay in place. -/
  children_holder : after.children holder = (forest.scan (forest.children holder)).kept
  /-- What is below the holder is settled. -/
  below : ∀ parent front child back, forest.Reaches holder parent →
    forest.children parent = front ++ child :: back →
    forest.Resettled after (forest.scan front).openList.isSome
      ((forest.scan (forest.children parent)).entries child) child

theorem Scanning.scanned (scanning : forest.Scanning after holder (forest.children holder) []) :
    forest.Scanned after holder where
  wellFormed := scanning.wellFormed
  mem := scanning.mem
  label?_eq := scanning.label?_eq
  children_eq := scanning.children_eq
  children_holder := by rw [scanning.children_holder, List.append_nil]
  below parent front child back hParent hSplit := by
    rcases reaches_iff_child.mp hParent with rfl | ⟨id, hId, hParent⟩
    · exact scanning.settled front child back hSplit
    · exact scanning.below id hId parent front child back hParent hSplit

/-- A walk from a node that is not to be restyled does no more than to go over its children. -/
theorem Regroups.scanned (regroups : forest.Regroups after id)
    (hLabel : forest.label? id = some label) (hResolved : label.StyleResolved) :
    forest.Scanned after id := by
  obtain ⟨hWhole, hTerm, hDescription⟩ := hResolved.restyled_eq (forest.openList? id).isSome
  rw [← role_of_label? hLabel] at hTerm hDescription
  have hOutside : ∀ {other}, other ≠ id →
      (∀ child ∈ forest.children id, ¬ forest.Reaches child other) →
      ¬ forest.Reaches id other := fun hOther h hReaches => by
    obtain ⟨child, hChild, hReaches⟩ :=
      (reaches_iff_child.mp hReaches).resolve_left (Ne.symm hOther)
    exact h child hChild hReaches
  refine ⟨regroups.wellFormed, regroups.mem, ?_, ?_, ?_, regroups.below⟩
  · intro other hMem h
    by_cases hOther : other = id
    · rw [hOther, regroups.self.label?_eq, hLabel, Option.map_some, hWhole]
    · exact regroups.label?_eq hMem (hOutside hOther h)
  · intro other hMem hOther h
    rw [regroups.children_eq hMem (hOutside hOther h), filing?_eq_none hTerm hDescription, refiled]
  · rw [regroups.self.children_eq label hLabel (by rw [hWhole]), List.append_nil]

namespace Visited

variable (visited : forest.Visited middle id holder) (wellFormed : forest.WellFormed)

include visited wellFormed

/-- A visit does not touch what is below its node. -/
theorem unchanged (hChild : child ∈ forest.children id) (hBelow : forest.Reaches child other) :
    middle.label? other = forest.label? other ∧ middle.children other = forest.children other := by
  have linked := wellFormed.linked
  have hMem := linked.mem_of_reaches (linked.mem_children_right hChild) hBelow
  have hOther : other ≠ id := by
    rintro rfl
    exact wellFormed.not_reaches_of_mem_children hChild hBelow
  have hReaches := (Reaches.of_mem_children hChild).trans hBelow
  refine ⟨visited.label?_of_ne hMem hOther, ?_⟩
  rw [visited.children_of_ne hMem hOther, refiled_eq_self]
  · intro hFiling
    have hEarlier := linked.earlier_of_openList? (openList?_of_filing? hFiling)
    exact (hEarlier.placeable wellFormed).not_reaches hReaches
  · exact fun h => wellFormed.not_reaches_of_mem_children h hReaches

theorem reaches_iff (hChild : child ∈ forest.children id) :
    middle.Reaches child other ↔ forest.Reaches child other :=
  reaches_congr fun _ h => (visited.unchanged wellFormed hChild h).2

/-- What is below the node is settled when what is below the holder is. -/
theorem below (scanned : middle.Scanned after holder) {front back : List NodeId}
    (hParent : forest.Reaches id parent)
    (hSplit : forest.children parent = front ++ child :: back) :
    forest.Resettled after (forest.scan front).openList.isSome
      ((forest.scan (forest.children parent)).entries child) child := by
  have hBelow : ∀ {other}, other ∈ forest.children parent →
      ∃ top ∈ forest.children id, forest.Reaches top other := fun hOther => by
    rcases reaches_iff_child.mp hParent with rfl | ⟨top, hTop, hParent⟩
    · exact ⟨_, hOther, Reaches.refl forest _⟩
    · exact ⟨top, hTop, hParent.trans (Reaches.of_mem_children hOther)⟩
  -- the holder stands for the node
  obtain ⟨above, hAbove, hSame⟩ : ∃ above, middle.Reaches holder above ∧
      middle.children above = forest.children parent := by
    rcases reaches_iff_child.mp hParent with rfl | ⟨top, hTop, hParent⟩
    · exact ⟨holder, Reaches.refl middle holder, visited.children_holder⟩
    · have hHeld : top ∈ middle.children holder := visited.children_holder ▸ hTop
      exact ⟨parent, (Reaches.of_mem_children hHeld).trans
        ((visited.reaches_iff wellFormed hTop).mpr hParent),
        (visited.unchanged wellFormed hTop hParent).2⟩
  have hLabels : ∀ other ∈ forest.children parent, middle.label? other = forest.label? other :=
    fun other h => by
      obtain ⟨top, hTop, hReaches⟩ := hBelow h
      exact (visited.unchanged wellFormed hTop hReaches).1
  have hSettled := scanned.below above front child back hAbove (hSame.trans hSplit)
  rw [hSame, scan_congr hLabels (List.Subset.refl _), scan_congr hLabels (by simp [hSplit])]
    at hSettled
  obtain ⟨top, hTop, hReaches⟩ := hBelow (show child ∈ forest.children parent by simp [hSplit])
  obtain ⟨hLabel, hChildren⟩ := visited.unchanged wellFormed hTop hReaches
  exact hSettled.congr visited.mem hLabel hChildren fun other hOther =>
    (visited.unchanged wellFormed hTop (hReaches.trans (Reaches.of_mem_children hOther))).1

/-- **A walk** from a node is a visit, and then a scan of its children. -/
theorem regroups (scanned : middle.Scanned after holder) (hId : id ∈ forest) :
    forest.Regroups after id := by
  obtain ⟨label, hLabel⟩ := exists_label?_of_mem hId
  have hOutside : ∀ {other}, ¬ forest.Reaches id other →
      ∀ child ∈ middle.children holder, ¬ middle.Reaches child other := by
    intro other h child hChild
    rw [visited.children_holder] at hChild
    rw [visited.reaches_iff wellFormed hChild]
    exact fun hReaches => h ((Reaches.of_mem_children hChild).trans hReaches)
  have hSelf : ∀ child ∈ middle.children holder, ¬ middle.Reaches child id := by
    intro child hChild
    rw [visited.children_holder] at hChild
    rw [visited.reaches_iff wellFormed hChild]
    exact wellFormed.not_reaches_of_mem_children hChild
  have hNe : ∀ {other}, ¬ forest.Reaches id other → other ≠ id := by
    rintro other h rfl
    exact h (Reaches.refl forest other)
  have hLabels : ∀ child ∈ forest.children id, middle.label? child = forest.label? child :=
    fun child h => (visited.unchanged wellFormed h (Reaches.refl forest child)).1
  have hKept : after.children holder = (forest.scan (forest.children id)).kept := by
    rw [scanned.children_holder, visited.children_holder, scan_congr hLabels (List.Subset.refl _)]
  refine ⟨scanned.wellFormed, fun h => scanned.mem (visited.mem h), ?_, ?_, ⟨?_, ?_, ?_⟩, ?_⟩
  · intro other hMem h
    rw [scanned.label?_eq (visited.mem hMem) (hOutside h), visited.label?_of_ne hMem (hNe h)]
  · intro other hMem h
    have hHolder : other ≠ holder := by
      rcases visited.holder_cases label hLabel with ⟨rfl, -⟩ | ⟨hNew, -⟩
      · exact hNe h
      · exact fun h => hNew (h ▸ hMem)
    rw [scanned.children_eq (visited.mem hMem) hHolder (hOutside h),
      visited.children_of_ne hMem (hNe h)]
  · rw [scanned.label?_eq (visited.mem hId) hSelf, visited.label?_self]
  · intro found hFound hWhole
    rcases visited.holder_cases found hFound with ⟨rfl, -⟩ | ⟨-, -, kind, hKind, -⟩
    · rw [hKept, List.append_nil]
    · exact nomatch hKind.symm.trans hWhole
  · intro found kind hFound hKind
    rcases visited.holder_cases found hFound with ⟨-, hWhole⟩ | ⟨hNew, hChildren, inner, hInner, h⟩
    · exact nomatch hKind.symm.trans hWhole
    · obtain rfl := Option.some_inj.mp (hKind.symm.trans hInner)
      have hHolder : id ≠ holder := by
        rintro rfl
        exact hNew hId
      refine ⟨holder, hNew, ?_, hKept, ?_⟩
      · rw [scanned.label?_eq (mem_of_label? h)
          (fun child => visited.wellFormed.not_reaches_of_mem_children), h]
      · rw [scanned.children_eq (visited.mem hId) hHolder hSelf, hChildren]
  · exact fun _ _ _ _ => visited.below wellFormed scanned

end Visited

end Forest

namespace Pass

open Forest (Regroups Scanning Regrouped)

/-- A loop over the children of a holder scans them if each walk from a child regroups. -/
theorem scanning_of_forM {walkChild : NodeId → Pass Unit} {forest : Forest} {holder : NodeId}
    (hWalk : ∀ {draft last : Draft} {id : NodeId}, draft.forest.WellFormed → id ∈ draft.forest →
      (walkChild id).run draft = .ok () last → draft.forest.Regroups last.forest id)
    (wellFormed : forest.WellFormed) {done todo : List NodeId} {draft last : Draft}
    (hChildren : forest.children holder = done ++ todo)
    (scanning : forest.Scanning draft.forest holder done todo)
    (hRun : (todo.forM walkChild).run draft = .ok () last) :
    forest.Scanning last.forest holder (forest.children holder) [] := by
  induction todo generalizing done draft with
  | nil =>
    cases hRun
    rw [hChildren, List.append_nil]
    exact scanning
  | cons id todo ih =>
    obtain ⟨_, middle, hFirst, hRest⟩ := run_bind_eq_ok_iff.mp hRun
    have hId := scanning.mem (Scanning.id_mem wellFormed hChildren)
    have regroups := hWalk scanning.wellFormed hId hFirst
    refine ih ?_ (scanning.step wellFormed hChildren regroups) hRest
    rw [hChildren, List.append_assoc, List.singleton_append]

/-- A walk from a node regroups. -/
theorem regroups_of_walkFrom {depth : Nat} {draft last : Draft} {id : NodeId}
    (wellFormed : draft.forest.WellFormed) (hId : id ∈ draft.forest)
    (hRun : (walkFrom Draft.forest resolveStyle depth id).run draft = .ok () last) :
    draft.forest.Regroups last.forest id := by
  induction depth generalizing draft last id with
  | zero => cases hRun
  | succ depth ih =>
    obtain ⟨_, visited, hVisit, hRun⟩ := run_bind_eq_ok_iff.mp hRun
    obtain ⟨_, _, hRead, hLoop⟩ := run_bind_eq_ok_iff.mp hRun
    cases hRead
    obtain ⟨holder, h⟩ := resolveStyle_visited wellFormed hId hVisit
    obtain ⟨label, hLabel⟩ := Forest.exists_label?_of_mem hId
    refine h.regroups wellFormed ?_ hId
    rcases h.holder_cases label hLabel with ⟨rfl, -⟩ | ⟨-, hChildren, kind, hKind, hHolder⟩
    · exact (scanning_of_forM ih h.wellFormed rfl (.init h.wellFormed holder) hLoop).scanned
    · -- the new node is visited itself, and is nothing to restyle
      rw [hChildren] at hLoop
      obtain ⟨_, _, hFirst, hNil⟩ := run_bind_eq_ok_iff.mp hLoop
      cases hNil
      have regroups := ih h.wellFormed (Forest.mem_of_label? hHolder) hFirst
      exact regroups.scanned hHolder fun hStyle => absurd hStyle (Node.role_of_wrapper hKind).1

/-- **Resolving styles regroups siblings.** On a well-formed forest it comes to its end, and what
has then become of every node is told by one scan of the children of each node. -/
theorem resolveStyles_regroups (draft : Draft) (wellFormed : draft.forest.WellFormed) :
    ∃ last, resolveStyles.run draft = .ok () last ∧ last.forest.WellFormed ∧
      draft.forest.Regrouped last.forest := by
  obtain ⟨after, hRun, hAfter, -⟩ := resolveStyles_run draft wellFormed
  refine ⟨_, hRun, hAfter, ?_⟩
  obtain ⟨_, _, hRead, hWalk⟩ := run_bind_eq_ok_iff.mp hRun
  cases hRead
  have regroups := regroups_of_walkFrom wellFormed draft.forest.root_mem hWalk
  have hOpen : draft.forest.openList? .root = none := by
    rw [Forest.openList?, Forest.openListBefore,
      Forest.previous?_eq_none_of_parent? wellFormed.linked.root_parent]
  have hFiling : draft.forest.filing? .root = none := by
    rw [Option.eq_none_iff_forall_ne_some]
    exact fun list h => Option.some_ne_none list
      ((Forest.openList?_of_filing? h).symm.trans hOpen)
  refine ⟨?_, regroups.below, fun id hMem hElsewhere => ⟨regroups.label?_eq hMem hElsewhere, ?_⟩⟩
  · have hSelf := regroups.self
    rwa [hOpen] at hSelf
  · rw [regroups.children_eq hMem hElsewhere, hFiling, Forest.refiled]

/-- A term and a description with a blank line between them, then text, and then a description that
has no list to continue. -/
def glossary : ParseTree :=
  .node .article "" [.node .style ";" [.leaf .text] none none, .node .text "\n" [] none none,
    .node .style ":" [.leaf .text] none none, .node .text "c" [] none none,
    .node .style ":" [.leaf .text] none none] none none

/-- The first description goes to the list that the term opens, and the second one stays. -/
theorem resolveStyles_regroups_glossary :
    ∃ forest last, Edit.linkUpwards.run (.ofParseTree glossary) = .ok () forest ∧
      forest.WellFormed ∧ resolveStyles.run ⟨forest, []⟩ = .ok () last ∧
      forest.Regrouped last.forest ∧
      (forest.scan (forest.children .root)).kept = [⟨1⟩, ⟨3⟩, ⟨6⟩, ⟨7⟩] ∧
      (forest.scan (forest.children .root)).entries ⟨1⟩ = [⟨4⟩] := by
  obtain ⟨forest, hLink, wellFormed, same⟩ := Edit.linkUpwards_run glossary
  obtain ⟨last, hRun, -, regrouped⟩ := resolveStyles_regroups ⟨forest, []⟩ wellFormed
  have hScan : forest.scan (forest.children .root) =
      (Forest.ofParseTree glossary).scan ((Forest.ofParseTree glossary).children .root) := by
    rw [same.children_eq]
    exact Forest.scan_congr (fun id _ => same.label?_eq id) (List.Subset.refl _)
  refine ⟨forest, last, hLink, wellFormed, hRun, regrouped, ?_⟩
  rw [hScan]
  decide +kernel

end Pass

end WikiMarkup
