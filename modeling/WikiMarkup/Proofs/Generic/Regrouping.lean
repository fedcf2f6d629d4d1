import WikiMarkup.Proofs.Generic.Style

/-!
# Regrouping siblings in one scan

Resolving styles moves nodes about while it walks: a definition mark goes to the end of a list that
stands before it and has been walked already, and whether there is such a list is found out by
looking back over siblings that have been resolved before. This module says what should come of it
without any of that, by reading the children of each node once from left to right.

A `Scan` of children keeps in mind which definition list is **open**. It is opened by a definition
list or by a term, it stays open over blank text, and any other node that stays in place closes it.
Terms and descriptions that find a list open are **filed** in it.

`Node.restyled` is what becomes of a single node. Both go by what is written on a node, and by
nothing that resolving has done elsewhere. `Forest.Regrouped` puts them together: it tells the label
and the children of every node below the root after resolving from the forest before.

**Key result.** `openList?_eq`: looking back from a node finds the list that reading forward over
the children in front of it has left open.
-/

namespace WikiMarkup

/-! ### Nodes -/

/-- What a node means for the siblings behind it. -/
inductive Role
  /-- Text that is blank. -/
  | blank
  /-- A definition list. -/
  | list
  /-- The mark of a term. -/
  | term
  /-- The mark of a description. -/
  | description
  /-- Anything else. -/
  | other
  deriving DecidableEq

/-- The role that a node has after resolving, given whether a list is open before it. A term that
finds no list becomes one. -/
def Role.settled (isOpen : Bool) : Role → Role
  | .term => if isOpen then .other else .list
  | .description => .other
  | role => role

/-- The role of a style, by its mark. -/
def StyleMark.role : StyleMark → Role
  | term => .term
  | description => .description
  | _ => .other

namespace Node

/-- The role of a node. -/
def role (node : Node) : Role :=
  if node.kind = .text ∧ isBlank node.caption then .blank
  else if node.kind = .definitionList then .list
  else if node.kind = .style ∧ node.caption = ";" then .term
  else if node.kind = .style ∧ node.caption.toList.head? = some ':' then .description
  else .other

/-- A node with another kind and without its token. -/
def retagged (node : Node) (kind : Kind) : Node := { node with kind := kind, caption := "" }

/-- What a node becomes, links apart, given whether a list is open; and the kind of the node that
comes between it and its children, if one does. -/
def restyled (isOpen : Bool) (node : Node) : Node × Option Kind :=
  if node.kind ≠ .style then (node, none)
  else if node.caption = "''" then (node.retagged .emphasized, none)
  else if node.caption = "'''" then (node.retagged .strong, none)
  else if node.caption = "'''''" then (node.retagged .strong, some .emphasized)
  else if node.caption = ";" then
    if isOpen then (node.retagged .definitionTerm, none)
    else (node.retagged .definitionList, some .definitionTerm)
  else if node.caption.toList.head? = some ':' then
    if isOpen then (node.retagged .definitionDescription, none)
    else ({ node with kind := .indented }, none)
  else
    match Kind.ofStyleToken? node.caption with
    | some kind => (node.retagged kind, none)
    | none => (node, none)

variable {node : Node} {isOpen : Bool} {kind : Kind} {mark : StyleMark}

theorem restyled_of_kind_ne (h : node.kind ≠ .style) : node.restyled isOpen = (node, none) := by
  rw [restyled, if_pos h]

/-- What a mark makes of a style. -/
theorem restyled_of_mark (hStyle : node.kind = .style)
    (hMark : StyleMark.ofToken node.caption = some mark) : node.restyled isOpen =
      match mark with
      | .emphasis => (node.retagged .emphasized, none)
      | .strong => (node.retagged .strong, none)
      | .strongEmphasis => (node.retagged .strong, some .emphasized)
      | .term => if isOpen then (node.retagged .definitionTerm, none)
        else (node.retagged .definitionList, some .definitionTerm)
      | .description => if isOpen then (node.retagged .definitionDescription, none)
        else ({ node with kind := .indented }, none)
      | .named kind => (node.retagged kind, none) := by
  unfold StyleMark.ofToken at hMark
  split_ifs at hMark with hTwo hThree hFive hTerm hColon
  case neg =>
    obtain ⟨kind, hTable, rfl⟩ := Option.map_eq_some_iff.mp hMark
    simp [restyled, hStyle, hTwo, hThree, hFive, hTerm, hColon, hTable]
  all_goals
    obtain rfl := Option.some_inj.mp hMark
    simp_all [restyled]

/-- A style whose token has no meaning stays what it is. -/
theorem restyled_of_no_mark (hMark : StyleMark.ofToken node.caption = none) :
    node.restyled isOpen = (node, none) := by
  obtain ⟨hTokens, hColon, hTable⟩ := StyleMark.of_ofToken_eq_none hMark
  simp only [List.mem_cons, List.not_mem_nil, or_false, not_or] at hTokens
  obtain ⟨hTwo, hThree, hFive, hTerm⟩ := hTokens
  simp [restyled, hTwo, hThree, hFive, hTerm, hColon, hTable]

/-- The role of a style is that of its mark. -/
theorem role_of_style (hStyle : node.kind = .style) :
    node.role = ((StyleMark.ofToken node.caption).map StyleMark.role).getD .other := by
  have hNamed : (((Kind.ofStyleToken? node.caption).map StyleMark.named).map
      StyleMark.role).getD .other = .other := by
    cases Kind.ofStyleToken? node.caption <;> rfl
  unfold role StyleMark.ofToken
  split_ifs <;> simp_all [StyleMark.role]

/-- No named style is text or opens a list. -/
theorem role_of_named (hMark : StyleMark.ofToken node.caption = some (.named kind)) :
    (node.retagged kind).role = .other := by
  have hNamed : Kind.ofStyleToken? node.caption = some kind := by
    unfold StyleMark.ofToken at hMark
    split_ifs at hMark
    case neg => simpa using hMark
    all_goals cases hMark
  have hTable : ∀ entry ∈ styleTable, entry.2 ∉ [.text, .definitionList, .style] := by decide
  have hKind := hTable _ (mem_of_lookup hNamed)
  simp only [List.mem_cons, List.not_mem_nil, or_false, not_or] at hKind
  simp [role, retagged, hKind]

theorem role_restyled : (node.restyled isOpen).1.role = node.role.settled isOpen := by
  by_cases hStyle : node.kind = .style
  · rw [role_of_style hStyle]
    cases hMark : StyleMark.ofToken node.caption with
    | none =>
      rw [restyled_of_no_mark hMark, role_of_style hStyle, hMark]
      rfl
    | some mark =>
      rw [restyled_of_mark hStyle hMark]
      cases mark with
      | named kind => exact role_of_named hMark
      | _ => cases isOpen <;> simp [role, retagged, StyleMark.role, Role.settled]
  · rw [restyled_of_kind_ne hStyle]
    unfold role
    simp only [hStyle, false_and, if_false]
    split_ifs <;> rfl

/-- What is resolved stays what it is, and is no definition mark. -/
theorem StyleResolved.restyled_eq (h : node.StyleResolved) (isOpen : Bool) :
    node.restyled isOpen = (node, none) ∧ node.role ≠ .term ∧ node.role ≠ .description := by
  by_cases hStyle : node.kind = .style
  · rw [role_of_style hStyle, h hStyle]
    exact ⟨restyled_of_no_mark (h hStyle), nofun, nofun⟩
  · refine ⟨restyled_of_kind_ne hStyle, ?_⟩
    unfold role
    split_ifs <;> simp_all

/-- What comes between a style and its children is neither text nor a style. -/
theorem role_of_wrapper (h : (node.restyled isOpen).2 = some kind) :
    kind ≠ .style ∧ role { kind := kind } = .other := by
  by_cases hStyle : node.kind = .style
  · cases hMark : StyleMark.ofToken node.caption with
    | none =>
      rw [restyled_of_no_mark hMark] at h
      cases h
    | some mark =>
      rw [restyled_of_mark hStyle hMark] at h
      cases mark <;> cases isOpen <;> cases h <;> decide
  · rw [restyled_of_kind_ne hStyle] at h
    cases h

end Node

/-! ### Scans -/

/-- What has come of the children that have been read. -/
structure Scan where
  /-- Those that stay in place. -/
  kept : List NodeId := []
  /-- The definition list that is open. -/
  openList : Option NodeId := none
  /-- Those that have been filed, each with its list. -/
  filed : List (NodeId × NodeId) := []

namespace Scan

/-- Reads a child with a given role. -/
def step (scan : Scan) (role : Role) (id : NodeId) : Scan :=
  match role, scan.openList with
  | .blank, _ => { scan with kept := scan.kept ++ [id] }
  | .list, _ => { scan with kept := scan.kept ++ [id], openList := some id }
  | .term, some list => { scan with filed := scan.filed ++ [(list, id)] }
  | .term, none => { scan with kept := scan.kept ++ [id], openList := some id }
  | .description, some list => { scan with filed := scan.filed ++ [(list, id)] }
  | .description, none => { scan with kept := scan.kept ++ [id], openList := none }
  | .other, _ => { scan with kept := scan.kept ++ [id], openList := none }

/-- What has been filed in a list, in order. -/
def entries (scan : Scan) (list : NodeId) : List NodeId :=
  scan.filed.filterMap fun (owner, entry) => if owner = list then some entry else none

/-- The list that a child with a given role is filed in. -/
def filing? (scan : Scan) : Role → Option NodeId
  | .term | .description => scan.openList
  | _ => none

end Scan

namespace Forest

/-- The role of a node of a forest. -/
def role (forest : Forest) (id : NodeId) : Role := ((forest.label? id).map Node.role).getD .other

/-- Reads children from left to right. -/
def scan (forest : Forest) (ids : List NodeId) : Scan :=
  ids.foldl (fun scan id => scan.step (forest.role id) id) {}

/-! ### What resolving comes to -/

/-- What becomes of a node: of its label, given whether a list is open before it, and of its
children, given what is filed in it. -/
structure Resettled (forest after : Forest) (isOpen : Bool) (entries : List NodeId) (id : NodeId) :
    Prop where
  /-- It is restyled. -/
  label?_eq : after.label? id = (forest.label? id).map fun label => (label.restyled isOpen).1
  /-- If nothing comes between it and its children, it has those that stay in place, and then what
  is filed in it. -/
  children_eq : ∀ label, forest.label? id = some label → (label.restyled isOpen).2 = none →
    after.children id = (forest.scan (forest.children id)).kept ++ entries
  /-- If a node comes in between it is new, and has the children that stay in place. -/
  wrapped : ∀ label kind, forest.label? id = some label → (label.restyled isOpen).2 = some kind →
    ∃ wrapper, wrapper ∉ forest ∧ after.label? wrapper = some { kind := kind } ∧
      after.children wrapper = (forest.scan (forest.children id)).kept ∧
      after.children id = wrapper :: entries

/-- What becomes of a whole forest. The children of each node below the root are read in one scan:
whether a list is open before a child is told by those in front of it, and what is filed in the
child by all of them. -/
structure Regrouped (forest after : Forest) : Prop where
  /-- Nothing is open before the root, and nothing is filed in it. -/
  root : forest.Resettled after false [] .root
  /-- Below a node it is told by its children. -/
  child : ∀ parent front id back, forest.Reaches .root parent →
    forest.children parent = front ++ id :: back →
    forest.Resettled after (forest.scan front).openList.isSome
      ((forest.scan (forest.children parent)).entries id) id
  /-- Elsewhere nothing changes. -/
  elsewhere : ∀ id ∈ forest, ¬ forest.Reaches .root id →
    after.label? id = forest.label? id ∧ after.children id = forest.children id

end Forest

/-! ### Steps of a scan -/

namespace Scan

variable {scan : Scan} {role : Role} {id list : NodeId}

theorem kept_step : (scan.step role id).kept =
    if (scan.filing? role).isSome then scan.kept else scan.kept ++ [id] := by
  cases role <;> cases hOpen : scan.openList <;> simp [step, filing?, hOpen]

theorem openList_step : (scan.step role id).openList =
    match role with
    | .blank => scan.openList
    | .list => some id
    | .term => scan.openList.or (some id)
    | .description => scan.openList
    | .other => none := by
  cases role <;> cases hOpen : scan.openList <;> simp [step, hOpen]

theorem entries_step : (scan.step role id).entries list =
    scan.entries list ++ if scan.filing? role = some list then [id] else [] := by
  have hOne : ∀ owner, [(owner, id)].filterMap (fun filed : NodeId × NodeId =>
      if filed.1 = list then some filed.2 else none) = if owner = list then [id] else [] :=
    fun owner => by by_cases hOwner : owner = list <;> simp [hOwner]
  cases role <;> cases hOpen : scan.openList <;>
    simp [step, filing?, hOpen, entries, List.filterMap_append, hOne]

end Scan

namespace Forest

variable {forest after : Forest} {id list parent : NodeId} {ids front back : List NodeId}

theorem scan_concat : forest.scan (ids ++ [id]) = (forest.scan ids).step (forest.role id) id := by
  rw [scan, List.foldl_append, List.foldl_cons, List.foldl_nil, scan]

theorem role_congr (h : after.label? id = forest.label? id) : after.role id = forest.role id := by
  rw [role, role, h]

/-- A scan goes by the labels of what is read, which may be some of the children of a node. -/
theorem scan_congr {children : List NodeId}
    (h : ∀ id ∈ children, after.label? id = forest.label? id) (hIds : ids ⊆ children) :
    after.scan ids = forest.scan ids := by
  induction ids using List.reverseRecOn with
  | nil => rfl
  | append_singleton ids id ih =>
    obtain ⟨hIds, hId⟩ := List.append_subset.mp hIds
    rw [scan_concat, scan_concat, ih hIds, role_congr (h id (hId (List.mem_singleton_self id)))]

theorem mem_of_mem_kept (h : id ∈ (forest.scan ids).kept) : id ∈ ids := by
  induction ids using List.reverseRecOn with
  | nil => cases h
  | append_singleton ids last ih =>
    rw [scan_concat, Scan.kept_step] at h
    split at h
    · exact List.mem_append_left _ (ih h)
    · exact List.mem_append.mpr ((List.mem_append.mp h).imp_left ih)

/-- The open list is one of the children that have been read. -/
theorem mem_of_openList (h : (forest.scan ids).openList = some list) : list ∈ ids := by
  induction ids using List.reverseRecOn with
  | nil => cases h
  | append_singleton ids last ih =>
    rw [scan_concat, Scan.openList_step] at h
    split at h
    · exact List.mem_append_left _ (ih h)
    · cases h
      simp
    · rw [Option.or_eq_some_iff] at h
      rcases h with h | ⟨-, h⟩
      · exact List.mem_append_left _ (ih h)
      · cases h
        simp
    · exact List.mem_append_left _ (ih h)
    · cases h

theorem mem_of_filing? {role : Role} (h : (forest.scan ids).filing? role = some list) :
    list ∈ ids := by
  cases role with
  | term => exact mem_of_openList h
  | description => exact mem_of_openList h
  | _ => cases h

/-- Nothing is filed but in the children that have been read. -/
theorem entries_eq_nil (h : list ∉ ids) : (forest.scan ids).entries list = [] := by
  induction ids using List.reverseRecOn with
  | nil => rfl
  | append_singleton ids last ih =>
    rw [List.mem_append, not_or] at h
    rw [scan_concat, Scan.entries_step, ih h.1, if_neg fun hFiling => h.1 (mem_of_filing? hFiling)]
    rfl

/-! ### Looking back -/

/-- The definition list that is open after some siblings if their roles are read forward. -/
def openAfter (forest : Forest) (ids : List NodeId) : Option NodeId :=
  ids.foldl (fun openList id =>
    match forest.role id with
    | .blank => openList
    | .list => some id
    | _ => none) none

theorem openAfter_concat : forest.openAfter (ids ++ [id]) =
    match forest.role id with
    | .blank => forest.openAfter ids
    | .list => some id
    | _ => none := by
  rw [openAfter, List.foldl_append, List.foldl_cons, List.foldl_nil, openAfter]

theorem openAfter_congr (h : ∀ id ∈ ids, after.role id = forest.role id) :
    after.openAfter ids = forest.openAfter ids := by
  induction ids using List.reverseRecOn with
  | nil => rfl
  | append_singleton ids id ih =>
    obtain ⟨hIds, hId⟩ := List.forall_mem_append.mp h
    rw [openAfter_concat, openAfter_concat, ih hIds, hId id (List.mem_singleton_self id)]

theorem Linked.openListBefore_eq (linked : forest.Linked) {steps : Nat}
    (hChildren : forest.children parent = front ++ id :: back) (hSteps : front.length < steps) :
    forest.openListBefore steps id = forest.openAfter front := by
  induction steps generalizing id front back with
  | zero => exact absurd hSteps (Nat.not_lt_zero _)
  | succ steps ih =>
    rw [openListBefore, linked.previous?_eq_getLast? hChildren]
    cases hLast : front.getLast? with
    | none =>
      rw [List.getLast?_eq_none_iff.mp hLast]
      rfl
    | some before =>
      obtain ⟨init, rfl⟩ := List.getLast?_eq_some_iff.mp hLast
      rw [List.length_append, List.length_singleton] at hSteps
      have hBefore : before ∈ forest.children parent := by simp [hChildren]
      obtain ⟨node, hNode⟩ := mem_iff_exists_get?.mp (linked.mem_children_right hBefore)
      rw [List.append_assoc, List.singleton_append] at hChildren
      have hRole : forest.role before = node.role := by
        rw [role, label?_of_get? hNode]
        rfl
      rw [openAfter_concat, hRole]
      dsimp only
      rw [hNode]
      dsimp only
      rw [ih hChildren (by omega), Node.role]
      split_ifs <;> simp_all

/-- **Looking back** finds the list that reading forward has left open. -/
theorem Linked.openList?_eq (linked : forest.Linked)
    (hChildren : forest.children parent = front ++ id :: back) :
    forest.openList? id = forest.openAfter front := by
  refine linked.openListBefore_eq hChildren ?_
  have hLength := linked.length_children_le parent
  rw [hChildren, List.length_append, List.length_cons] at hLength
  omega

end Forest

end WikiMarkup
