import WikiMarkup.Proofs.Forest.Reading
import WikiMarkup.Proofs.Text.Quoted

/-!
# What an outline tells

An outline has one line for each node, and the line shows the depth, the kind, the heading level
and the caption of the node. Nothing else is in it, so trees that differ in other things alone have
the same outline; `ParseTree.shown` leaves these things out.

**Reading an outline.** The parts of a line can be told from one another (`heading_append_inj`): a
kind is spelled in letters, a level is a number behind an `h`, and a caption is quoted. Quoted text
stands on one line, so lines can be told from one another too. A tree ends where a line is not
indented more deeply than its top node, so trees can be told from what comes behind them
(`outlineAt_append_inj`).

**Key result.** Two forests have the same outline exactly if they show the same tree below their
roots, and each line of an outline belongs to one node, in reading order
(`Forest.outline_eq_iff_and_lines`).
-/

namespace WikiMarkup

namespace ParseTree

mutual

/-- A tree without the hints that an outline does not show. -/
def shown : ParseTree → ParseTree
  | node kind caption children headingLevel _ =>
    node kind caption (shownAll children) headingLevel none

/-- Several trees without the hints that an outline does not show. -/
def shownAll : List ParseTree → List ParseTree
  | [] => []
  | tree :: trees => tree.shown :: shownAll trees

end

/-! ### The parts of a line -/

/-- A heading level as it appears in a line, if there is one. -/
def levelPart : Option UInt8 → List Char
  | none => []
  | some level => ' ' :: 'h' :: Nat.toDigits 10 level.toNat

/-- A caption as it appears in a line, if it is not empty. -/
def captionPart (caption : String) : List Char :=
  if caption.isEmpty then [] else ' ' :: (quote caption).toList

theorem toList_heading (kind : Kind) (caption : String) (level : Option UInt8) :
    (heading kind caption level).toList =
      kind.name.toList ++ (levelPart level ++ captionPart caption) := by
  have hCaption : (if caption.isEmpty then "" else " " ++ quote caption).toList =
      captionPart caption := by
    rw [captionPart]
    split
    · rfl
    · rw [String.toList_append]
      rfl
  rw [← List.append_assoc, ← hCaption]
  cases level with
  | none => simp [heading, levelPart]
  | some level =>
    have hMark : (toString " h").toList = [' ', 'h'] := rfl
    simp [heading, levelPart, hMark]

theorem toList_indent (depth : Nat) : (indent depth).toList = List.replicate (2 * depth) ' ' := by
  rw [indent, String.pushn]
  generalize 2 * depth = length
  induction length with
  | zero => rfl
  | succ length ih => rw [Nat.repeat, String.toList_push, ih, List.replicate_succ']

/-- A kind is spelled in letters, of which there is at least one. -/
theorem exists_name_eq_cons (kind : Kind) : ∃ first rest,
    kind.name.toList = first :: rest ∧ ∀ c ∈ kind.name.toList, c.isAlpha := by
  have hName : kind.name.toList ≠ [] ∧ kind.name.toList.all Char.isAlpha := by
    cases kind <;> decide
  obtain ⟨first, rest, h⟩ := List.exists_cons_of_ne_nil hName.1
  exact ⟨first, rest, h, List.all_eq_true.mp hName.2⟩

/-- A caption is told by what is written for it up to the end of the line. -/
theorem captionPart_append_inj {caption other : String} {rest rest' : List Char}
    (h : captionPart caption ++ '\n' :: rest = captionPart other ++ '\n' :: rest') :
    caption = other ∧ rest = rest' := by
  rw [captionPart, captionPart] at h
  split at h <;> split at h
  next hEmpty hOther =>
    rw [String.isEmpty_iff] at hEmpty hOther
    exact ⟨hEmpty.trans hOther.symm, List.cons_injective h⟩
  next => exact absurd (List.cons_eq_cons.mp h).1 (by decide)
  next => exact absurd (List.cons_eq_cons.mp h).1 (by decide)
  next =>
    obtain ⟨hCaption, hRest⟩ := quote_append_inj (List.cons_eq_cons.mp h).2
    exact ⟨hCaption, List.cons_injective hRest⟩

/-- Behind a kind or a level stands a blank or the end of the line. -/
theorem captionPart_head {caption : String} {rest : List Char} :
    ∀ c ∈ (captionPart caption ++ '\n' :: rest).head?, c = ' ' ∨ c = '\n' := by
  rw [captionPart]
  split
  · rintro c ⟨rfl⟩
    exact .inr rfl
  · rintro c ⟨rfl⟩
    exact .inl rfl

theorem levelPart_head {level : Option UInt8} {caption : String} {rest : List Char} :
    ∀ c ∈ (levelPart level ++ (captionPart caption ++ '\n' :: rest)).head?,
      c = ' ' ∨ c = '\n' := by
  cases level with
  | none => exact captionPart_head
  | some level =>
    rintro c ⟨rfl⟩
    exact .inl rfl

/-- A caption does not look like a level. -/
theorem captionPart_ne_levelPart {caption : String} {rest tail : List Char} :
    captionPart caption ++ '\n' :: rest ≠ ' ' :: 'h' :: tail := by
  intro h
  rw [captionPart] at h
  split at h
  next => exact absurd (List.cons_eq_cons.mp h).1 (by decide)
  next =>
    rw [quote, String.toList_ofList] at h
    exact absurd (List.cons_eq_cons.mp (List.cons_eq_cons.mp h).2).1 (by decide)

/-- **A line tells** the kind, the level and the caption of its node. -/
theorem heading_append_inj {kind kind' : Kind} {caption caption' : String}
    {level level' : Option UInt8} {rest rest' : List Char}
    (h : (heading kind caption level).toList ++ '\n' :: rest =
      (heading kind' caption' level').toList ++ '\n' :: rest') :
    kind = kind' ∧ caption = caption' ∧ level = level' ∧ rest = rest' := by
  simp only [toList_heading, List.append_assoc] at h
  obtain ⟨hName, hLevel⟩ : kind.name.toList = kind'.name.toList ∧ _ := by
    refine append_inj_of_ends (p := Char.isAlpha)
      (exists_name_eq_cons kind).choose_spec.choose_spec.2 (fun c hC => ?_)
      (exists_name_eq_cons kind').choose_spec.choose_spec.2 (fun c hC => ?_) h
    all_goals rcases levelPart_head c hC with rfl | rfl <;> decide
  suffices hParts : level = level' ∧
      captionPart caption ++ '\n' :: rest = captionPart caption' ++ '\n' :: rest' by
    obtain ⟨hCaption, hRest⟩ := captionPart_append_inj hParts.2
    exact ⟨Kind.name_injective (String.toList_inj.mp hName), hCaption, hParts.1, hRest⟩
  cases level with
  | none =>
    cases level' with
    | none => exact ⟨rfl, hLevel⟩
    | some level' => exact absurd hLevel captionPart_ne_levelPart
  | some level =>
    cases level' with
    | none => exact absurd hLevel.symm captionPart_ne_levelPart
    | some level' =>
      have hDigits := List.cons_injective (List.cons_injective hLevel)
      obtain ⟨hSame, hRest⟩ := append_inj_of_ends (p := Char.isDigit)
        (fun c => Nat.isDigit_of_mem_toDigits (by decide) (by decide))
        (fun c hC => by rcases captionPart_head c hC with rfl | rfl <;> decide)
        (fun c => Nat.isDigit_of_mem_toDigits (by decide) (by decide))
        (fun c hC => by rcases captionPart_head c hC with rfl | rfl <;> decide) hDigits
      have hLevels := toDigits_inj (by decide) (by decide) hSame
      exact ⟨congrArg some (UInt8.toNat_inj.mp hLevels), hRest⟩

/-! ### Trees -/

theorem toList_outlineAt (depth : Nat) (kind : Kind) (caption : String) (children : List ParseTree)
    (level : Option UInt8) (hint : Option Bool) :
    (outlineAt depth (node kind caption children level hint)).toList =
      List.replicate (2 * depth) ' ' ++ ((heading kind caption level).toList ++
        '\n' :: (outlineAll (depth + 1) children).toList) := by
  rw [outlineAt, String.toList_append, String.toList_append, String.toList_append, toList_indent]
  simp only [List.append_assoc]
  rfl

theorem toList_outlineAll_cons (depth : Nat) (tree : ParseTree) (trees : List ParseTree) :
    (outlineAll depth (tree :: trees)).toList =
      (outlineAt depth tree).toList ++ (outlineAll depth trees).toList := by
  rw [outlineAll, String.toList_append]

/-- What comes behind the nodes at a depth does not go on at that depth. -/
def EndsAbove (depth : Nat) (rest : List Char) : Prop :=
  ¬ List.replicate (2 * depth) ' ' <+: rest

theorem EndsAbove.deeper {depth : Nat} {rest : List Char} (h : EndsAbove depth rest) :
    EndsAbove (depth + 1) rest := fun hPrefix =>
  h (List.IsPrefix.trans ⟨[' ', ' '], by rw [Nat.mul_succ, List.replicate_add]; rfl⟩ hPrefix)

/-- A node does not stand more deeply than it is indented. -/
theorem endsAbove_outlineAt (depth : Nat) (tree : ParseTree) (rest : List Char) :
    EndsAbove (depth + 1) ((outlineAt depth tree).toList ++ rest) := by
  obtain ⟨kind, caption, children, level, hint⟩ := tree
  obtain ⟨first, letters, hName, hAlpha⟩ := exists_name_eq_cons kind
  intro hPrefix
  rw [toList_outlineAt, toList_heading, hName, Nat.mul_succ, List.replicate_add,
    List.append_assoc, List.prefix_append_right_inj] at hPrefix
  -- a blank would stand where the kind begins
  have hBlank : ' ' = first := (List.cons_prefix_cons.mp hPrefix).1
  have hLetter := hAlpha first (hName ▸ List.mem_cons_self)
  rw [← hBlank] at hLetter
  exact absurd hLetter (by decide)

theorem endsAbove_outlineAll {depth : Nat} (trees : List ParseTree) {rest : List Char}
    (h : EndsAbove depth rest) :
    EndsAbove (depth + 1) ((outlineAll depth trees).toList ++ rest) := by
  cases trees with
  | nil => exact h.deeper
  | cons tree trees =>
    rw [toList_outlineAll_cons, List.append_assoc]
    exact endsAbove_outlineAt depth tree _

mutual

/-- **An outline tells** what is shown of a tree, and where the tree ends. -/
theorem outlineAt_append_inj (depth : Nat) : ∀ (tree other : ParseTree) {rest rest' : List Char},
    EndsAbove (depth + 1) rest → EndsAbove (depth + 1) rest' →
    (outlineAt depth tree).toList ++ rest = (outlineAt depth other).toList ++ rest' →
      tree.shown = other.shown ∧ rest = rest'
  | node kind caption children level _, node kind' caption' children' level' _, rest, rest',
      hRest, hRest', h => by
    simp only [toList_outlineAt, List.append_assoc, List.cons_append,
      List.append_right_inj] at h
    obtain ⟨rfl, rfl, rfl, hBelow⟩ := heading_append_inj h
    obtain ⟨hChildren, hSame⟩ :=
      outlineAll_append_inj (depth + 1) children children' hRest hRest' hBelow
    exact ⟨by rw [shown, shown, hChildren], hSame⟩

theorem outlineAll_append_inj (depth : Nat) :
    ∀ (trees others : List ParseTree) {rest rest' : List Char},
    EndsAbove depth rest → EndsAbove depth rest' →
    (outlineAll depth trees).toList ++ rest = (outlineAll depth others).toList ++ rest' →
      shownAll trees = shownAll others ∧ rest = rest'
  | [], [], _, _, _, _, h => ⟨rfl, h⟩
  | [], other :: others, rest, rest', hRest, _, h => by
    obtain ⟨kind, caption, children, level, hint⟩ := other
    rw [toList_outlineAll_cons, toList_outlineAt, List.append_assoc, List.append_assoc] at h
    exact absurd ⟨_, h.symm⟩ hRest
  | tree :: trees, [], rest, rest', _, hRest', h => by
    obtain ⟨kind, caption, children, level, hint⟩ := tree
    rw [toList_outlineAll_cons, toList_outlineAt, List.append_assoc, List.append_assoc] at h
    exact absurd ⟨_, h⟩ hRest'
  | tree :: trees, other :: others, rest, rest', hRest, hRest', h => by
    rw [toList_outlineAll_cons, toList_outlineAll_cons, List.append_assoc, List.append_assoc] at h
    obtain ⟨hTree, hBelow⟩ := outlineAt_append_inj depth tree other
      (endsAbove_outlineAll trees hRest) (endsAbove_outlineAll others hRest') h
    obtain ⟨hTrees, hSame⟩ := outlineAll_append_inj depth trees others hRest hRest' hBelow
    exact ⟨by rw [shownAll, shownAll, hTree, hTrees], hSame⟩

end

mutual

/-- What an outline does not show makes no difference to it. -/
theorem outlineAt_shown (depth : Nat) : ∀ tree : ParseTree,
    outlineAt depth tree.shown = outlineAt depth tree
  | node kind caption children level _ => by
    rw [shown, outlineAt, outlineAt, outlineAll_shownAll (depth + 1) children]

theorem outlineAll_shownAll (depth : Nat) : ∀ trees : List ParseTree,
    outlineAll depth (shownAll trees) = outlineAll depth trees
  | [] => rfl
  | tree :: trees => by
    rw [shownAll, outlineAll, outlineAll, outlineAt_shown depth tree,
      outlineAll_shownAll depth trees]

end

/-- Trees have the same outline exactly if they show the same. -/
theorem outline_eq_iff {tree other : ParseTree} :
    tree.outline = other.outline ↔ tree.shown = other.shown := by
  constructor
  · intro h
    have hEnd : EndsAbove 1 [] := by
      intro hPrefix
      exact absurd hPrefix (by decide)
    refine (outlineAt_append_inj 0 tree other hEnd hEnd ?_).1
    rw [List.append_nil, List.append_nil, String.toList_inj]
    exact h
  · intro h
    rw [outline, ← outlineAt_shown, h, outlineAt_shown, outline]

end ParseTree

/-! ### The lines of an outline -/

namespace Forest

open ParseTree (indent heading)

/-- A node is met at a given depth on the way down from the root. -/
inductive AtDepth (forest : Forest) : Nat → NodeId → Prop
  /-- The root is at depth 0. -/
  | root : AtDepth forest 0 .root
  /-- A child is one level below its parent. -/
  | child {depth : Nat} {parent child : NodeId} (above : AtDepth forest depth parent)
      (listed : child ∈ forest.children parent) : AtDepth forest (depth + 1) child

/-- The line of a node in an outline: its heading, indented by its depth. -/
def LineOf (forest : Forest) (id : NodeId) (line : String) : Prop :=
  ∃ depth node, forest.AtDepth depth id ∧ forest.get? id = some node ∧
    line = indent depth ++ heading node.kind node.caption node.headingLevel

variable {forest first second : Forest} {id : NodeId} {line : String}

/-- No line of an outline is broken. -/
theorem LineOf.newline_notMem (h : forest.LineOf id line) : '\n' ∉ line.toList := by
  obtain ⟨depth, node, -, -, rfl⟩ := h
  have hName : '\n' ∉ node.kind.name.toList := fun h => by
    obtain ⟨_, _, -, hAlpha⟩ := ParseTree.exists_name_eq_cons node.kind
    exact absurd (hAlpha _ h) (by decide)
  have hLevel : '\n' ∉ ParseTree.levelPart node.headingLevel := by
    cases node.headingLevel with
    | none => exact List.not_mem_nil
    | some level =>
      simp only [ParseTree.levelPart, List.mem_cons, not_or]
      refine ⟨by decide, by decide, fun h => ?_⟩
      exact absurd (Nat.isDigit_of_mem_toDigits (by decide) (by decide) h) (by decide)
  have hCaption : '\n' ∉ ParseTree.captionPart node.caption := by
    rw [ParseTree.captionPart]
    split
    · exact List.not_mem_nil
    · rw [List.mem_cons, not_or]
      exact ⟨by decide, newline_notMem_quote node.caption⟩
  simp only [String.toList_append, ParseTree.toList_indent, ParseTree.toList_heading,
    List.mem_append, List.mem_replicate, not_or, not_and]
  exact ⟨fun _ => by decide, hName, hLevel, hCaption⟩

/-- A text that is made of the lines of some nodes, in order. -/
def IsLines (forest : Forest) (ids : List NodeId) (text : String) : Prop :=
  ∃ lines, text = String.join (lines.map (· ++ "\n")) ∧ List.Forall₂ forest.LineOf ids lines

theorem IsLines.append {ids others : List NodeId} {text more : String}
    (h : forest.IsLines ids text) (hMore : forest.IsLines others more) :
    forest.IsLines (ids ++ others) (text ++ more) := by
  obtain ⟨lines, rfl, hLines⟩ := h
  obtain ⟨moreLines, rfl, hMoreLines⟩ := hMore
  refine ⟨lines ++ moreLines, ?_, List.rel_append hLines hMoreLines⟩
  rw [List.map_append, String.join_append]

/-- The outlines of children make up lines if the outline of each does. -/
theorem isLines_outlineAll {depth : Nat} {ids : List NodeId} {trees : List ParseTree}
    (hTrees : List.Forall₂ (fun id tree => forest.parseTree? id = some tree) ids trees)
    (h : ∀ id ∈ ids, ∀ tree, forest.parseTree? id = some tree →
      forest.IsLines (forest.selfAndDescendants id) (tree.outlineAt depth)) :
    forest.IsLines (ids.flatMap forest.selfAndDescendants)
      (ParseTree.outlineAll depth trees) := by
  induction hTrees with
  | nil => exact ⟨[], rfl, .nil⟩
  | @cons id tree ids trees hTree _ ih =>
    obtain ⟨hId, hIds⟩ := List.forall_mem_cons.mp h
    rw [List.flatMap_cons, ParseTree.outlineAll]
    exact (hId tree hTree).append (ih hIds)

/-- **An outline is made of one line for each node**, in reading order. -/
theorem Arboreal.isLines_outlineAt (arboreal : forest.Arboreal) (h : forest.Reaches .root id) :
    ∀ depth tree, forest.AtDepth depth id → forest.parseTree? id = some tree →
      forest.IsLines (forest.selfAndDescendants id) (tree.outlineAt depth) := by
  refine arboreal.descend (motive := fun id => ∀ depth tree, forest.AtDepth depth id →
    forest.parseTree? id = some tree → forest.IsLines (forest.selfAndDescendants id)
      (tree.outlineAt depth)) (fun id h ih depth tree hDepth hTree => ?_) h
  obtain ⟨node, hNode⟩ := arboreal.exists_get? h
  obtain ⟨trees, hTrees, hRead⟩ := arboreal.exists_parseTree?_eq h hNode
  rw [hTree, Option.some_inj] at hRead
  have hLine : forest.IsLines [id]
      (indent depth ++ heading node.kind node.caption node.headingLevel ++ "\n") :=
    ⟨[_], by simp, .cons ⟨depth, node, hDepth, hNode, rfl⟩ .nil⟩
  have hBelow : forest.IsLines (forest.descendants id)
      (ParseTree.outlineAll (depth + 1) trees) := by
    rw [descendants, children_of_get? hNode]
    refine isLines_outlineAll hTrees fun child hChild tree hTree => ?_
    rw [← children_of_get? hNode] at hChild
    exact ih child hChild (depth + 1) tree (.child hDepth hChild) hTree
  rw [arboreal.selfAndDescendants_eq h, hRead, ParseTree.outlineAt]
  exact hLine.append hBelow

theorem outline_of_parseTree? {tree : ParseTree} (h : forest.parseTree? .root = some tree) :
    forest.outline = tree.outline := by
  rw [outline, h]
  rfl

/-- **An outline loses nothing that it shows.** Two forests whose nodes below the root make finite
trees have the same outline exactly if these trees agree in all but the hints about images, and an
outline has one line for each node, in reading order, none of which is broken. -/
theorem outline_eq_iff_and_lines (hFirst : first.Arboreal) (hSecond : second.Arboreal) :
    (∃ tree other, first.parseTree? .root = some tree ∧ second.parseTree? .root = some other ∧
      (first.outline = second.outline ↔ tree.shown = other.shown)) ∧
    ∃ lines, first.outline = String.join (lines.map (· ++ "\n")) ∧
      (∀ line ∈ lines, '\n' ∉ line.toList) ∧
      List.Forall₂ first.LineOf first.reachable lines := by
  have hRoot : ∀ forest : Forest, forest.Reaches .root .root := fun forest => .refl forest .root
  obtain ⟨tree, hTree⟩ := hFirst.exists_parseTree? (hRoot first)
  obtain ⟨other, hOther⟩ := hSecond.exists_parseTree? (hRoot second)
  obtain ⟨lines, hOutline, hLines⟩ := hFirst.isLines_outlineAt (hRoot first) 0 tree .root hTree
  have hBoth : List.Forall₂ (fun line id => '\n' ∉ line.toList ∧ first.LineOf id line) lines
      first.reachable := hLines.flip.imp fun _ _ h => ⟨LineOf.newline_notMem h, h⟩
  refine ⟨⟨tree, other, hTree, hOther, ?_⟩, lines, ?_,
    ((List.forall₂_and_left lines _).mp hBoth).1, hLines⟩
  · rw [outline_of_parseTree? hTree, outline_of_parseTree? hOther, ParseTree.outline_eq_iff]
  · rw [outline_of_parseTree? hTree]
    exact hOutline

/-- A page of one text, whose caption looks like two lines of an outline. -/
def forgedPage : ParseTree :=
  .node .article "" [.node .text "a\"\n  Text \"b" [] none none] none none

/-- A page of two texts. -/
def genuinePage : ParseTree :=
  .node .article "" [.node .text "a" [] none none, .node .text "b" [] none none] none none

/-- A caption that looks like lines of an outline is not mistaken for them. -/
theorem outline_forgedPage_ne :
    (ofParseTree forgedPage).Arboreal ∧ (ofParseTree genuinePage).Arboreal ∧
      (ofParseTree forgedPage).outline ≠ (ofParseTree genuinePage).outline := by
  have hForged := arboreal_ofParseTree forgedPage
  have hGenuine := arboreal_ofParseTree genuinePage
  obtain ⟨⟨tree, other, hTree, hOther, hIff⟩, -⟩ := outline_eq_iff_and_lines hForged hGenuine
  rw [parseTree?_ofParseTree, Option.some_inj] at hTree hOther
  subst hTree hOther
  refine ⟨hForged, hGenuine, fun h => ?_⟩
  have hShown := hIff.mp h
  simp [forgedPage, genuinePage, ParseTree.shown, ParseTree.shownAll] at hShown

end Forest

end WikiMarkup
