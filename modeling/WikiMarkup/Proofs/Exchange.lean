import WikiMarkup.Proofs.Json.Exchange

/-!
# Parse trees can be exchanged

A parse tree that is written as text is read back unchanged as long as it is shallow enough. Each
node takes up two levels of nesting, one for its record and one for the array of its children
(`Exchange.TreeLaws.depth_encode_le_iff`). A leaf is no exception, because its empty array is
written too; so of the 127 levels, which are odd in number, the last one is never of use.

How texts are written and read is not known here but for the laws of an `Exchange`.

**Key result.** `Exchange.forest?_render`: the forest of a parse tree that has been written and read
is the forest of the tree itself if no way down to a leaf has more than 63 nodes, and there is none
otherwise. `Exchange.forest?_render_stack` puts the limit to the test with JSON.
-/

namespace WikiMarkup

namespace ParseTree

variable {kind : Kind} {caption : String} {children : List ParseTree}
  {headingLevel : Option UInt8} {inlineHint : Option Bool}

/-! ### Branches -/

mutual

/-- The ways from the top of a tree down to its leaves. -/
def branches : ParseTree → List (List ParseTree)
  | .node kind caption children headingLevel inlineHint =>
    let top := node kind caption children headingLevel inlineHint
    if children.isEmpty then [[top]] else (branchesAll children).map (top :: ·)

/-- The ways down to the leaves of several trees. -/
def branchesAll : List ParseTree → List (List ParseTree)
  | [] => []
  | tree :: trees => tree.branches ++ branchesAll trees

end

theorem forall_branchesAll_iff {property : List ParseTree → Prop} {trees : List ParseTree} :
    (∀ branch ∈ branchesAll trees, property branch) ↔
      ∀ tree ∈ trees, ∀ branch ∈ tree.branches, property branch := by
  induction trees with
  | nil => simp [branchesAll]
  | cons tree trees ih => rw [branchesAll, List.forall_mem_append, ih, List.forall_mem_cons]

/-- There is a way down to a leaf. -/
theorem exists_branch : ∀ tree : ParseTree, ∃ below, tree :: below ∈ tree.branches
  | .node kind caption [] headingLevel inlineHint => ⟨[], by simp [branches]⟩
  | .node kind caption (child :: children) headingLevel inlineHint => by
    obtain ⟨below, hBranch⟩ := exists_branch child
    exact ⟨child :: below, by simp [branches, branchesAll, hBranch]⟩

/-- A way down takes up two levels at least. -/
theorem not_forall_branches {levels : Nat} (hLevels : levels < 2) (tree : ParseTree) :
    ¬ ∀ branch ∈ tree.branches, 2 * branch.length ≤ levels := by
  obtain ⟨below, hBranch⟩ := tree.exists_branch
  intro hAll
  have hLength := hAll _ hBranch
  rw [List.length_cons] at hLength
  omega

/-- A node takes up two levels of each way down that begins with it. -/
theorem forall_branches_iff (levels : Nat) :
    (∀ branch ∈ (node kind caption children headingLevel inlineHint).branches,
        2 * branch.length ≤ levels + 2) ↔
      ∀ child ∈ children, ∀ branch ∈ child.branches, 2 * branch.length ≤ levels := by
  rw [← forall_branchesAll_iff, branches]
  cases children with
  | nil => simp [branchesAll]
  | cons child children =>
    simp only [List.isEmpty_cons, Bool.false_eq_true, if_false, List.forall_mem_map,
      List.length_cons]
    exact forall₂_congr fun _ _ => by omega

end ParseTree

namespace Exchange

variable {format : Exchange ParseTree}

/-! ### Encoded trees -/

/-- **A tree is encoded within some levels** if these suffice for two on every node of every way
down to a leaf, and only then. -/
theorem TreeLaws.depth_encode_le_iff (laws : format.TreeLaws) (levels : Nat) (tree : ParseTree) :
    (format.encode tree).depth ≤ levels ↔
      ∀ branch ∈ tree.branches, 2 * branch.length ≤ levels := by
  cases tree with
  | node kind caption children headingLevel inlineHint =>
    rw [laws.encode_node, ParseTree.depth_record]
    match levels with
    | 0 => exact iff_of_false (by omega) (ParseTree.not_forall_branches (by decide) _)
    | 1 => exact iff_of_false (by omega) (ParseTree.not_forall_branches (by decide) _)
    | levels + 2 =>
      rw [Nat.add_le_add_iff_right, Json.depthItems_le_iff, List.forall_mem_map,
        ParseTree.forall_branches_iff]
      exact forall₂_congr fun child _ => laws.depth_encode_le_iff levels child

mutual

/-- **Decoding undoes encoding.** -/
theorem TreeLaws.decode?_encode (laws : format.TreeLaws) :
    ∀ tree : ParseTree, format.decode? (format.encode tree) = some tree
  | .node kind caption children headingLevel inlineHint => by
    rw [laws.encode_node, laws.decode?_record, laws.mapM_decode?_encode children]
    rfl

theorem TreeLaws.mapM_decode?_encode (laws : format.TreeLaws) :
    ∀ trees : List ParseTree, (trees.map format.encode).mapM format.decode? = some trees
  | [] => rfl
  | tree :: trees => by
    rw [List.map_cons, List.mapM_cons, laws.decode?_encode tree, laws.mapM_decode?_encode trees]
    rfl

end

/-! ### Texts -/

/-- **Exchange keeps a page that is not too deep**, and refuses any other: its forest is the same
before writing and after reading if every way down to a leaf has at most 63 nodes, and if one has 64
there is no reading it. -/
theorem forest?_render (texts : format.TextLaws) (trees : format.TreeLaws) (tree : ParseTree) :
    format.forest? (format.render tree) =
      if ∀ branch ∈ tree.branches, branch.length ≤ 63 then some (Forest.ofParseTree tree)
      else none := by
  have hFits : (format.encode tree).depth ≤ format.limit ↔
      ∀ branch ∈ tree.branches, branch.length ≤ 63 := by
    rw [texts.limit_eq, trees.depth_encode_le_iff]
    exact forall₂_congr fun _ _ => by omega
  rw [forest?, render]
  by_cases hDepth : (format.encode tree).depth ≤ format.limit
  · rw [if_pos (hFits.mp hDepth), texts.read?_write _ (trees.plain_encode tree) hDepth,
      trees.decode?_encode]
    rfl
  · rw [if_neg (mt hFits.mpr hDepth),
      texts.read?_write_eq_none tree (Nat.lt_of_not_le hDepth)]
    rfl

/-- A heading whose caption is escaped nearly everywhere, at the bottom of a number of blocks. Each
block holds the next one and an empty text. -/
def stack : Nat → ParseTree
  | 0 => .node .docSection "\"\\\n\x00\x1f/é𝄞" [] (some 255) (some false)
  | blocks + 1 => .node .indented ":" [stack blocks, .leaf .text] none none

/-- The way from the top of 62 blocks down to the heading has 63 nodes, and one more block is too
much. -/
theorem forest?_render_stack :
    ParseTree.json.TextLaws ∧ ParseTree.json.TreeLaws ∧
      (stack 0).render = "\x7b\"kind\":\"Section\",\"caption\":\"\\\"\\\\\\n\\u0000\\u001f/é𝄞\"," ++
        "\"children\":[],\"heading_level\":255,\"inline_hint\":false\x7d" ∧
      ParseTree.json.forest? (ParseTree.json.render (stack 62)) =
        some (Forest.ofParseTree (stack 62)) ∧
      ParseTree.json.forest? (ParseTree.json.render (stack 63)) = none := by
  have texts := ParseTree.textLaws_json
  have trees := ParseTree.treeLaws_json
  refine ⟨texts, trees, by decide +kernel, ?_, ?_⟩
  · rw [forest?_render texts trees, if_pos (by decide +kernel)]
  · rw [forest?_render texts trees, if_neg (by decide +kernel)]

end Exchange

end WikiMarkup
