import WikiMarkup.Proofs.Content

/-!
# What becomes of preformatted text

Below a preformatted node no text is tidied, so all text is still there in the end and has kept its
words (`normalize_keepsPreformatted`). What may change is where blank text stands: a definition mark
that is regrouped jumps over blank text also where it is preformatted. If there is no blank text in
front of a definition mark, then the texts are the same and in the same order.
-/

namespace WikiMarkup

namespace Forest

variable {forest linked after : Forest} {id text first second : NodeId}

/-- The texts below a node in reading order. -/
def texts (forest : Forest) (id : NodeId) : List String :=
  (forest.descendantsOfKind id .text).map forest.caption

/-- Some blank text below a node stands in front of a definition mark below it. -/
def BlankBeforeMark (forest : Forest) (id : NodeId) : Prop :=
  ∃ blank mark, [blank, mark].Sublist (forest.descendants id) ∧
    forest.Has Node.IsBlankText blank ∧ forest.Has Node.IsDefinitionMark mark

/-- What becomes of a preformatted node. -/
structure KeepsPreformatted (forest after : Forest) (id : NodeId) : Prop where
  /-- The node is still there. -/
  mem_reachable : id ∈ after.reachable
  /-- The texts below it are the same, blank ones included. -/
  perm : (after.texts id).Perm (forest.texts id)
  /-- Those that are not blank are in the same order. -/
  filter_eq : (after.texts id).filter (! isBlank ·) = (forest.texts id).filter (! isBlank ·)
  /-- All of them are, unless a definition mark may jump. -/
  texts_eq : ¬ forest.BlankBeforeMark id → after.texts id = forest.texts id

theorem isBlank_caption (hText : forest.Has Node.IsBlankText id) : isBlank (forest.caption id) := by
  obtain ⟨label, hLabel, -, hBlank⟩ := hText
  rwa [caption_eq_map_label?, hLabel, Option.map_some, Option.getD_some]

theorem not_isBlankText_of_preformatted (hKind : forest.Has (·.kind = .preFormatted) id) :
    ¬ forest.Has Node.IsBlankText id := fun h => nomatch hKind.unique (h.imp fun _ => And.left)

theorem under_preformatted (hKind : forest.Has (·.kind = .preFormatted) id)
    (hText : forest.Has (·.kind = .text) text) (h : forest.Reaches id text) :
    forest.Under (·.kind = .preFormatted) text := by
  refine ⟨id, ?_, h, hKind⟩
  rintro rfl
  exact nomatch hKind.unique hText

theorem WellFormed.descendantsOfKind_text (wellFormed : forest.WellFormed)
    (hKind : forest.Has (·.kind = .preFormatted) id) : forest.descendantsOfKind id .text =
      (forest.selfAndDescendants id).filter fun text => forest.kind? text = some .text := by
  refine wellFormed.descendantsOfKind_eq fun hText => ?_
  rw [has_kind_iff.mp hKind] at hText
  cases hText

section

variable (wellFormed : forest.WellFormed) (hEnds : forest.TextEndsBranches)
  (hKind : forest.Has (·.kind = .preFormatted) id)

include hEnds

/-- Where text ends branches only blank text itself is passed. -/
theorem Jumps.isBlankText (h : forest.Jumps first second) :
    forest.Has Node.IsBlankText first := by
  obtain ⟨blank, mark, hBlank, hFirst, -⟩ := h
  rwa [← hEnds.eq_of_reaches (hBlank.imp fun _ h => .inl h.1) hFirst]

include wellFormed hKind

/-- A mark that jumps below a preformatted node has blank text in front of it. -/
theorem Jumps.blankBeforeMark (hFirst : forest.Reaches id first)
    (hSecond : forest.Reaches id second) (hBefore : forest.Before first second)
    (h : forest.Jumps first second) : forest.BlankBeforeMark id := by
  have linked := wellFormed.linked
  have hBlank := h.isBlankText hEnds
  obtain ⟨-, mark, -, -, hMark, hMarkSecond, hNot⟩ := h
  have hMarkBelow : forest.Reaches id mark :=
    (linked.reaches_total hSecond hMarkSecond).resolve_right fun h => hNot (h.trans hFirst)
  -- the mark is further down than the child that comes after the text
  have hBeforeMark : forest.Before first mark := by
    rcases hBefore with ⟨hNe, h⟩ | ⟨left, right, hEarlier, hLeft, hRight⟩
    · exact absurd (hEnds.eq_of_reaches (hBlank.imp fun _ h => .inl h.1) h) hNe
    · refine .inr ⟨left, right, hEarlier, hLeft, ?_⟩
      rcases linked.reaches_total hRight hMarkSecond with h | h
      · exact h
      · rcases hEarlier.reaches_left linked h with rfl | h
        · exact Reaches.refl forest mark
        · exact absurd (h.trans hLeft) hNot
  have hPair := wellFormed.pair_sublist_iff.mpr ⟨hFirst, hMarkBelow, hBeforeMark⟩
  rw [wellFormed.selfAndDescendants_eq, pair_sublist_cons_iff] at hPair
  refine ⟨first, mark, hPair.resolve_left ?_, hBlank, hMark⟩
  rintro ⟨rfl, -⟩
  exact not_isBlankText_of_preformatted hKind hBlank

variable (preserves : forest.Preserves after) (hReaches : forest.Reaches .root id)

include preserves hReaches

omit wellFormed in
/-- Preformatted nodes stay. -/
theorem Preserves.root_reaches_preformatted : after.Reaches .root id := by
  obtain ⟨label, hLabel, hKind⟩ := hKind
  exact preserves.reaches_of_label? hReaches hEnds.not_under hLabel (by simp [Node.IsHull, hKind])
    (by simp [Node.IsBreak, hKind]) (by simp [Node.IsBlankText, hKind])

omit wellFormed in
/-- Preformatted text stays below what it was below. -/
theorem Preserves.reaches_preformatted_iff (hText : forest.Has (·.kind = .text) text) :
    after.Reaches id text ↔ forest.Reaches id text := by
  have hId := preserves.root_reaches_preformatted hEnds hKind hReaches
  have settled : Node.Settled (·.kind = .preFormatted) :=
    Node.settled_kind (by decide) (by decide)
  constructor
  · exact preserves.reaches_of_has settled ((preserves.has_iff settled).mpr hKind) hText.mem
  · intro h
    refine preserves.reaches hKind.mem hId ?_ h
    have hUnder := under_preformatted hKind hText h
    obtain ⟨label, hLabel, hText⟩ := hText
    exact preserves.reaches_of_label? (hReaches.trans h) hEnds.not_under hLabel
      (by simp [Node.IsHull, hText]) (by simp [Node.IsBreak, hText]) fun _ => hUnder

omit wellFormed hEnds hReaches in
theorem Preserves.descendantsOfKind_text : after.descendantsOfKind id .text =
    (after.selfAndDescendants id).filter fun text => forest.kind? text = some .text := by
  have hAfter : after.Has (·.kind = .preFormatted) id :=
    (preserves.has_iff (Node.settled_kind (by decide) (by decide))).mpr hKind
  have settled : Node.Settled (·.kind = .text) := Node.settled_kind (by decide) (by decide)
  have hText : ∀ text, after.kind? text = some .text ↔ forest.kind? text = some .text :=
    fun text => by rw [← has_kind_iff, ← has_kind_iff, preserves.has_iff settled]
  rw [preserves.wellFormed.descendantsOfKind_text hAfter]
  simp only [hText]

/-- The preformatted texts that are left are those that there were. -/
theorem Preserves.mem_descendantsOfKind_text_iff :
    text ∈ after.descendantsOfKind id .text ↔ text ∈ forest.descendantsOfKind id .text := by
  rw [preserves.descendantsOfKind_text hKind,
    wellFormed.descendantsOfKind_text hKind, List.mem_filter,
    List.mem_filter, preserves.wellFormed.mem_selfAndDescendants_iff,
    wellFormed.mem_selfAndDescendants_iff, decide_eq_true_eq, ← has_kind_iff]
  exact and_congr_left (preserves.reaches_preformatted_iff hEnds hKind hReaches)

/-- They keep their words. -/
theorem Preserves.texts_eq_map :
    after.texts id = (after.descendantsOfKind id .text).map forest.caption := by
  refine List.map_congr_left fun text h => caption_congr ?_
  have hReached := preserves.wellFormed.mem_selfAndDescendants_iff.mp
    (List.mem_of_mem_filter (preserves.descendantsOfKind_text hKind ▸ h))
  rw [preserves.mem_descendantsOfKind_text_iff wellFormed hEnds hKind hReaches,
    descendantsOfKind, List.mem_filter, wellFormed.mem_descendants_iff, decide_eq_true_eq,
    ← has_kind_iff] at h
  exact preserves.preformatted h.2 (under_preformatted hKind h.2 h.1.2)
    ((preserves.root_reaches_preformatted hEnds hKind hReaches).trans hReached)

/-- **Preformatted texts agree** where they do not jump. -/
theorem Preserves.filter_texts {p : String → Bool}
    (hJumps : ∀ first second, p (forest.caption first) → forest.Reaches id first →
      forest.Reaches id second → forest.Before first second → ¬ forest.Jumps first second) :
    (after.texts id).filter p = (forest.texts id).filter p := by
  rw [preserves.texts_eq_map wellFormed hEnds hKind hReaches, texts, List.filter_map,
    List.filter_map, preserves.descendantsOfKind_text hKind,
    wellFormed.descendantsOfKind_text hKind, List.filter_filter,
    List.filter_filter]
  refine congrArg _ (preserves.filter_selfAndDescendants_eq wellFormed hKind.mem
    (preserves.root_reaches_preformatted hEnds hKind hReaches) ?_ ?_)
  · intro text h
    rw [Bool.and_eq_true, decide_eq_true_eq, ← has_kind_iff] at h
    exact preserves.reaches_preformatted_iff hEnds hKind hReaches h.2
  · intro first second hFirst _
    rw [Bool.and_eq_true] at hFirst
    exact hJumps first second hFirst.1

/-- **What preserves keeps preformatted text.** -/
theorem Preserves.keepsPreformatted : forest.KeepsPreformatted after id where
  mem_reachable := preserves.wellFormed.mem_reachable_iff.mpr
    (preserves.root_reaches_preformatted hEnds hKind hReaches)
  perm := by
    rw [preserves.texts_eq_map wellFormed hEnds hKind hReaches]
    refine List.Perm.map _ ((List.perm_ext_iff_of_nodup ?_ ?_).mpr fun text =>
      preserves.mem_descendantsOfKind_text_iff wellFormed hEnds hKind hReaches)
    · rw [preserves.descendantsOfKind_text hKind]
      exact (preserves.wellFormed.nodup_selfAndDescendants id).filter _
    · rw [wellFormed.descendantsOfKind_text hKind]
      exact (wellFormed.nodup_selfAndDescendants id).filter _
  filter_eq := by
    refine preserves.filter_texts wellFormed hEnds hKind hReaches ?_
    intro first second hFirst _ _ _ hJumps
    rw [isBlank_caption (hJumps.isBlankText hEnds)] at hFirst
    cases hFirst
  texts_eq hMarks := by
    have hAll : (after.texts id).filter (fun _ => true) = (forest.texts id).filter fun _ => true :=
      preserves.filter_texts wellFormed hEnds hKind hReaches
        fun first second _ hFirst hSecond hBefore hJumps =>
          hMarks (hJumps.blankBeforeMark wellFormed hEnds hKind hFirst hSecond hBefore)
    rwa [List.filter_true, List.filter_true] at hAll

end

/-- Links upwards do not matter to what becomes of preformatted text. -/
theorem SameDownwards.keepsPreformatted (same : forest.SameDownwards linked)
    (keeps : linked.KeepsPreformatted after id) : forest.KeepsPreformatted after id := by
  have hTexts : linked.texts id = forest.texts id := by
    rw [texts, texts, same.descendantsOfKind_eq]
    exact List.map_congr_left fun text _ => caption_congr (same.label?_eq text)
  have hMarks : linked.BlankBeforeMark id ↔ forest.BlankBeforeMark id := by
    simp only [BlankBeforeMark, same.descendants_eq, same.has_iff]
  refine ⟨keeps.mem_reachable, ?_, ?_, fun h => ?_⟩
  · rw [← hTexts]
    exact keeps.perm
  · rw [← hTexts]
    exact keeps.filter_eq
  · rw [← hTexts]
    exact keeps.texts_eq fun hLinked => h (hMarks.mp hLinked)

/-- **Preformatted text.** Whatever a parser hands over in which text ends branches, normalization
comes to its end and keeps preformatted text. -/
theorem normalize_keepsPreformatted (tree : ParseTree) (settings : Settings)
    (hEnds : (ofParseTree tree).TextEndsBranches)
    (hKind : (ofParseTree tree).kind? id = some .preFormatted) :
    ∃ rounds draft, (ofParseTree tree).normalize settings = .ok rounds draft ∧
      (ofParseTree tree).KeepsPreformatted draft.forest id := by
  obtain ⟨linked, tidied, after, rounds, same, course⟩ := Pass.exists_course tree settings
  have wellFormed := course.linked_wellFormed
  have preserves : linked.Preserves after := course.steps.preserves wellFormed
  rw [← has_kind_iff, ← same.has_iff] at hKind
  refine ⟨rounds, _, course.run, same.keepsPreformatted ?_⟩
  exact preserves.keepsPreformatted wellFormed (same.textEndsBranches hEnds) hKind
    (same.reaches_iff.mpr (reaches_ofParseTree (same.mem_iff.mp hKind.mem)))

/-- A preformatted term, a line break and a description. -/
def preformattedEntry : ParseTree :=
  .node .article "" [.node .preFormatted "" [
    .node .style ";" [.node .text "a" [] none none] none none,
    .node .text "\n" [] none none,
    .node .style ":" [.node .text "b" [] none none] none none] none none] none none

/-- In a preformatted entry text ends branches, so all texts are kept. -/
theorem normalize_keepsPreformatted_entry :
    (ofParseTree preformattedEntry).TextEndsBranches ∧
      (ofParseTree preformattedEntry).kind? ⟨1⟩ = some .preFormatted ∧
      ∃ rounds draft, (ofParseTree preformattedEntry).normalize {} = .ok rounds draft ∧
        (ofParseTree preformattedEntry).KeepsPreformatted draft.forest ⟨1⟩ := by
  have hEnds : (ofParseTree preformattedEntry).TextEndsBranches := by decide +kernel
  have hKind : (ofParseTree preformattedEntry).kind? ⟨1⟩ = some .preFormatted := by decide +kernel
  exact ⟨hEnds, hKind, normalize_keepsPreformatted preformattedEntry {} hEnds hKind⟩

/-- **The order of preformatted texts is not kept**: the description of a preformatted entry jumps
over the line break. -/
theorem not_forall_normalize_texts_eq :
    ¬ ∀ (tree : ParseTree) (settings : Settings) (id : NodeId),
      (ofParseTree tree).TextEndsBranches → (ofParseTree tree).kind? id = some .preFormatted →
        ∃ rounds draft, (ofParseTree tree).normalize settings = .ok rounds draft ∧
          id ∈ draft.forest.reachable ∧ draft.forest.texts id = (ofParseTree tree).texts id := by
  intro h
  obtain ⟨rounds, draft, hRun, -, hTexts⟩ :=
    h preformattedEntry {} ⟨1⟩ (by decide +kernel) (by decide +kernel)
  have hBefore : (ofParseTree preformattedEntry).texts ⟨1⟩ = ["a", "\n", "b"] := by decide +kernel
  have hObserved : observed (fun _ draft => draft.forest.texts ⟨1⟩)
      ((ofParseTree preformattedEntry).normalize {}) = some ["a", "b", "\n"] := by decide +kernel
  have hAfter := observe_eq hObserved hRun
  rw [hAfter, hBefore] at hTexts
  exact absurd hTexts (by decide)

end Forest

end WikiMarkup
