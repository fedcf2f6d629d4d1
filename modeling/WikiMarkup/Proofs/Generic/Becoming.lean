import WikiMarkup.Generic
import WikiMarkup.Proofs.Forest.Rearrangement

/-!
# What a node may become

Links apart, a pass changes a node in one of two ways: it folds the lines of a text, or it resolves
a tag or a style. `Node.Becomes` is the outcome of any number of such changes. Most of what matters
about a node is therefore settled from the start: whether it is text and blank, whether it is a list
or a paragraph or preformatted, and whether it is a forced line break, as a tag or as what the tag
is resolved to. `Forest.Relabelled` is one such change in a forest.
-/

namespace WikiMarkup

namespace Kind

/-- The kinds that a tag or a style may be resolved to. -/
def isResolved : Kind → Bool
  | docSection | emphasized | strong | definitionList | definitionTerm | definitionDescription
  | indented | overline | underline | sub | sup | small | big | cite | strike | code
  | breakingReturn | horizontalRule | index | teletyped | reference | referenceList | gallery
  | center | div | span | imageMap => true
  | _ => false

theorem not_isGeneric_of_isResolved {kind : Kind} (h : kind.isResolved) : ¬ kind.isGeneric := by
  cases kind <;> simp [isResolved, isGeneric] at h ⊢

end Kind

theorem mem_of_lookup {table : List (String × Kind)} {literal : String} {kind : Kind}
    (h : table.lookup literal = some kind) : (literal, kind) ∈ table := by
  obtain ⟨front, back, hParts, -⟩ := List.lookup_eq_some_iff.mp h
  rw [hParts]
  exact List.mem_append_right front List.mem_cons_self

namespace Node

/-- Text of spaces alone. -/
def IsBlankText (node : Node) : Prop := node.kind = .text ∧ isBlank node.caption

/-- A forced line break, or a tag that is resolved to one. -/
def IsBreak (node : Node) : Prop :=
  node.kind = .breakingReturn ∨ (node.kind = .tag ∧ node.caption = "br")

instance : DecidablePred IsBreak := fun _ => inferInstanceAs (Decidable (_ ∨ _))

/-- A style that is regrouped with its siblings. -/
def IsDefinitionMark (node : Node) : Prop :=
  node.kind = .style ∧ (StyleMark.ofToken node.caption = some .term ∨
    StyleMark.ofToken node.caption = some .description)

/-- A tag or a style whose literal has a meaning. -/
def IsResolvable (node : Node) : Prop :=
  (node.kind = .tag ∧ node.resolvedTag? ≠ none) ∨
    (node.kind = .style ∧ StyleMark.ofToken node.caption ≠ none)

variable {former middle latter : Node}

/-- What a node may become in the course of normalization, links apart. -/
inductive Becomes (former latter : Node) : Prop
  /-- It stays what it is. -/
  | same (h : latter = former)
  /-- It is text, and stays blank or not. -/
  | folded (hFormer : former.kind = .text) (hLatter : latter.kind = .text)
      (hBlank : isBlank latter.caption = isBlank former.caption)
  /-- It is resolved, and a break only if it was to be one. -/
  | resolved (hFormer : former.IsResolvable) (hLatter : latter.kind.isResolved)
      (hBreak : latter.kind = .breakingReturn ↔ former.IsBreak)

theorem IsResolvable.isGeneric (h : former.IsResolvable) : former.kind.isGeneric := by
  rcases h with ⟨h, -⟩ | ⟨h, -⟩ <;> rw [h] <;> rfl

namespace Becomes

theorem trans (h : former.Becomes middle) (hLatter : middle.Becomes latter) :
    former.Becomes latter := by
  cases hLatter with
  | same hSame => rwa [hSame]
  | folded hMiddle hLatter hBlank =>
    cases h with
    | same hSame => exact .folded (hSame ▸ hMiddle) hLatter (hSame ▸ hBlank)
    | folded hFormer _ hFormerBlank => exact .folded hFormer hLatter (hBlank.trans hFormerBlank)
    | resolved _ hResolved => rw [hMiddle] at hResolved; cases hResolved
  | resolved hMiddle hLatter hBreak =>
    cases h with
    | same hSame => exact .resolved (hSame ▸ hMiddle) hLatter (hSame ▸ hBreak)
    | folded _ hText =>
      have hGeneric := hMiddle.isGeneric
      rw [hText] at hGeneric
      cases hGeneric
    | resolved _ hResolved =>
      exact absurd hMiddle.isGeneric (Kind.not_isGeneric_of_isResolved hResolved)

variable (h : former.Becomes latter)

include h

/-- What is generic has stayed what it is. -/
theorem eq_of_isGeneric (hGeneric : latter.kind.isGeneric) : latter = former := by
  cases h with
  | same hSame => exact hSame
  | folded _ hText => rw [hText] at hGeneric; cases hGeneric
  | resolved _ hResolved => exact absurd hGeneric (Kind.not_isGeneric_of_isResolved hResolved)

/-- What is not to be resolved keeps its kind. -/
theorem kind_eq_of_not_isResolvable (hFormer : ¬ former.IsResolvable) :
    latter.kind = former.kind := by
  cases h with
  | same hSame => rw [hSame]
  | folded hText hLatter => rw [hText, hLatter]
  | resolved hResolvable => exact absurd hResolvable hFormer

/-- A tag or a style that has no meaning stays what it is. -/
theorem eq_of_not_isResolvable (hGeneric : former.kind.isGeneric)
    (hFormer : ¬ former.IsResolvable) : latter = former := by
  refine h.eq_of_isGeneric ?_
  rwa [h.kind_eq_of_not_isResolvable hFormer]

/-- Whether a node has one of the kinds that nothing is resolved to or from is settled. -/
theorem kind_eq_iff {kind : Kind} (hResolved : ¬ kind.isResolved)
    (hOther : kind ≠ .tag ∧ kind ≠ .style) : latter.kind = kind ↔ former.kind = kind := by
  cases h with
  | same hSame => rw [hSame]
  | folded hText hLatter => rw [hText, hLatter]
  | resolved hFormer hLatter =>
    refine iff_of_false (fun h => hResolved (h ▸ hLatter)) ?_
    rintro rfl
    rcases hFormer with ⟨hTag, -⟩ | ⟨hStyle, -⟩
    · exact hOther.1 hTag
    · exact hOther.2 hStyle

theorem isBlankText_iff : latter.IsBlankText ↔ former.IsBlankText := by
  cases h with
  | same hSame => rw [hSame]
  | folded hText hLatter hBlank => rw [IsBlankText, IsBlankText, hText, hLatter, hBlank]
  | resolved hFormer hLatter =>
    refine iff_of_false (fun h => ?_) fun h => ?_
    · rw [h.1] at hLatter
      cases hLatter
    · have hGeneric := hFormer.isGeneric
      rw [h.1] at hGeneric
      cases hGeneric

theorem isBreak_iff : latter.IsBreak ↔ former.IsBreak := by
  cases h with
  | same hSame => rw [hSame]
  | folded hText hLatter => simp [IsBreak, hText, hLatter]
  | resolved _ hLatter hBreak =>
    rw [← hBreak, IsBreak]
    refine or_iff_left_of_imp fun h => ?_
    rw [h.1] at hLatter
    cases hLatter

end Becomes

/-! ### Resolving -/

/-- A tag is resolved to a node with the same links. -/
theorem resolvedTag?_eq_some {resolved : Node} (h : former.resolvedTag? = some resolved) :
    resolved.children = former.children ∧ resolved.parent = former.parent ∧
      resolved.kind.isResolved ∧ (resolved.kind = .breakingReturn ↔ former.caption = "br") := by
  unfold resolvedTag? at h
  split at h
  next hLevel =>
    cases h
    refine ⟨rfl, rfl, rfl, iff_of_false (fun h => by cases h) ?_⟩
    rintro h
    rw [h] at hLevel
    cases hLevel
  next =>
    obtain ⟨kind, hKind, rfl⟩ := Option.map_eq_some_iff.mp h
    have hTable : ∀ entry ∈ tagTable,
        entry.2.isResolved ∧ (entry.2 = .breakingReturn ↔ entry.1 = "br") := by decide
    exact ⟨rfl, rfl, hTable _ (mem_of_lookup hKind)⟩

theorem resolvedTag?_unlinked (node : Node) :
    node.unlinked.resolvedTag? = node.resolvedTag?.map unlinked := by
  unfold resolvedTag?
  simp only [unlinked]
  split <;> simp [unlinked, Function.comp_def]

theorem becomes_of_resolvedTag? {resolved : Node} (hTag : former.kind = .tag)
    (h : former.resolvedTag? = some resolved) : former.Becomes resolved := by
  obtain ⟨-, -, hResolved, hBreak⟩ := resolvedTag?_eq_some h
  refine .resolved (.inl ⟨hTag, by simp [h]⟩) hResolved ?_
  rw [hBreak, IsBreak, hTag]
  simp

/-- A style may become any kind that styles are resolved to. -/
theorem becomes_of_style (hStyle : former.kind = .style)
    (hMark : StyleMark.ofToken former.caption ≠ none) (hLatter : latter.kind.isResolved)
    (hBreak : latter.kind ≠ .breakingReturn) : former.Becomes latter := by
  refine .resolved (.inr ⟨hStyle, hMark⟩) hLatter (iff_of_false hBreak ?_)
  simp [IsBreak, hStyle]

end Node

/-- No token asks for a kind that styles are not resolved to. -/
theorem StyleMark.isResolved_of_ofToken {token : String} {kind : Kind}
    (h : StyleMark.ofToken token = some (.named kind)) :
    kind.isResolved ∧ kind ≠ .breakingReturn := by
  have hNamed : (Kind.ofStyleToken? token).map StyleMark.named = some (.named kind) := by
    unfold StyleMark.ofToken at h
    split_ifs at h
    all_goals first | exact h | cases h
  obtain ⟨found, hFound, hKind⟩ := Option.map_eq_some_iff.mp hNamed
  cases hKind
  have hTable : ∀ entry ∈ styleTable, entry.2.isResolved ∧ entry.2 ≠ .breakingReturn := by decide
  exact hTable _ (mem_of_lookup hFound)

namespace Forest

/-- A node has become something that is not generic, and nothing else has changed. -/
structure Relabelled (forest after : Forest) (id : NodeId) : Prop where
  /-- The links are the same. -/
  same : forest.SameLinks after
  /-- The other nodes are the same. -/
  others : ∀ {other : NodeId}, other ≠ id → after.label? other = forest.label? other
  /-- The node has become what it is now. -/
  becomes : ∀ {former : Node}, forest.label? id = some former →
    ∃ latter, after.label? id = some latter ∧ former.Becomes latter
  /-- It is not generic. -/
  not_isGeneric : ∀ label, after.label? id = some label → ¬ label.kind.isGeneric

/-- To change a node and not its links relabels it. -/
theorem relabelled_modify {forest : Forest} {id : NodeId} {found : Node} {change : Node → Node}
    (hFound : forest.get? id = some found)
    (hLinks : (change found).children = found.children ∧ (change found).parent = found.parent)
    (hBecomes : found.unlinked.Becomes (change found).unlinked)
    (hGeneric : ¬ (change found).kind.isGeneric) :
    forest.Relabelled (forest.modify id change) id where
  same := sameLinks_modify fun node hNode => by
    rw [hFound, Option.some_inj] at hNode
    exact hNode ▸ hLinks
  others hOther := label?_modify_of_ne (Ne.symm hOther)
  becomes {former} hFormer := by
    rw [label?_of_get? hFound, Option.some_inj] at hFormer
    refine ⟨(change found).unlinked, ?_, hFormer ▸ hBecomes⟩
    rw [label?_modify_self, hFound, Option.map_some]
  not_isGeneric label h := by
    rw [label?_modify_self, hFound, Option.map_some, Option.some_inj] at h
    exact h ▸ hGeneric

end Forest

end WikiMarkup
