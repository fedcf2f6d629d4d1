/-!
# Kinds of nodes

What a node of a wiki page means. The markup parser already tells document structure and most
leaves apart; what it does not resolve arrives as one of three **generic** kinds:

* a `style` node carries the literal markup token that opened it (two quotes, `;`, `sup`),
* a `tag` node carries the literal tag name (`ref`, `br`, `h2`),
* a `group` node bundles parser output and means nothing.

The remaining kinds are specific. Each kind has one spelling, `Kind.name`, used by outlines and
by the exchange format; `ofName?_eq_some_iff` says that reading a spelling inverts writing it.
-/

namespace WikiMarkup

/-- The meaning of a node. -/
inductive Kind
  | book | chapter | article | docSection | paragraph | preFormatted
  | table | row | cell | itemList | item | timeline
  | text | url | namedUrl | link | categoryLink | specialLink | imageLink | math | magic
  | style | tag | group
  | emphasized | strong | definitionList | definitionTerm | definitionDescription | indented
  | overline | underline | sub | sup | small | big | cite | strike
  | code | breakingReturn | horizontalRule | index | teletyped | reference | referenceList
  | gallery | center | div | span | imageMap
  deriving DecidableEq

namespace Kind

/-- A page is an article unless something else is said. -/
instance : Inhabited Kind := ⟨article⟩

/-- All kinds: document structure, leaves, the generic three, styles, tags. -/
def all : List Kind :=
  [book, chapter, article, docSection, paragraph, preFormatted,
    table, row, cell, itemList, item, timeline,
    text, url, namedUrl, link, categoryLink, specialLink, imageLink, math, magic,
    style, tag, group,
    emphasized, strong, definitionList, definitionTerm, definitionDescription, indented,
    overline, underline, sub, sup, small, big, cite, strike,
    code, breakingReturn, horizontalRule, index, teletyped, reference, referenceList,
    gallery, center, div, span, imageMap]

/-- The spelling of a kind in outlines and in the exchange format. -/
def name : Kind → String
  | book => "Book"
  | chapter => "Chapter"
  | article => "Article"
  | docSection => "Section"
  | paragraph => "Paragraph"
  | preFormatted => "PreFormatted"
  | table => "Table"
  | row => "Row"
  | cell => "Cell"
  | itemList => "ItemList"
  | item => "Item"
  | timeline => "Timeline"
  | text => "Text"
  | url => "Url"
  | namedUrl => "NamedUrl"
  | link => "Link"
  | categoryLink => "CategoryLink"
  | specialLink => "SpecialLink"
  | imageLink => "ImageLink"
  | math => "Math"
  | magic => "Magic"
  | style => "Style"
  | tag => "Tag"
  | group => "Group"
  | emphasized => "Emphasized"
  | strong => "Strong"
  | definitionList => "DefinitionList"
  | definitionTerm => "DefinitionTerm"
  | definitionDescription => "DefinitionDescription"
  | indented => "Indented"
  | overline => "Overline"
  | underline => "Underline"
  | sub => "Sub"
  | sup => "Sup"
  | small => "Small"
  | big => "Big"
  | cite => "Cite"
  | strike => "Strike"
  | code => "Code"
  | breakingReturn => "BreakingReturn"
  | horizontalRule => "HorizontalRule"
  | index => "Index"
  | teletyped => "Teletyped"
  | reference => "Reference"
  | referenceList => "ReferenceList"
  | gallery => "Gallery"
  | center => "Center"
  | div => "Div"
  | span => "Span"
  | imageMap => "ImageMap"

/-- The kind with a given spelling; case matters. -/
def ofName? (spelling : String) : Option Kind :=
  all.find? fun kind => kind.name == spelling

/-- A generic kind has not been narrowed to a meaning of its own. -/
def isGeneric : Kind → Bool
  | style | tag | group => true
  | _ => false

/-! ### Spelling -/

theorem mem_all (kind : Kind) : kind ∈ all := by
  cases kind <;> decide

theorem ofName?_name (kind : Kind) : ofName? kind.name = some kind := by
  cases kind <;> decide

/-- A spelling is read as a kind exactly when it is the kind's own spelling. -/
theorem ofName?_eq_some_iff {spelling : String} {kind : Kind} :
    ofName? spelling = some kind ↔ spelling = kind.name := by
  refine ⟨fun h => ?_, fun h => h ▸ ofName?_name kind⟩
  have found := List.find?_some h
  simpa using (beq_iff_eq.mp found).symm

/-- Different kinds have different spellings. -/
theorem name_injective {first second : Kind} (h : first.name = second.name) : first = second := by
  have same : ofName? first.name = ofName? second.name := congrArg ofName? h
  rw [ofName?_name, ofName?_name] at same
  exact Option.some.inj same

end Kind

end WikiMarkup
