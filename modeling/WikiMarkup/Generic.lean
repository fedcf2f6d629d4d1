import WikiMarkup.Draft
import WikiMarkup.Forest.Navigation
import WikiMarkup.Text.Whitespace

/-!
# Resolving generic nodes

**Tags.** A generic tag with a heading name becomes a section of that level and loses its name. A
tag whose name is in the table becomes the kind listed there and keeps its name. Any other tag stays
as it is and is warned about.

**Groups.** A group only bundles nodes together. `flattenGroups` puts the children of each group in
its place, and treats the children that came up in the same way. A group at the root has no place to
give up and stays.

**Styles.** A generic style carries the literal token that opened it. `StyleMark.ofToken` reads the
token.

* **Quote marks** give emphasis. Five of them give strong text around emphasized text, for which
  a node is added.
* **Definition marks** are regrouped across siblings. The parser leaves a term and its
  descriptions side by side; resolving gathers them into one definition list. Blank text between
  them does not end the list. A description with no list before it is an indented block and keeps
  its token, the length of which tells how deep.
* **Named styles** become the kind in the table.

Any other style stays as it is and is warned about.

**The tables.** `styleTable` lists character styles by their markup token and `tagTable` lists tags
by name; `Kind.ofStyleToken?` and `Kind.ofTagName?` look a literal up. The quote marks and the
definition marks `;` and `:` are not in the table of styles, because their meaning depends on the
nodes around them. **Headings** `h1` to `h6` are tags apart: they make sections and give a level.
-/

namespace WikiMarkup

/-! ### The vocabulary -/

/-- Character styles by markup token; `s` is the older spelling of `strike`. -/
def styleTable : List (String × Kind) :=
  [("u", .underline), ("s", .strike), ("strike", .strike), ("small", .small), ("big", .big),
    ("sup", .sup), ("sub", .sub), ("cite", .cite), ("overline", .overline)]

/-- Tags by name. -/
def tagTable : List (String × Kind) :=
  [("code", .code), ("br", .breakingReturn), ("hr", .horizontalRule), ("index", .index),
    ("tt", .teletyped), ("ref", .reference), ("references", .referenceList),
    ("gallery", .gallery), ("center", .center), ("div", .div), ("span", .span),
    ("strike", .strike), ("imagemap", .imageMap)]

/-- Heading tags with the level each one gives. -/
def headingTable : List (String × UInt8) :=
  [("h1", 1), ("h2", 2), ("h3", 3), ("h4", 4), ("h5", 5), ("h6", 6)]

/-- The character style that a markup token stands for. -/
def Kind.ofStyleToken? (token : String) : Option Kind := styleTable.lookup token

/-- The kind that a tag name stands for. -/
def Kind.ofTagName? (tagName : String) : Option Kind := tagTable.lookup tagName

/-- The level of a heading tag. -/
def levelOfHeading? (tagName : String) : Option UInt8 := headingTable.lookup tagName

/-! ### Tags -/

/-- What a tag becomes, if its name has a meaning. -/
def Node.resolvedTag? (node : Node) : Option Node :=
  match levelOfHeading? node.caption with
  | some level =>
    some { node with kind := .docSection, headingLevel := some level, caption := "" }
  | none => (Kind.ofTagName? node.caption).map fun kind => { node with kind := kind }

namespace Pass

/-- Resolves a node if it is a tag. -/
def resolveTag (id : NodeId) : Pass Unit := do
  match ← node? id with
  | none => pure ()
  | some node =>
    if node.kind = .tag then
      match node.resolvedTag? with
      | some resolved => edit (modify (·.modify id fun _ => resolved))
      | none => warn (.unknownTag id node.caption)

/-- Resolves all tags. -/
def resolveTags : Pass Unit := walk resolveTag

end Pass

/-! ### Groups -/

namespace Edit

/-- Puts the children of a node in its place if it is a group below another node. -/
def flattenGroup (id : NodeId) : Edit Unit := do
  let forest ← get
  if forest.kind? id = some .group then
    match forest.parent? id with
    | some parent => replace parent id (forest.children id)
    | none => pure ()

/-- Flattens a node, then each child it had before. -/
def flattenFrom : (depth : Nat) → NodeId → Edit Unit
  | 0, id => fault (.endlessChain id)
  | depth + 1, id => do
    let children := (← get).children id
    flattenGroup id
    children.forM (flattenFrom depth)

/-- Flattens all groups below the root. -/
def flattenGroups : Edit Unit := do
  let depth := (← get).walkDepth
  flattenFrom depth .root

end Edit

/-! ### Styles -/

/-- What the token of a style asks for. -/
inductive StyleMark
  /-- Two quotes. -/
  | emphasis
  /-- Three quotes. -/
  | strong
  /-- Five quotes. -/
  | strongEmphasis
  /-- A semicolon. -/
  | term
  /-- One or more colons. -/
  | description
  /-- A token of the table. -/
  | named (kind : Kind)
  deriving DecidableEq

/-- What a token asks for, if it is known. -/
def StyleMark.ofToken (token : String) : Option StyleMark :=
  if token = "''" then some .emphasis
  else if token = "'''" then some .strong
  else if token = "'''''" then some .strongEmphasis
  else if token = ";" then some .term
  else if token.toList.head? = some ':' then some .description
  else (Kind.ofStyleToken? token).map .named

namespace Forest

/-- The definition list that ends just before a node, with at most blank text between. -/
def openListBefore (forest : Forest) : (steps : Nat) → NodeId → Option NodeId
  | 0, _ => none
  | steps + 1, id =>
    match forest.previous? id with
    | none => none
    | some before =>
      match forest.get? before with
      | none => none
      | some node =>
        if node.kind = .definitionList then some before
        else if node.kind = .text ∧ isBlank node.caption then forest.openListBefore steps before
        else none

/-- The definition list that a definition mark continues. -/
def openList? (forest : Forest) (id : NodeId) : Option NodeId :=
  forest.openListBefore (forest.size + 1) id

end Forest

namespace Edit

/-- Gives a node another kind and clears its token. -/
def retag (id : NodeId) (kind : Kind) : Edit Unit :=
  modify (·.modify id fun node => { node with kind := kind, caption := "" })

/-- Adds a node of a given kind between a node and its children. -/
def wrapChildren (id : NodeId) (kind : Kind) : Edit Unit := do
  let wrapper ← add { kind := kind }
  let children := (← get).children id
  children.forM (append wrapper)
  append id wrapper

/-- Makes a node the last entry of a list. -/
def appendEntry (list entry : NodeId) : Edit Unit := do
  match (← get).lastChild? list with
  | some last => moveBeside entry last false
  | none => append list entry

/-- Does to a style what its mark asks for. -/
def applyMark (id : NodeId) : StyleMark → Edit Unit
  | .emphasis => retag id .emphasized
  | .strong => retag id .strong
  | .strongEmphasis => do
    retag id .strong
    wrapChildren id .emphasized
  | .term => do
    match (← get).openList? id with
    | some list =>
      retag id .definitionTerm
      appendEntry list id
    | none =>
      retag id .definitionList
      wrapChildren id .definitionTerm
  | .description => do
    match (← get).openList? id with
    | some list =>
      retag id .definitionDescription
      appendEntry list id
    | none => modify (·.modify id fun node => { node with kind := .indented })
  | .named kind => retag id kind

end Edit

namespace Pass

/-- Resolves a node if it is a style. -/
def resolveStyle (id : NodeId) : Pass Unit := do
  match ← node? id with
  | none => pure ()
  | some node =>
    if node.kind = .style then
      match StyleMark.ofToken node.caption with
      | some mark => edit (Edit.applyMark id mark)
      | none => warn (.unknownStyle id node.caption)

/-- Resolves all styles. -/
def resolveStyles : Pass Unit := walk resolveStyle

end Pass

end WikiMarkup
