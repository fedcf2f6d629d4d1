import WikiMarkup.Forest.Document
import WikiMarkup.Json.Value

/-!
# Exchanging documents as text

Documents come and go as JSON texts. How JSON is written and read, and how a record becomes a JSON
value, is not settled here: it is the business of a library of its own. An `Exchange` stands for
such a library, and all that the program does with texts takes one as a parameter.

**Laws.** What may be relied on is what such libraries document. `Exchange.TextLaws` says of texts
that reading undoes writing, down to a limit of 127 arrays and objects inside each other.
`Exchange.TreeLaws` says of parse trees that a node is a record of five named fields, whose children
are an array of such records.
-/

namespace WikiMarkup

variable {α : Type}

/-- How values of a type are exchanged as texts. -/
structure Exchange (α : Type) where
  /-- How many arrays and objects may stand inside each other in a text that is read. -/
  limit : Nat
  /-- A JSON value as a text without spaces. -/
  write : Json → String
  /-- The JSON value that stands for a value. -/
  encode : α → Json
  /-- The value that a JSON value stands for. -/
  decode? : Json → Option α
  /-- The value that a text stands for. -/
  read? : String → Option α

/-- The record of a node, given the values that stand for its children: all fields, in order. -/
def ParseTree.record (kind : Kind) (caption : String) (children : List Json)
    (headingLevel : Option UInt8) (inlineHint : Option Bool) : Json :=
  .object
    [(some "kind", .ofText kind.name),
      (some "caption", .ofText caption),
      (some "children", .array children),
      (some "heading_level", .ofNullable (fun level => .ofNat level.toNat) headingLevel),
      (some "inline_hint", .ofNullable .bool inlineHint)]

namespace Exchange

/-- A value as text. -/
def render (format : Exchange α) (value : α) : String := format.write (format.encode value)

/-- The forest that a text describes. -/
def forest? (format : Exchange ParseTree) (source : String) : Option Forest :=
  (format.read? source).map Forest.ofParseTree

/-! ### Laws -/

/-- What is documented of texts that are written and read. -/
structure TextLaws (format : Exchange α) : Prop where
  /-- At most 127 arrays and objects may stand inside each other. -/
  limit_eq : format.limit = 127
  /-- What has been written is handed to the decoder as it was, if it is within the limit. -/
  read?_write : ∀ value : Json, value.Plain → value.depth ≤ format.limit →
    format.read? (format.write value) = format.decode? value
  /-- Beyond the limit nothing is read. This is said of what has been encoded, in which there is no
  member that the decoder would pass over. -/
  read?_write_eq_none : ∀ value : α, format.limit < (format.encode value).depth →
    format.read? (format.write (format.encode value)) = none

/-- What is documented of records with named fields, as far as parse trees are such records. -/
structure TreeLaws (format : Exchange ParseTree) : Prop where
  /-- A node is encoded with all its fields, and its children one by one. -/
  encode_node : ∀ kind caption children headingLevel inlineHint,
    format.encode (.node kind caption children headingLevel inlineHint) =
      ParseTree.record kind caption (children.map format.encode) headingLevel inlineHint
  /-- A record is decoded field by field, and the children one by one. -/
  decode?_record : ∀ kind caption items headingLevel inlineHint,
    format.decode? (ParseTree.record kind caption items headingLevel inlineHint) =
      (items.mapM format.decode?).map
        (ParseTree.node kind caption · headingLevel inlineHint)

end Exchange

end WikiMarkup
