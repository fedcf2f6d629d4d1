import WikiMarkup.Exchange
import WikiMarkup.Flow
import WikiMarkup.Json.Reader
import WikiMarkup.Json.Writer

/-!
# Exchanging documents as JSON

The exchange that the program runs with: how kinds, parse trees and settings become JSON values, and
how these are read. `ParseTree.json` and `Settings.json` put it together.

A **kind** is its name, or an object whose only member has that name and the value null. A **parse
tree** is a record of `kind`, `caption`, `children`, `heading_level` and `inline_hint`; **settings**
are a record of `display_math` and `collapse_whitespace`. What a record leaves out gets its usual
value.

**Depth.** Arrays and objects that make up a parse tree nest at most `maxDepth` deep. Members that
no record asks for are passed over and do not count.
-/

namespace WikiMarkup

/-- How deep the arrays and objects of a parse tree may nest. -/
def maxDepth : Nat := 127

/-- A kind, within a given number of levels of nesting. -/
def Kind.ofJson? (levels : Nat) : Json → Option Kind
  | .text (some spelling) => Kind.ofName? spelling
  | .object [(some spelling, .null)] => if levels = 0 then none else Kind.ofName? spelling
  | _ => none

/-! ### Parse trees -/

/-- The names of the fields of a parse tree. -/
def ParseTree.fieldNames : List String :=
  ["kind", "caption", "children", "heading_level", "inline_hint"]

/-- A parse tree, within a given number of levels of nesting. -/
def ParseTree.ofJson? : (levels : Nat) → Json → Option ParseTree
  | 0, _ => none
  | levels + 1, value =>
    match value.fields? ParseTree.fieldNames with
    | some [kind, caption, children, headingLevel, inlineHint] => do
      let kind ← Json.field? (Kind.ofJson? levels) default kind
      let caption ← Json.field? Json.asText? "" caption
      let children ← Json.field? (fun value =>
        match levels with
        | 0 => none
        | levels + 1 => value.asArray?.bind (·.mapM (ParseTree.ofJson? levels))) [] children
      let headingLevel ← Json.field? (Json.asNullable? Json.asByte?) none headingLevel
      let inlineHint ← Json.field? (Json.asNullable? Json.asBool?) none inlineHint
      some (.node kind caption children headingLevel inlineHint)
    | _ => none

mutual

/-- A parse tree as JSON, with all its fields. -/
def ParseTree.toJson : ParseTree → Json
  | .node kind caption children headingLevel inlineHint =>
    ParseTree.record kind caption (ParseTree.toJsonAll children) headingLevel inlineHint

/-- Several parse trees as JSON. -/
def ParseTree.toJsonAll : List ParseTree → List Json
  | [] => []
  | tree :: trees => tree.toJson :: ParseTree.toJsonAll trees

end

/-- The parse tree that a text describes. -/
def ParseTree.parse? (source : String) : Option ParseTree := do
  ParseTree.ofJson? maxDepth (← Json.parse? source)

/-- Parse trees are exchanged as JSON. Decoding is the same at any number of levels that suffice for
the value. -/
def ParseTree.json : Exchange ParseTree where
  limit := maxDepth
  write := Json.render
  encode := ParseTree.toJson
  decode? value := ParseTree.ofJson? value.depth value
  read? := ParseTree.parse?

/-- A parse tree as text. -/
def ParseTree.render (tree : ParseTree) : String := ParseTree.json.render tree

/-! ### Settings -/

/-- The names of the fields of settings. -/
def Settings.fieldNames : List String := ["display_math", "collapse_whitespace"]

/-- Settings from JSON. -/
def Settings.ofJson? (value : Json) : Option Settings :=
  match value.fields? Settings.fieldNames with
  | some [displayOpenings, foldLines] => do
    let displayOpenings ← Json.field? (fun value => do (← value.asArray?).mapM Json.asText?)
      defaultOpenings displayOpenings
    let foldLines ← Json.field? Json.asBool? true foldLines
    some { displayOpenings := displayOpenings, foldLines := foldLines }
  | _ => none

/-- Settings as JSON, with all their fields. -/
def Settings.toJson (settings : Settings) : Json :=
  .object
    [(some "display_math", .array (settings.displayOpenings.map .ofText)),
      (some "collapse_whitespace", .bool settings.foldLines)]

/-- The settings that a text describes. -/
def Settings.parse? (source : String) : Option Settings := do
  Settings.ofJson? (← Json.parse? source)

/-- Settings are exchanged as JSON. -/
def Settings.json : Exchange Settings where
  limit := maxDepth
  write := Json.render
  encode := Settings.toJson
  decode? := Settings.ofJson?
  read? := Settings.parse?

/-- Settings as text. -/
def Settings.render (settings : Settings) : String := Settings.json.render settings

end WikiMarkup
