import WikiMarkup.Forest.Edit
import WikiMarkup.Text.Quoted

/-!
# Drafts and warnings

A draft is a forest that is being normalized, together with the warnings so far. A `Pass` works on
a draft; an edit of the forest alone is a pass that adds no warning.

**Warnings.** A generic node whose literal is in neither table keeps its kind, and a warning names
it. Warnings never stop normalization.

**The log** of a program that normalizes has one entry for each warning as it arises and one for
each run that comes to its end.
-/

namespace WikiMarkup

/-! ### Warnings -/

/-- A literal that could not be resolved. -/
inductive Warning
  /-- A tag with an unknown name. -/
  | unknownTag (node : NodeId) (tagName : String)
  /-- A style with an unknown token. -/
  | unknownStyle (node : NodeId) (token : String)
  deriving DecidableEq

namespace Warning

/-- The node that could not be resolved. -/
def node : Warning → NodeId
  | unknownTag node _ => node
  | unknownStyle node _ => node

/-- The literal that could not be resolved. -/
def literal : Warning → String
  | unknownTag _ tagName => tagName
  | unknownStyle _ token => token

/-- The wording of a warning. -/
def message : Warning → String
  | unknownTag node tagName => s!"unknown tag {quote tagName} at node {node.index}"
  | unknownStyle node token => s!"unknown style {quote token} at node {node.index}"

end Warning

/-- An entry of the log. -/
inductive LogEntry
  /-- A warning arose. -/
  | warned (warning : Warning)
  /-- A run came to its end. -/
  | normalized (nodes warnings rounds : Nat)
  deriving DecidableEq

/-- An entry of the log as a line, the level first. -/
def LogEntry.render : LogEntry → String
  | warned warning => "WARN " ++ warning.message
  | normalized nodes warnings rounds =>
    s!"DEBUG normalized {nodes} nodes with {warnings} warnings ({rounds} cleanup rounds)"

/-! ### Drafts -/

/-- A forest that is being normalized, with the warnings so far in the order they arose. -/
structure Draft where
  /-- The forest in its present state. -/
  forest : Forest
  /-- The warnings so far. -/
  warnings : List Warning := []

/-- A computation on a draft that may fail. -/
abbrev Pass := EStateM Error Draft

namespace Pass

/-- An edit of the forest as a pass. -/
def edit {α : Type} (change : Edit α) : Pass α := fun ⟨forest, warnings⟩ =>
  match change forest with
  | .ok result after => .ok result ⟨after, warnings⟩
  | .error failure after => .error failure ⟨after, warnings⟩

/-- Adds a warning. -/
def warn (warning : Warning) : Pass Unit :=
  modify fun draft => { draft with warnings := draft.warnings ++ [warning] }

/-- The node with a given identifier in the forest of the draft. -/
def node? (id : NodeId) : Pass (Option Node) := do
  return (← get).forest.get? id

/-- Visits every node from the root down. -/
def walk (visit : NodeId → Pass Unit) : Pass Unit := WikiMarkup.walk Draft.forest visit

end Pass

end WikiMarkup
