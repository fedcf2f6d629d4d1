import WikiMarkup.Flow
import WikiMarkup.Generic

/-!
# Normalization

What a parser hands over becomes a document in a fixed order of passes: link the parents, resolve
tags, flatten groups, tidy text, resolve styles, lift lists, drop breaks. Each pass relies on what
those before it have established. In the end the flow settles, since resolved styles make new
boundaries.

**Cleaning up the flow.** Three passes take away what only stands in the flow because of the way a
page is written down.

* `tidyTexts`: the source of a page is full of line ends between blocks, which the parser keeps as
  text. Blank text that touches a block is detached. The lines of all other text are folded if the
  settings ask for it. Text below a preformatted node is never touched.
* `liftLists`: a paragraph that holds one list and nothing else gives up its place to the list. A
  paragraph at the root has no place to give up and stays.
* `dropBreaks`: a forced line break that touches a block only adds an empty line, because the block
  ends the line already. Such breaks are detached.

**Settling.** One pass can leave work for another: a break that is dropped may leave a list alone
in its paragraph. `settle` repeats the three until a round changes no link. A round that does
change links lowers the number of listed children, so that number bounds the rounds.

**Key definitions.** `Pass.normalize` runs everything on a draft. `Forest.normalize` starts from a
forest; `runLog` tells what a run writes to the log.
-/

namespace WikiMarkup

namespace Edit

/-! ### Text -/

/-- Folds the lines in the caption of a node. -/
def foldCaption (id : NodeId) (node : Node) : Edit Unit :=
  match foldLines? node.caption with
  | some folded => modify (·.modify id fun node => { node with caption := folded })
  | none => pure ()

/-- Tidies a node if it is text that is not preformatted and has a parent. -/
def tidyText (settings : Settings) (id : NodeId) : Edit Unit := do
  let forest ← get
  match forest.get? id with
  | none => pure ()
  | some node =>
    match node.parent with
    | none => pure ()
    | some parent =>
      if node.kind = .text ∧ ¬ forest.hasAncestorOfKind id .preFormatted then
        if isBlank node.caption && forest.touchesBlock settings id then remove parent id
        else if settings.foldLines then foldCaption id node

/-- Tidies all text. -/
def tidyTexts (settings : Settings) : Edit Unit := walk (tidyText settings)

/-! ### Lists -/

/-- Puts a list in the place of its paragraph if it is alone there. -/
def liftList (id : NodeId) : Edit Unit := do
  let forest ← get
  if forest.kind? id = some .itemList then
    match forest.parent? id with
    | none => pure ()
    | some paragraph =>
      if forest.kind? paragraph = some .paragraph ∧ (forest.siblings id).isEmpty then
        match forest.parent? paragraph with
        | none => pure ()
        | some grandparent => replace grandparent paragraph [id]

/-- Lifts all lists that are alone in a paragraph. -/
def liftLists : Edit Unit := walk liftList

/-! ### Forced line breaks -/

/-- Detaches a node if it is a forced line break that touches a block. -/
def dropBreak (settings : Settings) (id : NodeId) : Edit Unit := do
  let forest ← get
  if forest.kind? id = some .breakingReturn then
    match forest.parent? id with
    | some parent => if forest.touchesBlock settings id then remove parent id
    | none => pure ()

/-- Detaches all forced line breaks that touch a block. -/
def dropBreaks (settings : Settings) : Edit Unit := walk (dropBreak settings)

/-! ### Settling -/

/-- One round of the three passes. -/
def cleanUp (settings : Settings) : Edit Unit := do
  tidyTexts settings
  liftLists
  dropBreaks settings

/-- Repeats the round until it changes no link, and counts the rounds on top of those done. -/
def settleFrom (settings : Settings) : (bound : Nat) → (done : Nat) → Edit Nat
  | 0, _ => fault .unsettled
  | bound + 1, done => do
    let revision := (← get).revision
    cleanUp settings
    if (← get).revision = revision then pure (done + 1)
    else settleFrom settings bound (done + 1)

/-- Repeats the round until it changes no link, and counts the rounds. -/
def settle (settings : Settings) : Edit Nat := do
  let listed := (← get).listed.length
  settleFrom settings (listed + 1) 0

end Edit

/-! ### The passes in order -/

/-- Normalizes the forest of a draft, and counts the rounds it took to settle. -/
def Pass.normalize (settings : Settings) : Pass Nat := do
  edit Edit.linkUpwards
  resolveTags
  edit Edit.flattenGroups
  edit (Edit.tidyTexts settings)
  resolveStyles
  edit Edit.liftLists
  edit (Edit.dropBreaks settings)
  edit (Edit.settle settings)

/-- How a run of normalization ends: with the number of rounds or a failure, and with a draft. -/
abbrev Run := EStateM.Result Error Draft Nat

/-- Normalizes a forest. -/
def Forest.normalize (forest : Forest) (settings : Settings) : Run :=
  Pass.normalize settings { forest := forest }

/-- What a run writes to the log: its warnings, and a closing entry if it came to its end. -/
def runLog : Run → List LogEntry
  | .ok rounds draft =>
    draft.warnings.map .warned ++
      [.normalized draft.forest.size draft.warnings.length rounds]
  | .error _ draft => draft.warnings.map .warned

end WikiMarkup
