/-!
# White space in text

The characters of Unicode's `White_Space` property, text made of nothing else, and what line breaks
in running text come to.

**Blank text.** `isSpace` decides the property, `trim` drops spaces from both ends of a text, and
`isBlank` holds of a text in which nothing but spaces occurs; `isBlank_iff` says so.

**Folding lines.** Where a line breaks in running text, the words on both sides are set on one line
with one space between them. A **run** is a longest stretch of spaces. `foldRun` says what stands
for a run: one space if a line breaks in it, and else the run itself. `foldRuns` does so with every
run of a text while reading it once. `foldLines?` is for callers that want to know whether there was
anything to fold, which `foldLines?_eq_none_iff` answers.
-/

namespace WikiMarkup

/-! ### Blank text -/

/-- The ranges of code points with the property `White_Space`. -/
def spaceRanges : List (Nat × Nat) :=
  [(0x09, 0x0D), (0x20, 0x20), (0x85, 0x85), (0xA0, 0xA0), (0x1680, 0x1680), (0x2000, 0x200A),
    (0x2028, 0x2029), (0x202F, 0x202F), (0x205F, 0x205F), (0x3000, 0x3000)]

/-- Whether a character has the property `White_Space`. -/
def isSpace (c : Char) : Bool :=
  spaceRanges.any fun range => range.1 ≤ c.toNat && c.toNat ≤ range.2

/-- A text without the spaces at its two ends. -/
def trim (text : List Char) : List Char :=
  ((text.dropWhile isSpace).reverse.dropWhile isSpace).reverse

/-- Whether a text is empty or consists of spaces alone. -/
def isBlank (text : String) : Bool := text.toList.all isSpace

/-- A text is blank exactly when each of its characters is a space. -/
theorem isBlank_iff {text : String} : isBlank text ↔ ∀ c ∈ text.toList, isSpace c := by
  simp [isBlank]

/-- Every character that is white space in ASCII is a space. -/
theorem isSpace_of_isWhitespace {c : Char} (h : c.isWhitespace) : isSpace c := by
  simp only [Char.isWhitespace, Bool.or_eq_true, decide_eq_true_eq] at h
  rcases h with ((rfl | rfl) | rfl) | rfl <;> decide

/-! ### Folding lines -/

/-- The characters that end a line or jump to a stop: newline, tab, carriage return. -/
def isLineBreak (c : Char) : Bool := c == '\n' || c == '\t' || c == '\r'

/-- What stands for a run of spaces, given whether a line breaks in it. -/
def foldRun (run : List Char) (breaks : Bool) : List Char := if breaks then [' '] else run

/-- Folds the runs of a text, given in reverse the part of a run that has been read so far, and
whether a line breaks in that part. -/
def foldRuns : (pending : List Char) → (breaks : Bool) → List Char → List Char
  | pending, breaks, [] => foldRun pending.reverse breaks
  | pending, breaks, c :: rest =>
    if isSpace c then foldRuns (c :: pending) (breaks || isLineBreak c) rest
    else foldRun pending.reverse breaks ++ c :: foldRuns [] false rest

/-- The text with its lines folded into one; `none` if no line breaks in it. -/
def foldLines? (text : String) : Option String :=
  if text.toList.any isLineBreak then some (String.ofList (foldRuns [] false text.toList))
  else none

/-- There is nothing to fold exactly when no line breaks. -/
theorem foldLines?_eq_none_iff {text : String} :
    foldLines? text = none ↔ ∀ c ∈ text.toList, isLineBreak c = false := by
  simp [foldLines?]

end WikiMarkup
