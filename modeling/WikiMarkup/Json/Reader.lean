import WikiMarkup.Json.Value

/-!
# Reading JSON

The grammar of RFC 8259 and nothing beyond it: no comments, no trailing commas, no leading zeros,
no raw control characters in strings, no text after the value, and no blanks but space, tab,
newline and carriage return.

Each reader takes the characters to come and gives what it has read and what is left. Values nest
to any depth; the bound that `readValue` takes is never reached if it exceeds the length of the
text, because every bracket takes up a character.
-/

namespace WikiMarkup

namespace Json

/-- The blanks that may stand between tokens. -/
def isSeparator (c : Char) : Bool := c == ' ' || c == '\t' || c == '\n' || c == '\r'

/-- The characters to come after any blanks. -/
def skipBlanks (input : List Char) : List Char := input.dropWhile isSeparator

/-! ### Strings -/

/-- A piece of a string: a character, or a code unit of UTF-16 given by an escape. -/
inductive TextPart
  | char (c : Char)
  | unit (value : Nat)

/-- The value of a hexadecimal digit of either case. -/
def hexDigit? (c : Char) : Option Nat :=
  if '0' ≤ c && c ≤ '9' then some (c.toNat - '0'.toNat)
  else if 'a' ≤ c && c ≤ 'f' then some (c.toNat - 'a'.toNat + 10)
  else if 'A' ≤ c && c ≤ 'F' then some (c.toNat - 'A'.toNat + 10)
  else none

/-- The value of four hexadecimal digits. -/
def hexUnit? (a b c d : Char) : Option Nat := do
  let high := (← hexDigit? a) * 16 + (← hexDigit? b)
  let low := (← hexDigit? c) * 16 + (← hexDigit? d)
  some (high * 256 + low)

/-- The character that a short escape stands for. -/
def shortEscape? (c : Char) : Option Char :=
  if c = '"' then some '"'
  else if c = '\\' then some '\\'
  else if c = '/' then some '/'
  else if c = 'b' then some '\x08'
  else if c = 'f' then some '\x0c'
  else if c = 'n' then some '\n'
  else if c = 'r' then some '\r'
  else if c = 't' then some '\t'
  else none

/-- The pieces of a string after its opening quote, and what follows the closing quote. -/
def readParts : List Char → Option (List TextPart × List Char)
  | [] => none
  | '"' :: rest => some ([], rest)
  | '\\' :: 'u' :: a :: b :: c :: d :: rest => do
    let value ← hexUnit? a b c d
    let (parts, rest) ← readParts rest
    some (.unit value :: parts, rest)
  | '\\' :: c :: rest => do
    let c ← shortEscape? c
    let (parts, rest) ← readParts rest
    some (.char c :: parts, rest)
  | c :: rest =>
    if c.toNat < 0x20 || c == '\\' then none
    else do
      let (parts, rest) ← readParts rest
      some (.char c :: parts, rest)

/-- Whether a code unit is the first half of a surrogate pair. -/
def isHighSurrogate (unit : Nat) : Bool := 0xD800 ≤ unit && unit < 0xDC00

/-- Whether a code unit is the second half of a surrogate pair. -/
def isLowSurrogate (unit : Nat) : Bool := 0xDC00 ≤ unit && unit < 0xE000

/-- The character of a surrogate pair. -/
def pairedChar (high low : Nat) : Char :=
  Char.ofNat (0x10000 + (high - 0xD800) * 0x400 + (low - 0xDC00))

/-- The characters that pieces of a string make up; `none` if a surrogate is not paired. -/
def joinParts : List TextPart → Option (List Char)
  | [] => some []
  | .char c :: rest => (joinParts rest).map (c :: ·)
  | .unit high :: .unit low :: rest =>
    if isHighSurrogate high then
      if isLowSurrogate low then (joinParts rest).map (pairedChar high low :: ·) else none
    else if isLowSurrogate high then none
    else (joinParts (.unit low :: rest)).map (Char.ofNat high :: ·)
  | .unit unit :: rest =>
    if isHighSurrogate unit || isLowSurrogate unit then none
    else (joinParts rest).map (Char.ofNat unit :: ·)

/-- A string after its opening quote. -/
def readText (input : List Char) : Option (Option String × List Char) := do
  let (parts, rest) ← readParts input
  some ((joinParts parts).map String.ofList, rest)

/-! ### Numbers -/

/-- One or more digits. -/
def readDigits (input : List Char) : Option (List Char × List Char) :=
  if (input.takeWhile Char.isDigit).isEmpty then none
  else some (input.takeWhile Char.isDigit, input.dropWhile Char.isDigit)

/-- The whole part of a number: zero alone, or digits that do not start with zero. -/
def readWhole : List Char → Option (List Char × List Char)
  | '0' :: rest => some (['0'], rest)
  | input => readDigits input

/-- The sign of a number, which may be missing. -/
def readMinus : List Char → List Char × List Char
  | '-' :: rest => (['-'], rest)
  | input => ([], input)

/-- The fraction of a number, which may be missing. -/
def readFraction : List Char → Option (List Char × List Char)
  | '.' :: rest => do
    let (digits, rest) ← readDigits rest
    some ('.' :: digits, rest)
  | input => some ([], input)

/-- The exponent of a number, which may be missing. -/
def readExponent : List Char → Option (List Char × List Char)
  | e :: rest =>
    if e == 'e' || e == 'E' then
      match rest with
      | sign :: rest =>
        if sign == '+' || sign == '-' then do
          let (digits, rest) ← readDigits rest
          some (e :: sign :: digits, rest)
        else do
          let (digits, rest) ← readDigits (sign :: rest)
          some (e :: digits, rest)
      | [] => none
    else some ([], e :: rest)
  | [] => some ([], [])

/-- A number, as it is written. -/
def readNumber (input : List Char) : Option (List Char × List Char) := do
  let (minus, rest) := readMinus input
  let (whole, rest) ← readWhole rest
  let (fraction, rest) ← readFraction rest
  let (exponent, rest) ← readExponent rest
  some (minus ++ whole ++ fraction ++ exponent, rest)

/-! ### Values -/

section

variable {α : Type} (read : List Char → Option (α × List Char)) (close : Char)

/-- One or more entries with commas between them, up to a closing bracket. -/
def readEntries : (bound : Nat) → List Char → Option (List α × List Char)
  | 0, _ => none
  | bound + 1, input => do
    let (entry, rest) ← read input
    match skipBlanks rest with
    | [] => none
    | c :: rest =>
      if c = close then some ([entry], rest)
      else if c = ',' then do
        let (entries, rest) ← readEntries bound rest
        some (entry :: entries, rest)
      else none

/-- Entries with commas between them after an opening bracket, up to a closing bracket. -/
def readEnclosed (input : List Char) : Option (List α × List Char) :=
  match skipBlanks input with
  | [] => none
  | c :: rest => if c = close then some ([], rest) else readEntries read close input.length input

end

/-- A member of an object, given how to read its value. -/
def readMember (read : List Char → Option (Json × List Char)) (input : List Char) :
    Option ((Option String × Json) × List Char) :=
  match skipBlanks input with
  | '"' :: rest => do
    let (name, rest) ← readText rest
    match skipBlanks rest with
    | ':' :: rest => do
      let (value, rest) ← read rest
      some ((name, value), rest)
    | _ => none
  | _ => none

/-- A value, nested to at most a given depth. -/
def readValue : (bound : Nat) → List Char → Option (Json × List Char)
  | 0, _ => none
  | bound + 1, input =>
    match skipBlanks input with
    | 'n' :: 'u' :: 'l' :: 'l' :: rest => some (.null, rest)
    | 't' :: 'r' :: 'u' :: 'e' :: rest => some (.bool true, rest)
    | 'f' :: 'a' :: 'l' :: 's' :: 'e' :: rest => some (.bool false, rest)
    | '"' :: rest => (readText rest).map fun (content, rest) => (.text content, rest)
    | '[' :: rest =>
      (readEnclosed (readValue bound) ']' rest).map fun (items, rest) => (.array items, rest)
    | '\x7b' :: rest =>
      (readEnclosed (readMember (readValue bound)) '\x7d' rest).map fun (members, rest) =>
        (.object members, rest)
    | other => (readNumber other).map fun (literal, rest) => (.number literal, rest)

/-- The value that a text consists of. -/
def parse? (source : String) : Option Json := do
  let (value, rest) ← readValue (source.toList.length + 1) source.toList
  if (skipBlanks rest).isEmpty then some value else none

end Json

end WikiMarkup
