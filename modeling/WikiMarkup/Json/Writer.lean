import WikiMarkup.Json.Value

/-!
# Writing JSON

Values are written without any space. In a string only what has to be escaped is escaped: the
quote, the backslash, and the characters below the space, by a short escape if there is one and by
four hexadecimal digits if not.
-/

namespace WikiMarkup

namespace Json

/-- A code unit as an escape of four lower-case hexadecimal digits. -/
def unitEscape (unit : Nat) : List Char :=
  let digits := Nat.toDigits 16 unit
  ['\\', 'u'] ++ List.replicate (4 - digits.length) '0' ++ digits

/-- A character inside a string. -/
def writeChar (c : Char) : List Char :=
  if c = '"' then ['\\', '"']
  else if c = '\\' then ['\\', '\\']
  else if c = '\n' then ['\\', 'n']
  else if c = '\r' then ['\\', 'r']
  else if c = '\t' then ['\\', 't']
  else if c.toNat = 0x08 then ['\\', 'b']
  else if c.toNat = 0x0C then ['\\', 'f']
  else if c.toNat < 0x20 then unitEscape c.toNat
  else [c]

/-- A string. -/
def writeText (content : List Char) : List Char :=
  '"' :: content.flatMap writeChar ++ ['"']

/-- A string whose content may be no text; an unpaired surrogate stands for all such content. -/
def writeString : Option String → List Char
  | some content => writeText content.toList
  | none => '"' :: unitEscape 0xD800 ++ ['"']

mutual

/-- A value. -/
def write : Json → List Char
  | null => ['n', 'u', 'l', 'l']
  | bool true => ['t', 'r', 'u', 'e']
  | bool false => ['f', 'a', 'l', 's', 'e']
  | number literal => literal
  | text content => writeString content
  | array items => '[' :: writeItems items ++ [']']
  | object members => '\x7b' :: writeMembers members ++ ['\x7d']

/-- The items of an array, with commas between them. -/
def writeItems : List Json → List Char
  | [] => []
  | item :: items => write item ++ writeMoreItems items

/-- Further items of an array, with a comma before each. -/
def writeMoreItems : List Json → List Char
  | [] => []
  | item :: items => ',' :: write item ++ writeMoreItems items

/-- The members of an object, with commas between them. -/
def writeMembers : List (Option String × Json) → List Char
  | [] => []
  | member :: members => writeMember member ++ writeMoreMembers members

/-- Further members of an object, with a comma before each. -/
def writeMoreMembers : List (Option String × Json) → List Char
  | [] => []
  | member :: members => ',' :: writeMember member ++ writeMoreMembers members

/-- A member of an object. -/
def writeMember : Option String × Json → List Char
  | (name, value) => writeString name ++ ':' :: write value

end

/-- A value as text. -/
def render (value : Json) : String := String.ofList value.write

end Json

end WikiMarkup
