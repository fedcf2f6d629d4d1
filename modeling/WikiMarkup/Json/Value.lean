/-!
# JSON values

A value is kept as it was written where a reader of it may care. Numbers keep their digits.
Objects keep their members in order, repeated names included. A string whose escapes do not pair
up their surrogates is well-formed JSON but no text; it is `Json.text none`.

`Json.fields?` reads a record with named fields, from an object or from an array. `Json.depth` says
how deep arrays and objects nest. A value is `Json.Plain` if it is of the sort that programs send to
each other: its numbers are natural numbers of at most 64 bits, and its strings are texts.
-/

namespace WikiMarkup

/-- A JSON value. -/
inductive Json
  | null
  | bool (value : Bool)
  | number (literal : List Char)
  | text (content : Option String)
  | array (items : List Json)
  | object (members : List (Option String × Json))

namespace Json

instance : Inhabited Json := ⟨null⟩

/-! ### Records -/

/-- The value of the only member with a given name: `some none` if there is no such member, `none`
if there are several. -/
def member? (members : List (String × Json)) (name : String) : Option (Option Json) :=
  match members.filter fun member => member.1 == name with
  | [] => some none
  | [(_, value)] => some (some value)
  | _ => none

/-- The fields of a record in the order of their names, each one present or absent.

An object may leave out any field and may have other members; it may not repeat a field, and its
names have to be texts. An array gives the fields in order and may leave out the last ones. -/
def fields? (names : List String) : Json → Option (List (Option Json))
  | array items =>
    if items.length ≤ names.length then
      some (items.map some ++ List.replicate (names.length - items.length) none)
    else none
  | object members => do
    let named ← members.mapM fun (name, value) => name.map fun name => (name, value)
    names.mapM (member? named)
  | _ => none

/-- The value of a field that may be absent. -/
def field? {α : Type} (read : Json → Option α) (absent : α) : Option Json → Option α
  | none => some absent
  | some value => read value

/-- The content of a text. -/
def asText? : Json → Option String
  | text content => content
  | _ => none

/-- The value of a truth value. -/
def asBool? : Json → Option Bool
  | bool value => some value
  | _ => none

/-- The items of an array. -/
def asArray? : Json → Option (List Json)
  | array items => some items
  | _ => none

/-- The number with given decimal digits; `none` if something else than a digit occurs. -/
def decimal? (digits : List Char) : Option Nat :=
  if digits.all Char.isDigit && !digits.isEmpty then
    some (digits.foldl (fun sum digit => 10 * sum + (digit.toNat - '0'.toNat)) 0)
  else none

/-- The value of a natural number below 256 that is written without sign, point or exponent. -/
def asByte? : Json → Option UInt8
  | number literal => do
    let value ← decimal? literal
    if value < 256 then some value.toUInt8 else none
  | _ => none

/-- The value of what may be null. -/
def asNullable? {α : Type} (read : Json → Option α) : Json → Option (Option α)
  | null => some none
  | value => (read value).map some

/-! ### Making values -/

/-- A natural number as a value. -/
def ofNat (n : Nat) : Json := number (Nat.toDigits 10 n)

/-- A text as a value. -/
def ofText (content : String) : Json := text (some content)

/-- What may be null as a value. -/
def ofNullable {α : Type} (write : α → Json) : Option α → Json
  | none => null
  | some value => write value

/-- Values that programs send to each other. -/
inductive Plain : Json → Prop
  | null : Plain null
  | bool (value : Bool) : Plain (bool value)
  | ofNat {n : Nat} (hBits : n < UInt64.size) : Plain (ofNat n)
  | ofText (content : String) : Plain (ofText content)
  | array {items : List Json} (hItems : ∀ item ∈ items, Plain item) : Plain (array items)
  | object {members : List (Option String × Json)} (hNames : ∀ member ∈ members, member.1.isSome)
      (hValues : ∀ member ∈ members, Plain member.2) : Plain (object members)

/-! ### Depth -/

mutual

/-- How many arrays and objects stand inside each other in a value. -/
def depth : Json → Nat
  | array items => depthItems items + 1
  | object members => depthMembers members + 1
  | _ => 0

/-- The greatest depth among the items of an array. -/
def depthItems : List Json → Nat
  | [] => 0
  | item :: items => max item.depth (depthItems items)

/-- The greatest depth among the members of an object. -/
def depthMembers : List (Option String × Json) → Nat
  | [] => 0
  | member :: members => max (depthMember member) (depthMembers members)

/-- The depth of a member of an object. -/
def depthMember : Option String × Json → Nat
  | (_, value) => value.depth

end

theorem depthItems_le_iff {items : List Json} {bound : Nat} :
    depthItems items ≤ bound ↔ ∀ item ∈ items, item.depth ≤ bound := by
  induction items with
  | nil => simp [depthItems]
  | cons item items ih => rw [depthItems, Nat.max_le, ih, List.forall_mem_cons]

theorem depthMembers_le_iff {members : List (Option String × Json)} {bound : Nat} :
    depthMembers members ≤ bound ↔ ∀ member ∈ members, member.2.depth ≤ bound := by
  induction members with
  | nil => simp [depthMembers]
  | cons member members ih =>
    rw [depthMembers, depthMember, Nat.max_le, ih, List.forall_mem_cons]

end Json

end WikiMarkup
