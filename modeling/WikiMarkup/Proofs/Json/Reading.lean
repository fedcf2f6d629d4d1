import WikiMarkup.Json.Reader
import WikiMarkup.Json.Writer
import Mathlib.Data.List.Basic

/-!
# Reading inverts writing

What has been written is read back, whatever follows it in a text. For a string nothing is asked of
what follows, since the closing quote ends it (`readText_writeString`); a number ends only where no
digit, point or exponent follows, so a value has to be followed by the end of the text or by the
punctuation of the array or object around it (`Closed`).

Writing leaves some choices to the reader. The writer gives a control character by its code unit,
and one unit never pairs up with the next, because the units of a surrogate pair are no
control characters (`joinParts_map_part`).

**Key result.** `Plain.parse?_render`: a plain value is read back from its text. Nothing is asked of
its depth: every bracket takes up a character, so the bound that `parse?` gives to `readValue`
suffices.
-/

namespace WikiMarkup

namespace Json

/-! ### Strings -/

/-- The piece that a character of a string is read back as. -/
def part (c : Char) : TextPart :=
  if c.toNat < 0x20 ∧ c ∉ ['\n', '\r', '\t', '\x08', '\x0c'] then .unit c.toNat else .char c

/-- The code unit of a control character has two digits. -/
theorem unitEscape_eq {unit : Nat} (h : unit < 0x20) :
    unitEscape unit =
      ['\\', 'u', '0', '0', Nat.digitChar (unit / 16), Nat.digitChar (unit % 16)] := by
  have hTable : ∀ unit : Fin 0x20, unitEscape unit =
    ['\\', 'u', '0', '0', Nat.digitChar (unit / 16), Nat.digitChar (unit % 16)] := by decide
  exact hTable ⟨unit, h⟩

/-- The four digits of a control character are read as its code unit. -/
theorem hexUnit?_digits {unit : Nat} (h : unit < 0x20) :
    hexUnit? '0' '0' (Nat.digitChar (unit / 16)) (Nat.digitChar (unit % 16)) = some unit := by
  have hTable : ∀ unit : Fin 0x20,
    hexUnit? '0' '0' (Nat.digitChar (unit / 16)) (Nat.digitChar (unit % 16)) = some ↑unit := by
    decide
  exact hTable ⟨unit, h⟩

variable {input rest : List Char} {parts : List TextPart}

/-- A short escape is read as the character it stands for. -/
theorem readParts_short {letter c : Char} (hLetter : shortEscape? letter = some c)
    (hRead : readParts input = some (parts, rest)) :
    readParts ('\\' :: letter :: input) = some (.char c :: parts, rest) := by
  have hUnit : letter ≠ 'u' := by
    rintro rfl
    simp [shortEscape?] at hLetter
  rw [readParts.eq_4 letter input fun _ _ _ _ _ h => absurd h hUnit, hLetter, hRead]
  rfl

/-- An escape of four digits is read as a code unit. -/
theorem readParts_unit {a b c d : Char} {unit : Nat} (hUnit : hexUnit? a b c d = some unit)
    (hRead : readParts input = some (parts, rest)) :
    readParts ('\\' :: 'u' :: a :: b :: c :: d :: input) = some (.unit unit :: parts, rest) := by
  rw [readParts, hUnit, hRead]
  rfl

/-- A character that needs no escape is read as it is. -/
theorem readParts_plain {c : Char} (hQuote : c ≠ '"') (hBackslash : c ≠ '\\')
    (hControl : ¬ c.toNat < 0x20) (hRead : readParts input = some (parts, rest)) :
    readParts (c :: input) = some (.char c :: parts, rest) := by
  rw [readParts.eq_5 c input hQuote (fun _ _ _ _ _ h => absurd h hBackslash)
    (fun _ _ h => absurd h hBackslash), hRead]
  simp [hControl, hBackslash]

/-- A character is read back as one piece. -/
theorem readParts_writeChar (c : Char) (hRead : readParts input = some (parts, rest)) :
    readParts (writeChar c ++ input) = some (part c :: parts, rest) := by
  unfold writeChar
  split_ifs with hQuote hBackslash hNewline hReturn hTab hBackspace hFeed hControl
  · subst hQuote
    exact readParts_short (by decide) hRead
  · subst hBackslash
    exact readParts_short (by decide) hRead
  · subst hNewline
    exact readParts_short (by decide) hRead
  · subst hReturn
    exact readParts_short (by decide) hRead
  · subst hTab
    exact readParts_short (by decide) hRead
  · obtain rfl : c = '\x08' := Char.toNat_inj.mp hBackspace
    exact readParts_short (by decide) hRead
  · obtain rfl : c = '\x0c' := Char.toNat_inj.mp hFeed
    exact readParts_short (by decide) hRead
  · have hPart : part c = .unit c.toNat := by
      have hBackspace : c ≠ '\x08' := fun h => hBackspace (by rw [h]; rfl)
      have hFeed : c ≠ '\x0c' := fun h => hFeed (by rw [h]; rfl)
      simp [part, hControl, hNewline, hReturn, hTab, hBackspace, hFeed]
    rw [hPart, unitEscape_eq hControl]
    exact readParts_unit (hexUnit?_digits hControl) hRead
  · have hPart : part c = .char c := if_neg fun h => hControl h.1
    rw [hPart]
    exact readParts_plain hQuote hBackslash hControl hRead

/-- The inside of a string is read back piece by piece, up to its closing quote. -/
theorem readParts_flatMap_writeChar (content rest : List Char) :
    readParts (content.flatMap writeChar ++ '"' :: rest) = some (content.map part, rest) := by
  induction content with
  | nil => exact readParts.eq_2 rest
  | cons c content ih =>
    rw [List.flatMap_cons, List.append_assoc]
    exact readParts_writeChar c ih

/-- A code unit that is no surrogate is a character by itself. -/
theorem joinParts_unit {unit : Nat} (hHigh : isHighSurrogate unit = false)
    (hLow : isLowSurrogate unit = false) (parts : List TextPart) :
    joinParts (.unit unit :: parts) = (joinParts parts).map (Char.ofNat unit :: ·) := by
  match parts with
  | [] => simp [joinParts, hHigh, hLow]
  | .char c :: parts => simp [joinParts, hHigh, hLow]
  | .unit next :: parts => simp [joinParts.eq_3, hHigh, hLow]

/-- The pieces of a written string make up its content. -/
theorem joinParts_map_part (content : List Char) : joinParts (content.map part) = some content := by
  induction content with
  | nil => rfl
  | cons c content ih =>
    rw [List.map_cons]
    by_cases hControl : c.toNat < 0x20 ∧ c ∉ ['\n', '\r', '\t', '\x08', '\x0c']
    · have hHigh : isHighSurrogate c.toNat = false := by
        simp only [isHighSurrogate, Bool.and_eq_false_iff, decide_eq_false_iff_not]
        omega
      have hLow : isLowSurrogate c.toNat = false := by
        simp only [isLowSurrogate, Bool.and_eq_false_iff, decide_eq_false_iff_not]
        omega
      rw [part, if_pos hControl, joinParts_unit hHigh hLow, ih, Char.ofNat_toNat]
      rfl
    · rw [part, if_neg hControl, joinParts.eq_2, ih]
      rfl

/-- A string is read back up to its closing quote, even if its content is no text. -/
theorem readText_writeString (content : Option String) (rest : List Char) :
    ∃ inside, writeString content ++ rest = '"' :: inside ∧
      readText inside = some (content, rest) := by
  cases content with
  | none =>
    refine ⟨unitEscape 0xD800 ++ '"' :: rest, by simp [writeString], ?_⟩
    have hRead : readParts (unitEscape 0xD800 ++ '"' :: rest) = some ([.unit 0xD800], rest) :=
      readParts_unit (by decide) (readParts.eq_2 rest)
    rw [readText, hRead]
    rfl
  | some content =>
    refine ⟨content.toList.flatMap writeChar ++ '"' :: rest, by simp [writeString, writeText], ?_⟩
    rw [readText, readParts_flatMap_writeChar]
    simp [joinParts_map_part]

/-! ### Numbers -/

/-- What may follow a value: the end of the text, or the punctuation of the array or object that the
value stands in. -/
def Closed (rest : List Char) : Prop := ∀ c ∈ rest.head?, c ∈ [',', ']', '\x7d']

/-- No digit, point or exponent may follow a value. -/
theorem Closed.head_ne {rest : List Char} (closed : Closed rest) :
    ∀ c ∈ rest.head?, c.isDigit = false ∧ c ≠ '.' ∧ (c == 'e' || c == 'E') = false := by
  intro c hHead
  have hMem := closed c hHead
  simp only [List.mem_cons, List.not_mem_nil, or_false] at hMem
  obtain rfl | rfl | rfl := hMem <;> decide

/-- Digits are read up to what closes the number. -/
theorem readDigits_append {digits rest : List Char} (hDigits : ∀ c ∈ digits, c.isDigit)
    (hSome : digits ≠ []) (closed : Closed rest) :
    readDigits (digits ++ rest) = some (digits, rest) := by
  have hTake : rest.takeWhile Char.isDigit = [] := by
    cases rest with
    | nil => rfl
    | cons c rest => exact List.takeWhile_cons_of_neg (by simp [(closed.head_ne c rfl).1])
  have hDrop : rest.dropWhile Char.isDigit = rest := by
    cases rest with
    | nil => rfl
    | cons c rest => exact List.dropWhile_cons_of_neg (by simp [(closed.head_ne c rfl).1])
  rw [readDigits, List.takeWhile_append_of_pos hDigits, List.dropWhile_append_of_pos hDigits,
    hTake, hDrop, List.append_nil, if_neg (by simpa using hSome)]

/-- The digits of a number are digits, and only zero begins with the digit zero. -/
theorem toDigits_eq_cons (n : Nat) : ∃ digit digits,
    Nat.toDigits 10 n = digit :: digits ∧ digit.isDigit ∧ (0 < n → digit ≠ '0') := by
  induction n using Nat.strongRecOn with
  | _ n ih =>
    rw [Nat.toDigits_eq_if (by decide)]
    split
    next hSmall =>
      have hTable : ∀ n : Fin 10,
          (Nat.digitChar n).isDigit ∧ (0 < n.val → Nat.digitChar n ≠ '0') := by decide
      exact ⟨_, [], rfl, hTable ⟨n, hSmall⟩⟩
    next hLarge =>
      obtain ⟨digit, digits, hDigits, hDigit, hNe⟩ := ih (n / 10) (by omega)
      exact ⟨digit, _, by rw [hDigits, List.cons_append], hDigit, fun _ => hNe (by omega)⟩

/-- The whole part of a number is read back with all its digits. -/
theorem readWhole_toDigits (n : Nat) {rest : List Char} (closed : Closed rest) :
    readWhole (Nat.toDigits 10 n ++ rest) = some (Nat.toDigits 10 n, rest) := by
  rcases Nat.eq_zero_or_pos n with rfl | hPos
  · rfl
  · have hRead : readDigits (Nat.toDigits 10 n ++ rest) = some (Nat.toDigits 10 n, rest) :=
      readDigits_append (fun _ => Nat.isDigit_of_mem_toDigits (by decide) (by decide))
        Nat.toDigits_ne_nil closed
    obtain ⟨digit, digits, hDigits, -, hNe⟩ := toDigits_eq_cons n
    rw [hDigits] at hRead ⊢
    rw [List.cons_append, readWhole.eq_2 _ fun _ h => hNe hPos (List.cons.inj h).1]
    exact hRead

/-- A natural number is read back with all its digits. -/
theorem readNumber_toDigits (n : Nat) {rest : List Char} (closed : Closed rest) :
    readNumber (Nat.toDigits 10 n ++ rest) = some (Nat.toDigits 10 n, rest) := by
  have hMinus : readMinus (Nat.toDigits 10 n ++ rest) = ([], Nat.toDigits 10 n ++ rest) := by
    obtain ⟨digit, digits, hDigits, hDigit, -⟩ := toDigits_eq_cons n
    rw [hDigits]
    refine readMinus.eq_2 _ fun _ h => ?_
    rw [(List.cons.inj h).1] at hDigit
    exact absurd hDigit (by decide)
  have hFraction : readFraction rest = some ([], rest) := by
    cases rest with
    | nil => rfl
    | cons c rest =>
      exact readFraction.eq_2 _ fun _ h => (closed.head_ne c rfl).2.1 (List.cons.inj h).1
  have hExponent : readExponent rest = some ([], rest) := by
    cases rest with
    | nil => rfl
    | cons c rest => rw [readExponent.eq_def]; simp [(closed.head_ne c rfl).2.2]
  simp [readNumber, hMinus, readWhole_toDigits n closed, hFraction, hExponent]

/-! ### Arrays and objects -/

/-- Entries with commas between them. -/
def separated {α : Type} (encode : α → List Char) : List α → List Char
  | [] => []
  | entry :: entries => encode entry ++ entries.flatMap (',' :: encode ·)

/-- What an entry may begin with: no blank and no closing bracket. -/
def Opens (written : List Char) : Prop :=
  ∃ c tail, written = c :: tail ∧ isSeparator c = false ∧ c ∉ [']', '\x7d']

theorem skipBlanks_cons {c : Char} (hBlank : isSeparator c = false) (input : List Char) :
    skipBlanks (c :: input) = c :: input :=
  List.dropWhile_cons_of_neg (by simp [hBlank])

theorem isSeparator_of_close {close : Char} (hClose : close ∈ [']', '\x7d']) :
    isSeparator close = false := by
  simp only [List.mem_cons, List.not_mem_nil, or_false] at hClose
  obtain rfl | rfl := hClose <;> decide

/-- The items of an array are written with commas between them. -/
theorem writeItems_eq (items : List Json) : writeItems items = separated write items := by
  have hMore : ∀ items, writeMoreItems items = items.flatMap (',' :: write ·) := fun items => by
    induction items with
    | nil => rfl
    | cons item items ih => rw [writeMoreItems, ih, List.flatMap_cons]
  cases items with
  | nil => rfl
  | cons item items => rw [writeItems, hMore, separated]

/-- The members of an object are written with commas between them. -/
theorem writeMembers_eq (members : List (Option String × Json)) :
    writeMembers members = separated writeMember members := by
  have hMore : ∀ members, writeMoreMembers members = members.flatMap (',' :: writeMember ·) :=
    fun members => by
      induction members with
      | nil => rfl
      | cons member members ih => rw [writeMoreMembers, ih, List.flatMap_cons]
  cases members with
  | nil => rfl
  | cons member members => rw [writeMembers, hMore, separated]

section

variable {α : Type} {read : List Char → Option (α × List Char)} {encode : α → List Char}
  {close : Char} {rest : List Char}

theorem length_encode_le (encode : α → List Char) {entry : α} {entries : List α}
    (hMem : entry ∈ entries) : (encode entry).length ≤ (separated encode entries).length := by
  cases entries with
  | nil => cases hMem
  | cons first more =>
    rw [separated, List.length_append]
    rcases List.mem_cons.mp hMem with rfl | hMem
    · exact Nat.le_add_right _ _
    · obtain ⟨front, back, rfl⟩ := List.append_of_mem hMem
      simp only [List.flatMap_append, List.flatMap_cons, List.length_append, List.length_cons]
      omega

theorem length_le_separated (encode : α → List Char) (first : α) (more : List α) :
    more.length ≤ (separated encode (first :: more)).length := by
  have hMore : more.length ≤ (more.flatMap (',' :: encode ·)).length := by
    induction more with
    | nil => exact Nat.le_refl 0
    | cons entry more ih =>
      rw [List.flatMap_cons, List.length_append, List.length_cons, List.length_cons]
      omega
  rw [separated, List.length_append]
  omega

/-- Entries are read back one by one, up to the closing bracket. -/
theorem readEntries_separated (hClose : close ∈ [']', '\x7d']) {bound : Nat} {first : α}
    {more : List α}
    (hRead : ∀ entry ∈ first :: more, ∀ rest, Closed rest →
      read (encode entry ++ rest) = some (entry, rest))
    (hBound : more.length < bound) :
    readEntries read close bound (separated encode (first :: more) ++ close :: rest) =
      some (first :: more, rest) := by
  have hBlank := skipBlanks_cons (isSeparator_of_close hClose) rest
  induction more generalizing first bound with
  | nil =>
    obtain ⟨bound, rfl⟩ := Nat.exists_eq_succ_of_ne_zero (Nat.ne_of_gt hBound)
    have hFirst := hRead first (List.mem_cons_self) (close :: rest) fun c hHead => by
      obtain rfl := Option.mem_some.mp hHead
      exact List.mem_cons_of_mem _ hClose
    simp [readEntries, separated, hFirst, hBlank]
  | cons second more ih =>
    obtain ⟨bound, rfl⟩ := Nat.exists_eq_succ_of_ne_zero (Nat.ne_of_gt (Nat.zero_lt_of_lt hBound))
    have hMore := ih (fun entry hMem => hRead entry (List.mem_cons_of_mem _ hMem))
      (Nat.lt_of_succ_lt_succ hBound)
    have hFirst := hRead first (List.mem_cons_self)
      (',' :: (separated encode (second :: more) ++ close :: rest)) (by simp [Closed])
    have hComma : ¬ (',' = close) := by
      rintro rfl
      exact absurd hClose (by decide)
    have hSplit : separated encode (first :: second :: more) ++ close :: rest =
        encode first ++ ',' :: (separated encode (second :: more) ++ close :: rest) := by
      simp [separated]
    have hSkip : ∀ input, skipBlanks (',' :: input) = ',' :: input := fun input => rfl
    rw [hSplit, readEntries, hFirst]
    simp [hSkip, hComma, hMore]

/-- Entries are read back up to the closing bracket. -/
theorem readEnclosed_separated (hClose : close ∈ [']', '\x7d']) {entries : List α}
    (hOpens : ∀ entry ∈ entries, Opens (encode entry))
    (hRead : ∀ entry ∈ entries, ∀ rest, Closed rest →
      read (encode entry ++ rest) = some (entry, rest)) :
    readEnclosed read close (separated encode entries ++ close :: rest) =
      some (entries, rest) := by
  cases entries with
  | nil =>
    have hBlank := skipBlanks_cons (isSeparator_of_close hClose) rest
    simp [readEnclosed, separated, hBlank]
  | cons first more =>
    have hBound : more.length < (separated encode (first :: more) ++ close :: rest).length := by
      have hLength := length_le_separated encode first more
      rw [List.length_append, List.length_cons]
      omega
    have hEntries : readEntries read close _ (separated encode (first :: more) ++ close :: rest) =
        some (first :: more, rest) := readEntries_separated hClose hRead hBound
    obtain ⟨c, tail, hFirst, hBlank, hNe⟩ := hOpens first List.mem_cons_self
    have hHead : separated encode (first :: more) ++ close :: rest =
        c :: (tail ++ (more.flatMap (',' :: encode ·) ++ close :: rest)) := by
      simp [separated, hFirst]
    have hSkip : skipBlanks (separated encode (first :: more) ++ close :: rest) =
        c :: (tail ++ (more.flatMap (',' :: encode ·) ++ close :: rest)) := by
      rw [hHead, skipBlanks_cons hBlank]
    rw [readEnclosed, hSkip]
    simp only
    rw [if_neg (by rintro rfl; exact hNe hClose)]
    exact hEntries

end

/-! ### Values -/

theorem opens_digit {digit : Char} (hDigit : digit.isDigit) (tail : List Char) :
    Opens (digit :: tail) := by
  refine ⟨digit, tail, rfl, Bool.eq_false_iff.mpr fun hBlank => ?_, fun hMem => ?_⟩
  · simp only [isSeparator, Bool.or_eq_true, beq_iff_eq] at hBlank
    obtain ((rfl | rfl) | rfl) | rfl := hBlank <;> exact absurd hDigit (by decide)
  · simp only [List.mem_cons, List.not_mem_nil, or_false] at hMem
    obtain rfl | rfl := hMem <;> exact absurd hDigit (by decide)

/-- A digit begins a number, for it begins no other value. -/
theorem readValue_digit {digit : Char} (hDigit : digit.isDigit) (bound : Nat)
    (input : List Char) :
    readValue (bound + 1) (digit :: input) =
      (readNumber (digit :: input)).map fun (literal, rest) => (.number literal, rest) := by
  obtain ⟨_, _, hHead, hBlank, -⟩ := opens_digit hDigit input
  cases hHead
  rw [readValue, skipBlanks_cons hBlank]
  split
  all_goals first
    | rfl
    | next h => exact absurd ((List.cons.inj h).1 ▸ hDigit) (by decide)

theorem opens_writeString (content : Option String) (tail : List Char) :
    Opens (writeString content ++ tail) := by
  obtain ⟨inside, hWritten, -⟩ := readText_writeString content tail
  exact ⟨'"', inside, hWritten, by decide, by decide⟩

/-- A written value begins with neither a blank nor a closing bracket. -/
theorem Plain.opens {value : Json} (h : value.Plain) : Opens value.write := by
  cases h with
  | null => exact ⟨'n', _, write.eq_1, by decide, by decide⟩
  | bool value =>
    cases value with
    | true => exact ⟨'t', _, write.eq_2, by decide, by decide⟩
    | false => exact ⟨'f', _, write.eq_3, by decide, by decide⟩
  | @ofNat n _ =>
    obtain ⟨digit, digits, hDigits, hDigit, -⟩ := toDigits_eq_cons n
    rw [Json.ofNat, write, hDigits]
    exact opens_digit hDigit digits
  | ofText content =>
    rw [Json.ofText, write]
    simpa using opens_writeString (some content) []
  | array _ => exact ⟨'[', _, by rw [write, List.cons_append], by decide, by decide⟩
  | object _ _ => exact ⟨'\x7b', _, by rw [write, List.cons_append], by decide, by decide⟩

theorem opens_writeMember (member : Option String × Json) : Opens (writeMember member) := by
  obtain ⟨name, value⟩ := member
  rw [writeMember]
  exact opens_writeString name _

/-- A member is read back if its value is. -/
theorem readMember_writeMember {read : List Char → Option (Json × List Char)}
    {member : Option String × Json} {rest : List Char}
    (hRead : read (member.2.write ++ rest) = some (member.2, rest)) :
    readMember read (writeMember member ++ rest) = some (member, rest) := by
  obtain ⟨name, value⟩ := member
  obtain ⟨inside, hWritten, hName⟩ := readText_writeString name (':' :: value.write ++ rest)
  have hMember : writeMember (name, value) ++ rest = '"' :: inside := by
    rw [← hWritten, writeMember]
    simp
  have hQuote : skipBlanks ('"' :: inside) = '"' :: inside := rfl
  have hColon : skipBlanks (':' :: (value.write ++ rest)) = ':' :: (value.write ++ rest) := rfl
  simp [readMember, hMember, hQuote, hName, hColon, hRead]

section

variable {bound : Nat} {rest : List Char}

/-- A natural number is read back if its end can be told. -/
theorem readValue_ofNat (n : Nat) (closed : Closed rest) :
    readValue (bound + 1) ((ofNat n).write ++ rest) = some (ofNat n, rest) := by
  have hRead := readNumber_toDigits n closed
  obtain ⟨digit, digits, hDigits, hDigit, -⟩ := toDigits_eq_cons n
  rw [ofNat, write]
  rw [hDigits] at hRead ⊢
  rw [List.cons_append, readValue_digit hDigit, ← List.cons_append, hRead]
  rfl

/-- A string is read back, whatever follows. -/
theorem readValue_text (content : Option String) :
    readValue (bound + 1) ((text content).write ++ rest) = some (text content, rest) := by
  obtain ⟨inside, hWritten, hText⟩ := readText_writeString content rest
  have hQuote : readValue (bound + 1) ('"' :: inside) =
    (readText inside).map (Prod.map text id) := rfl
  rw [write, hWritten, hQuote, hText]
  rfl

/-- An array is read back if its items are. -/
theorem readValue_array {items : List Json} (hOpens : ∀ item ∈ items, Opens item.write)
    (hRead : ∀ item ∈ items, ∀ rest, Closed rest →
      readValue bound (item.write ++ rest) = some (item, rest)) :
    readValue (bound + 1) ((array items).write ++ rest) = some (array items, rest) := by
  have hBracket : ∀ input, readValue (bound + 1) ('[' :: input) =
    (readEnclosed (readValue bound) ']' input).map (Prod.map array id) := fun _ => rfl
  rw [write, writeItems_eq, List.cons_append, List.cons_append, List.append_assoc,
    List.singleton_append, hBracket, readEnclosed_separated (by decide) hOpens hRead]
  rfl

/-- An object is read back if the values of its members are. -/
theorem readValue_object {members : List (Option String × Json)}
    (hRead : ∀ member ∈ members, ∀ rest, Closed rest →
      readValue bound (member.2.write ++ rest) = some (member.2, rest)) :
    readValue (bound + 1) ((object members).write ++ rest) = some (object members, rest) := by
  have hBracket : ∀ input, readValue (bound + 1) ('\x7b' :: input) =
    (readEnclosed (readMember (readValue bound)) '\x7d' input).map (Prod.map object id) :=
    fun _ => rfl
  have hMember : ∀ member ∈ members, ∀ rest, Closed rest →
      readMember (readValue bound) (writeMember member ++ rest) = some (member, rest) :=
    fun member hMem rest closed => readMember_writeMember (hRead member hMem rest closed)
  rw [write, writeMembers_eq, List.cons_append, List.cons_append, List.append_assoc,
    List.singleton_append, hBracket,
    readEnclosed_separated (by decide) (fun member _ => opens_writeMember member) hMember]
  rfl

end

theorem length_item_lt {item : Json} {items : List Json} (hMem : item ∈ items) :
    item.write.length + 1 < (array items).write.length := by
  have hLength := length_encode_le write hMem
  rw [write, writeItems_eq, List.length_append, List.length_cons, List.length_singleton]
  omega

theorem length_value_lt {member : Option String × Json} {members : List (Option String × Json)}
    (hMem : member ∈ members) :
    member.2.write.length + 1 < (object members).write.length := by
  have hLength := length_encode_le writeMember hMem
  have hValue : member.2.write.length ≤ (writeMember member).length := by
    rw [writeMember, List.length_append, List.length_cons]
    omega
  rw [write, writeMembers_eq, List.length_append, List.length_cons, List.length_singleton]
  omega

/-- **A written value is read back**, if the bound exceeds its length. -/
theorem Plain.readValue_write {value : Json} (h : value.Plain) {bound : Nat}
    (hBound : value.write.length < bound) {rest : List Char} (closed : Closed rest) :
    readValue bound (value.write ++ rest) = some (value, rest) := by
  induction h generalizing bound rest with
    obtain ⟨bound, rfl⟩ := Nat.exists_eq_succ_of_ne_zero (Nat.ne_of_gt (Nat.zero_lt_of_lt hBound))
  | null => rfl
  | bool value => cases value <;> rfl
  | ofNat _ => exact readValue_ofNat _ closed
  | ofText content => exact readValue_text (some content)
  | array hItems ih =>
    refine readValue_array (fun item hMem => (hItems item hMem).opens) fun item hMem _ closed => ?_
    have hLength := length_item_lt hMem
    exact ih item hMem (by omega) closed
  | object _ _ ih =>
    refine readValue_object fun member hMem _ closed => ?_
    have hLength := length_value_lt hMem
    exact ih member hMem (by omega) closed

/-- **A value is read back from its text.** -/
theorem Plain.parse?_render {value : Json} (h : value.Plain) :
    parse? value.render = some value := by
  have hRead : readValue _ (value.write ++ []) = some (value, []) :=
    h.readValue_write (Nat.lt_succ_self _) fun _ hHead => by cases hHead
  rw [List.append_nil] at hRead
  rw [parse?, render, String.toList_ofList, hRead]
  rfl

end Json

end WikiMarkup
