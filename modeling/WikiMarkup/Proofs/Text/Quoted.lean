import WikiMarkup.Text.Quoted
import Mathlib.Data.List.Basic

/-!
# Quoted text can be read back

Between quotes each character is written as itself, by a short escape, or by its code point
(`quoteChar_cases`). What is written tells which character it stands for and where it ends
(`quoteChar_append_inj`), and it never begins like the closing quote. So a quoted text can be told
from all others whatever comes behind it (`quote_append_inj`), and it stands on one line
(`newline_notMem_quote`).
-/

namespace WikiMarkup

/-- Two texts that are cut where a property of characters ends are cut into the same parts. -/
theorem append_inj_of_ends {p : Char → Bool} {front rest front' rest' : List Char}
    (hFront : ∀ c ∈ front, p c) (hRest : ∀ c ∈ rest.head?, ¬ p c)
    (hFront' : ∀ c ∈ front', p c) (hRest' : ∀ c ∈ rest'.head?, ¬ p c)
    (h : front ++ rest = front' ++ rest') : front = front' ∧ rest = rest' := by
  have hTake : ∀ {rest : List Char}, (∀ c ∈ rest.head?, ¬ p c) → rest.takeWhile p = [] := by
    intro rest hRest
    cases rest with
    | nil => rfl
    | cons c rest => exact List.takeWhile_cons_of_neg (hRest c rfl)
  have hSame := congrArg (List.takeWhile p) h
  rw [List.takeWhile_append_of_pos hFront, List.takeWhile_append_of_pos hFront', hTake hRest,
    hTake hRest', List.append_nil, List.append_nil] at hSame
  exact ⟨hSame, List.append_cancel_left (hSame ▸ h)⟩

/-! ### Code points -/

theorem digitChar_inj {first second : Nat} (hFirst : first < 16) (hSecond : second < 16)
    (h : Nat.digitChar first = Nat.digitChar second) : first = second := by
  have hTable : ∀ first second : Fin 16,
      Nat.digitChar first = Nat.digitChar second → first = second := by decide
  exact congrArg Fin.val (hTable ⟨first, hFirst⟩ ⟨second, hSecond⟩ h)

/-- Different numbers have different digits. -/
theorem toDigits_inj {base first second : Nat} (hBase : 1 < base) (hLe : base ≤ 16)
    (h : Nat.toDigits base first = Nat.toDigits base second) : first = second := by
  have hLength : ∀ n, (Nat.toDigits base n).length ≠ 0 := fun n =>
    Nat.ne_of_gt Nat.length_toDigits_pos
  induction first using Nat.strongRecOn generalizing second with
  | _ first ih =>
    rw [Nat.toDigits_eq_if hBase, @Nat.toDigits_eq_if _ second hBase] at h
    split at h <;> split at h
    next hFirst hSecond =>
      exact digitChar_inj (by omega) (by omega) (List.singleton_inj.mp h)
    next => exact absurd (by simpa using congrArg List.length h) (hLength (second / base))
    next => exact absurd (by simpa using congrArg List.length h) (hLength (first / base))
    next hFirst hSecond =>
      -- the last digits agree, and so do those in front of them
      obtain ⟨hFront, hLast⟩ := List.append_inj' h rfl
      have hQuotient := ih (first / base) (Nat.div_lt_self (by omega) hBase) hFront
      have hFirstDigit := Nat.mod_lt first (Nat.zero_lt_of_lt hBase)
      have hSecondDigit := Nat.mod_lt second (Nat.zero_lt_of_lt hBase)
      have hRest := digitChar_inj (Nat.lt_of_lt_of_le hFirstDigit hLe)
        (Nat.lt_of_lt_of_le hSecondDigit hLe) (List.singleton_inj.mp hLast)
      rw [← Nat.div_add_mod first base, ← Nat.div_add_mod second base, hQuotient, hRest]

/-- Hexadecimal digits are digits. -/
theorem exists_of_mem_toDigits {n : Nat} {c : Char} (h : c ∈ Nat.toDigits 16 n) :
    ∃ digit : Fin 16, c = Nat.digitChar digit := by
  induction n using Nat.strongRecOn with
  | _ n ih =>
    rw [Nat.toDigits_eq_if (by decide)] at h
    split at h
    next hSmall => exact ⟨⟨n, hSmall⟩, List.mem_singleton.mp h⟩
    next =>
      rcases List.mem_append.mp h with h | h
      · exact ih (n / 16) (by omega) h
      · exact ⟨⟨n % 16, Nat.mod_lt n (by decide)⟩, List.mem_singleton.mp h⟩

theorem ne_of_mem_toDigits {n : Nat} {c : Char} (h : c ∈ Nat.toDigits 16 n) :
    c ≠ '\x7d' ∧ c ≠ '\n' := by
  have hTable : ∀ digit : Fin 16,
      Nat.digitChar digit ≠ '\x7d' ∧ Nat.digitChar digit ≠ '\n' := by decide
  obtain ⟨digit, rfl⟩ := exists_of_mem_toDigits h
  exact hTable digit

/-- A code point ends with its closing brace. -/
theorem codePointEscape_append_inj {first second : Char} {rest rest' : List Char}
    (h : codePointEscape first ++ rest = codePointEscape second ++ rest') :
    first = second ∧ rest = rest' := by
  simp only [codePointEscape, List.append_assoc, List.cons_append, List.nil_append,
    List.cons.injEq, true_and] at h
  have hDigits : ∀ {n : Nat}, ∀ c ∈ Nat.toDigits 16 n, (c != '\x7d') = true := fun c hC => by
    simpa using (ne_of_mem_toDigits hC).1
  obtain ⟨hSame, hRest⟩ := append_inj_of_ends hDigits (by simp) hDigits (by simp) h
  exact ⟨Char.toNat_inj.mp (toDigits_inj (by decide) (by decide) hSame), List.cons_injective hRest⟩

/-! ### Characters -/

/-- The characters with an escape of one letter, and the letter. -/
def shortEscapes : List (Char × Char) :=
  [('"', '"'), ('\\', '\\'), ('\n', 'n'), ('\r', 'r'), ('\t', 't'), ('\x00', '0')]

/-- A character is written as itself, by a short escape, or by its code point. -/
inductive QuoteCase (c : Char) : Prop
  /-- It needs no escape. -/
  | plain (hNe : c ≠ '"' ∧ c ≠ '\\' ∧ c ≠ '\n') (h : quoteChar c = [c])
  /-- It has a short escape. -/
  | short (letter : Char) (hTable : (c, letter) ∈ shortEscapes) (h : quoteChar c = ['\\', letter])
  /-- It is written by its code point. -/
  | codePoint (h : quoteChar c = codePointEscape c)

theorem quoteChar_cases (c : Char) : QuoteCase c := by
  have hShort : ∀ entry ∈ shortEscapes, quoteChar entry.1 = ['\\', entry.2] := by decide
  by_cases hTable : c ∈ shortEscapes.map Prod.fst
  · obtain ⟨⟨_, letter⟩, hEntry, rfl⟩ := List.mem_map.mp hTable
    exact .short letter hEntry (hShort _ hEntry)
  · simp only [shortEscapes, List.map_cons, List.map_nil, List.mem_cons, List.not_mem_nil,
      or_false, not_or] at hTable
    obtain ⟨hQuote, hBackslash, hNewline, hReturn, hTab, hNull⟩ := hTable
    have hZero : c.toNat ≠ 0 := fun h => hNull (Char.toNat_inj.mp h)
    have hCases : quoteChar c = [c] ∨ quoteChar c = codePointEscape c := by
      rw [quoteChar, if_neg hQuote, if_neg hBackslash, if_neg hNewline, if_neg hReturn,
        if_neg hTab, if_neg hZero]
      split
      · exact .inl rfl
      · split
        · exact .inr rfl
        · exact .inl rfl
    exact hCases.elim (.plain ⟨hQuote, hBackslash, hNewline⟩) .codePoint

/-- What is written for a character begins with a character other than the closing quote. -/
theorem exists_quoteChar_eq_cons (c : Char) :
    ∃ first rest, quoteChar c = first :: rest ∧ first ≠ '"' := by
  cases quoteChar_cases c with
  | plain hNe h => exact ⟨c, [], h, hNe.1⟩
  | short letter _ h => exact ⟨'\\', [letter], h, by decide⟩
  | codePoint h => exact ⟨'\\', _, h, by decide⟩

theorem newline_notMem_quoteChar (c : Char) : '\n' ∉ quoteChar c := by
  cases quoteChar_cases c with
  | plain hNe h =>
    rw [h, List.mem_singleton]
    exact hNe.2.2.symm
  | short letter hTable h =>
    have hLetters : ∀ entry ∈ shortEscapes, '\n' ∉ ['\\', entry.2] := by decide
    exact h ▸ hLetters _ hTable
  | codePoint h =>
    rw [h, codePointEscape]
    simp only [List.mem_append, List.mem_cons, List.not_mem_nil, or_false, not_or]
    exact ⟨⟨by decide, fun hDigit => (ne_of_mem_toDigits hDigit).2 rfl⟩, by decide⟩

/-- **What is written tells the character** and where it ends. -/
theorem quoteChar_append_inj {first second : Char} {rest rest' : List Char}
    (h : quoteChar first ++ rest = quoteChar second ++ rest') :
    first = second ∧ rest = rest' := by
  -- no letter of a short escape begins a code point, and none stands for two characters
  have hLetters : ∀ entry ∈ shortEscapes, entry.2 ≠ 'u' := by decide
  have hInjective : ∀ entry ∈ shortEscapes, ∀ other ∈ shortEscapes,
      entry.2 = other.2 → entry.1 = other.1 := by decide
  cases quoteChar_cases first with
  | plain hNe hFirst =>
    cases quoteChar_cases second with
    | plain _ hSecond =>
      rw [hFirst, hSecond] at h
      exact List.cons_eq_cons.mp h
    | short letter _ hSecond =>
      rw [hFirst, hSecond] at h
      exact absurd (List.cons_eq_cons.mp h).1 hNe.2.1
    | codePoint hSecond =>
      rw [hFirst, hSecond] at h
      exact absurd (List.cons_eq_cons.mp h).1 hNe.2.1
  | short letter hTable hFirst =>
    cases quoteChar_cases second with
    | plain hNe hSecond =>
      rw [hFirst, hSecond] at h
      exact absurd (List.cons_eq_cons.mp h).1.symm hNe.2.1
    | short other hOther hSecond =>
      rw [hFirst, hSecond] at h
      obtain ⟨hLetter, hRest⟩ := List.cons_eq_cons.mp (List.cons_eq_cons.mp h).2
      exact ⟨hInjective _ hTable _ hOther hLetter, hRest⟩
    | codePoint hSecond =>
      rw [hFirst, hSecond] at h
      exact absurd (List.cons_eq_cons.mp (List.cons_eq_cons.mp h).2).1 (hLetters _ hTable)
  | codePoint hFirst =>
    cases quoteChar_cases second with
    | plain hNe hSecond =>
      rw [hFirst, hSecond] at h
      exact absurd (List.cons_eq_cons.mp h).1.symm hNe.2.1
    | short letter hTable hSecond =>
      rw [hFirst, hSecond] at h
      exact absurd (List.cons_eq_cons.mp (List.cons_eq_cons.mp h).2).1.symm (hLetters _ hTable)
    | codePoint hSecond =>
      rw [hFirst, hSecond] at h
      exact codePointEscape_append_inj h

/-! ### Texts -/

/-- What is written between quotes ends at the closing quote. -/
theorem flatMap_quoteChar_append_inj {text other rest rest' : List Char}
    (h : text.flatMap quoteChar ++ '"' :: rest = other.flatMap quoteChar ++ '"' :: rest') :
    text = other ∧ rest = rest' := by
  induction text generalizing other with
  | nil =>
    cases other with
    | nil => exact ⟨rfl, List.cons_injective h⟩
    | cons c other =>
      obtain ⟨first, tail, hChar, hNe⟩ := exists_quoteChar_eq_cons c
      rw [List.flatMap_nil, List.flatMap_cons, hChar] at h
      exact absurd (List.cons_eq_cons.mp h).1.symm hNe
  | cons c text ih =>
    cases other with
    | nil =>
      obtain ⟨first, tail, hChar, hNe⟩ := exists_quoteChar_eq_cons c
      rw [List.flatMap_nil, List.flatMap_cons, hChar] at h
      exact absurd (List.cons_eq_cons.mp h).1 hNe
    | cons d other =>
      rw [List.flatMap_cons, List.flatMap_cons, List.append_assoc, List.append_assoc] at h
      obtain ⟨rfl, hBelow⟩ := quoteChar_append_inj h
      obtain ⟨rfl, hRest⟩ := ih hBelow
      exact ⟨rfl, hRest⟩

/-- **A quoted text can be told from all others**, whatever comes behind it. -/
theorem quote_append_inj {text other : String} {rest rest' : List Char}
    (h : (quote text).toList ++ rest = (quote other).toList ++ rest') :
    text = other ∧ rest = rest' := by
  simp only [quote, String.toList_ofList, List.cons_append, List.append_assoc, List.cons.injEq,
    true_and, List.nil_append] at h
  obtain ⟨hText, hRest⟩ := flatMap_quoteChar_append_inj h
  exact ⟨String.toList_inj.mp hText, hRest⟩

/-- A quoted text stands on one line. -/
theorem newline_notMem_quote (text : String) : '\n' ∉ (quote text).toList := by
  simp only [quote, String.toList_ofList, List.cons_append, List.mem_cons, List.mem_append,
    List.mem_flatMap, List.not_mem_nil, or_false, not_or]
  refine ⟨by decide, ?_, by decide⟩
  rintro ⟨c, -, h⟩
  exact newline_notMem_quoteChar c h

end WikiMarkup
