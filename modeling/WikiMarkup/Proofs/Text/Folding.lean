import WikiMarkup.Text.Whitespace
import Mathlib.Data.List.SplitBy

/-!
# What folding does to a text

A text is divided in one way only into **runs**: longest stretches of spaces and longest stretches
of other characters, which take turns (`runsOf_iff_eq_splitBy`).

**Reading once.** Folding never sees a run as a whole. It keeps what it has read of a run of spaces,
and whether a line has broken in it, and lets go of both where the run ends. Nevertheless what comes
out is made up of what each run turns into (`RunsOf.foldRuns_eq`), so what holds of all folded runs
holds of the folded text.

**Key results.** Folded text has no line breaks left (`foldLines?_foldLines?`), and it is blank
exactly if the text was (`isBlank_foldLines?`). `foldLines?_folds_runs` says all that folding does.
-/

namespace WikiMarkup

/-! ### Runs -/

/-- A line breaks in a text, or jumps to a stop. -/
def Breaks (text : List Char) : Prop := ∃ c ∈ text, c = '\n' ∨ c = '\t' ∨ c = '\r'

theorem breaks_iff {text : List Char} : Breaks text ↔ text.any isLineBreak := by
  simp only [Breaks, isLineBreak, List.any_eq_true, Bool.or_eq_true, beq_iff_eq, or_assoc]

instance (text : List Char) : Decidable (Breaks text) :=
  decidable_of_iff (text.any isLineBreak = true) breaks_iff.symm

/-- The runs of a text: longest stretches of spaces and longest stretches of other characters,
which take turns. -/
structure RunsOf (text : List Char) (runs : List (List Char)) : Prop where
  /-- They make up the text. -/
  flatten_eq : runs.flatten = text
  /-- There is something in each of them. -/
  ne_nil : ∀ run ∈ runs, run ≠ []
  /-- The characters of one run are all spaces, or none of them is. -/
  alike : ∀ run ∈ runs, ∀ c ∈ run, ∀ d ∈ run, isSpace c = isSpace d
  /-- Of two runs that stand side by side one is made of spaces and the other is not. -/
  turns : runs.IsChain fun run next => ∀ c ∈ run, ∀ d ∈ next, isSpace c ≠ isSpace d

section

variable {run word rest text pending : List Char} {runs : List (List Char)} {breaks : Bool}

/-- **A text has one list of runs**, which is what splitting it between spaces and other characters
yields. -/
theorem runsOf_iff_eq_splitBy :
    RunsOf text runs ↔ runs = text.splitBy fun c d => isSpace c == isSpace d := by
  rw [eq_comm, List.splitBy_eq_iff]
  constructor
  · intro h
    refine ⟨h.flatten_eq.symm, fun hNil => h.ne_nil [] hNil rfl, fun run hRun => ?_, ?_⟩
    · refine (List.pairwise_of_forall_mem_list fun c hC d hD => ?_).isChain
      exact beq_iff_eq.mpr (h.alike run hRun c hC d hD)
    · refine h.turns.imp_of_mem_imp fun run next hRun hNext hTurn => ?_
      refine ⟨h.ne_nil run hRun, h.ne_nil next hNext, beq_eq_false_iff_ne.mpr ?_⟩
      exact hTurn _ (List.getLast_mem _) _ (List.head_mem _)
  · rintro ⟨hFlatten, hNil, hChain, hTurns⟩
    have hAlike : ∀ run ∈ runs, ∀ c ∈ run, ∀ d ∈ run, isSpace c = isSpace d := by
      intro run hRun
      have hEqual : run.IsChain fun c d => isSpace c = isSpace d :=
        (hChain run hRun).imp fun _ _ h => beq_iff_eq.mp h
      have hTrans : IsTrans Char fun c d => isSpace c = isSpace d := ⟨fun _ _ _ => Eq.trans⟩
      have hSymm : Std.Symm fun c d : Char => isSpace c = isSpace d := ⟨fun _ _ => Eq.symm⟩
      exact (List.isChain_iff_pairwise.mp hEqual).forall_of_forall fun _ _ => rfl
    refine ⟨hFlatten.symm, fun run hRun h => hNil (h ▸ hRun), hAlike, ?_⟩
    refine hTurns.imp_of_mem_imp fun run next hRun hNext ⟨hLast, hHead, h⟩ c hC d hD => ?_
    rw [hAlike run hRun c hC _ (List.getLast_mem hLast),
      hAlike next hNext d hD _ (List.head_mem hHead)]
    exact beq_eq_false_iff_ne.mp h

instance (text : List Char) (runs : List (List Char)) : Decidable (RunsOf text runs) :=
  decidable_of_iff _ runsOf_iff_eq_splitBy.symm

theorem RunsOf.tail (h : RunsOf text (run :: runs)) : RunsOf runs.flatten runs where
  flatten_eq := rfl
  ne_nil := (List.forall_mem_cons.mp h.ne_nil).2
  alike := (List.forall_mem_cons.mp h.alike).2
  turns := h.turns.tail

/-- What comes after a run begins with a character of the other sort. -/
theorem RunsOf.head_ne (h : RunsOf text (run :: runs)) :
    ∀ c ∈ run, ∀ d ∈ runs.flatten.head?, isSpace c ≠ isSpace d := by
  intro c hC d hD
  cases runs with
  | nil => cases hD
  | cons next runs =>
    obtain ⟨first, next, rfl⟩ :=
      List.exists_cons_of_ne_nil (h.ne_nil next (List.mem_cons_of_mem run List.mem_cons_self))
    obtain rfl := Option.some_inj.mp hD
    exact (List.isChain_cons_cons.mp h.turns).1 c hC first List.mem_cons_self

/-! ### Folding one run -/

theorem isSpace_of_isLineBreak {c : Char} (h : isLineBreak c) : isSpace c := by
  simp only [isLineBreak, Bool.or_eq_true, beq_iff_eq] at h
  rcases h with (rfl | rfl) | rfl <;> decide

/-- In what is not made of spaces no line breaks. -/
theorem not_breaks_of_not_isSpace (h : ∀ c ∈ word, isSpace c = false) : ¬ Breaks word := by
  rw [breaks_iff, List.any_eq_true]
  rintro ⟨c, hC, hBreak⟩
  exact absurd (isSpace_of_isLineBreak hBreak) (by rw [h c hC]; exact Bool.false_ne_true)

/-- What a run turns into: one space if a line breaks in it, and else itself. -/
def foldedRun (run : List Char) : List Char := if Breaks run then [' '] else run

theorem foldRun_any (run : List Char) : foldRun run (run.any isLineBreak) = foldedRun run := by
  simp only [foldRun, foldedRun, breaks_iff]

theorem not_breaks_foldedRun (run : List Char) : ¬ Breaks (foldedRun run) := by
  unfold foldedRun
  split
  · decide
  · assumption

/-- Folding a run loses no character that is not a space, and makes none. -/
theorem filter_foldedRun (hAlike : ∀ c ∈ run, ∀ d ∈ run, isSpace c = isSpace d) :
    (foldedRun run).filter (!isSpace ·) = run.filter (!isSpace ·) := by
  unfold foldedRun
  split
  next hBreaks =>
    obtain ⟨c, hC, hBreak⟩ := List.any_eq_true.mp (breaks_iff.mp hBreaks)
    have hSpaces : ∀ d ∈ run, isSpace d := fun d hD =>
      (hAlike d hD c hC).trans (isSpace_of_isLineBreak hBreak)
    have hNone : run.filter (!isSpace ·) = [] :=
      List.filter_eq_nil_iff.mpr fun d hD => by rw [hSpaces d hD]; exact Bool.false_ne_true
    rw [hNone]
    rfl
  next => rfl

/-! ### Folding run by run -/

/-- Spaces are kept until the run ends. -/
theorem foldRuns_spaces_append (h : ∀ c ∈ run, isSpace c) :
    foldRuns pending breaks (run ++ rest) =
      foldRuns (run.reverse ++ pending) (breaks || run.any isLineBreak) rest := by
  induction run generalizing pending breaks with
  | nil => rw [List.any_nil, Bool.or_false, List.nil_append, List.reverse_nil, List.nil_append]
  | cons c run ih =>
    obtain ⟨hC, hRun⟩ := List.forall_mem_cons.mp h
    rw [List.cons_append, foldRuns, if_pos hC, ih hRun, List.reverse_cons, List.append_assoc,
      List.singleton_append, List.any_cons, Bool.or_assoc]

/-- Where a run ends, what stands for it is written, and nothing of it is kept. -/
theorem foldRuns_of_head (h : ∀ c ∈ rest.head?, isSpace c = false) :
    foldRuns pending breaks rest = foldRun pending.reverse breaks ++ foldRuns [] false rest := by
  cases rest with
  | nil => exact (List.append_nil _).symm
  | cons c rest =>
    have hC : ¬ isSpace c := Bool.eq_false_iff.mp (h c rfl)
    rw [foldRuns, foldRuns, if_neg hC, if_neg hC]
    rfl

/-- All other characters are written as they are. -/
theorem foldRuns_word_append (h : ∀ c ∈ word, isSpace c = false) :
    foldRuns [] false (word ++ rest) = word ++ foldRuns [] false rest := by
  induction word with
  | nil => rfl
  | cons c word ih =>
    obtain ⟨hC, hWord⟩ := List.forall_mem_cons.mp h
    rw [List.cons_append, foldRuns, if_neg (Bool.eq_false_iff.mp hC), ih hWord]
    rfl

/-- **Reading a text once folds each of its runs.** -/
theorem RunsOf.foldRuns_eq (h : RunsOf text runs) :
    foldRuns [] false text = runs.flatMap foldedRun := by
  induction runs generalizing text with
  | nil =>
    obtain rfl := h.flatten_eq
    rfl
  | cons run runs ih =>
    obtain ⟨first, hFirst⟩ := List.exists_mem_of_ne_nil run (h.ne_nil run List.mem_cons_self)
    have hAlike := fun c hC => h.alike run List.mem_cons_self c hC first hFirst
    rw [← h.flatten_eq, List.flatten_cons, List.flatMap_cons, ← ih h.tail]
    cases hSort : isSpace first with
    | true =>
      -- the run is kept as a whole, and what comes after it is not a space
      have hRest : ∀ c ∈ runs.flatten.head?, isSpace c = false := fun c hC => by
        simpa [hSort] using (h.head_ne first hFirst c hC).symm
      rw [foldRuns_spaces_append fun c hC => (hAlike c hC).trans hSort, foldRuns_of_head hRest,
        List.append_nil, List.reverse_reverse, Bool.false_or, foldRun_any]
    | false =>
      have hWord : ∀ c ∈ run, isSpace c = false := fun c hC => (hAlike c hC).trans hSort
      rw [foldRuns_word_append hWord, foldedRun, if_neg (not_breaks_of_not_isSpace hWord)]

end

/-! ### Folding a text -/

/-- What folding makes of a text with given runs. -/
structure FoldedTo (text : String) (runs : List (List Char)) (folded : String) : Prop where
  /-- Each run in which a line breaks has become one space, and every other run is kept. -/
  toList_eq : folded.toList = runs.flatMap fun run => if Breaks run then [' '] else run
  /-- No line breaks any more. -/
  not_breaks : ¬ Breaks folded.toList
  /-- All that is not a space is kept, in order, and nothing else comes in. -/
  filter_eq : folded.toList.filter (!isSpace ·) = text.toList.filter (!isSpace ·)

variable {text folded : String} {runs : List (List Char)}

theorem foldLines?_eq_none_iff_not_breaks : foldLines? text = none ↔ ¬ Breaks text.toList := by
  simp only [foldLines?_eq_none_iff, breaks_iff, List.any_eq_true, not_exists, not_and,
    Bool.not_eq_true]

theorem RunsOf.foldedTo (h : RunsOf text.toList runs) (hFold : foldLines? text = some folded) :
    FoldedTo text runs folded := by
  obtain ⟨-, hFolded⟩ := Option.ite_none_right_eq_some.mp hFold
  have hList : folded.toList = runs.flatMap foldedRun := by
    rw [← Option.some_inj.mp hFolded, String.toList_ofList, h.foldRuns_eq]
  refine ⟨hList, ?_, ?_⟩
  · rw [hList]
    rintro ⟨c, hC, hBreak⟩
    obtain ⟨run, -, hRun⟩ := List.mem_flatMap.mp hC
    exact not_breaks_foldedRun run ⟨c, hRun, hBreak⟩
  · rw [hList, ← h.flatten_eq, List.filter_flatMap, List.filter_flatten, List.flatMap_def]
    refine congrArg List.flatten (List.map_congr_left fun run hRun => ?_)
    exact filter_foldedRun (h.alike run hRun)

/-- Folded text cannot be folded again. -/
theorem foldLines?_foldLines? (h : foldLines? text = some folded) : foldLines? folded = none :=
  foldLines?_eq_none_iff_not_breaks.mpr ((runsOf_iff_eq_splitBy.mpr rfl).foldedTo h).not_breaks

/-- Folded text is blank exactly if the text was. -/
theorem isBlank_foldLines? (h : foldLines? text = some folded) : isBlank folded = isBlank text := by
  have hFilter := ((runsOf_iff_eq_splitBy.mpr rfl).foldedTo h).filter_eq
  have hBlank : ∀ text : String, isBlank text ↔ text.toList.filter (!isSpace ·) = [] := by
    simp [isBlank_iff]
  rw [Bool.eq_iff_iff, hBlank, hBlank, hFilter]

/-- **Folding a text folds its runs.** A text has one list of runs. There is nothing to fold exactly
if no line breaks in the text. Otherwise each run in which a line breaks becomes one space, and
every other run is kept. So no line breaks in folded text, it has the same characters apart from
spaces, it is blank exactly if the text was, and it cannot be folded again. -/
theorem foldLines?_folds_runs (text : String) :
    ∃ runs, (∀ others, RunsOf text.toList others ↔ others = runs) ∧
      (foldLines? text = none ↔ ¬ Breaks text.toList) ∧
      (Breaks text.toList → ∃ folded, foldLines? text = some folded ∧ FoldedTo text runs folded ∧
        (isBlank folded ↔ isBlank text) ∧ foldLines? folded = none) := by
  refine ⟨_, fun others => runsOf_iff_eq_splitBy, foldLines?_eq_none_iff_not_breaks, fun h => ?_⟩
  have hSome : foldLines? text ≠ none := fun hNone =>
    foldLines?_eq_none_iff_not_breaks.mp hNone h
  obtain ⟨folded, hFold⟩ := Option.ne_none_iff_exists'.mp hSome
  refine ⟨folded, hFold, (runsOf_iff_eq_splitBy.mpr rfl).foldedTo hFold, ?_,
    foldLines?_foldLines? hFold⟩
  rw [isBlank_foldLines? hFold]

/-- Three words with line breaks on both sides of them and other spaces in between. -/
def raggedText : String := "\u2003\n\u00a0a  b\u00a0 c\t\r\n"

/-- Its runs. -/
def raggedRuns : List (List Char) :=
  [['\u2003', '\n', '\u00a0'], ['a'], [' ', ' '], ['b'], ['\u00a0', ' '], ['c'], ['\t', '\r', '\n']]

/-- The runs at both ends become one space each, and those between the words are kept. -/
theorem foldLines?_folds_runs_raggedText :
    Breaks raggedText.toList ∧ RunsOf raggedText.toList raggedRuns ∧
      foldLines? raggedText = some " a  b\u00a0 c " ∧
      FoldedTo raggedText raggedRuns " a  b\u00a0 c " := by
  have hBreaks : Breaks raggedText.toList := by decide
  have hRuns : RunsOf raggedText.toList raggedRuns := by decide
  obtain ⟨runs, hUnique, -, hFolds⟩ := foldLines?_folds_runs raggedText
  obtain rfl := (hUnique raggedRuns).mp hRuns
  obtain ⟨folded, hFold, hFolded, -⟩ := hFolds hBreaks
  have hList : folded.toList = " a  b\u00a0 c ".toList := hFolded.toList_eq.trans (by decide)
  obtain rfl := String.toList_inj.mp hList
  exact ⟨hBreaks, hRuns, hFold, hFolded⟩

end WikiMarkup
