/-
Lines as they are written.

An MPS text is read line by line: blanks separate the fields of a line, and the first
character tells a header from data. This file writes lines in the plainest way -- fields
with one blank between them, headers from the first column on, data behind one blank -- and
shows that the reader finds in such a text exactly the lines that were written, each under
its number (`numberedLines_written`).

A field must be a word: something without blanks. That is carried by the type `Word`, so
nothing has to be said about fields later on. Splitting keeps the word or the line that is
being read in reverse, and the inductions are over what is still to be read, for all that
has been read.
-/
import Mathlib
import Milp.Mps.Reader

set_option autoImplicit false

namespace Milp.Mps

/-! ## Words -/

/-- Something that can stand between two blanks. -/
def isWord (text : String) : Bool :=
  !text.toList.isEmpty && text.toList.all fun c => !Text.isBlank c

/-- A text that is a word. -/
structure Word where
  text : String
  isWord : isWord text = true
deriving DecidableEq

namespace Word

variable (w : Word)

theorem toList_ne_nil : w.text.toList ≠ [] := by
  have h := (Bool.and_eq_true_iff.mp w.isWord).1
  intro hnil
  rw [hnil] at h
  cases h

theorem not_isBlank : ∀ c ∈ w.text.toList, Text.isBlank c = false := by
  intro c hc
  have h := List.all_eq_true.mp (Bool.and_eq_true_iff.mp w.isWord).2 c hc
  simpa using h

end Word

/-! ## Fields -/

/-- Fields with one blank between them. -/
def spaced (fields : List Word) : List Char :=
  [' '].intercalate (fields.map fun w => w.text.toList)

theorem spaced_cons (w : Word) (fields : List Word) :
    spaced (w :: fields)
      = w.text.toList ++ if fields.isEmpty then [] else ' ' :: spaced fields := by
  cases fields with
  | nil => simp [spaced]
  | cons next fields => simp [spaced]

/-- Characters that are not blank are collected. -/
theorem wordsFrom_append {word : List Char} (h : ∀ c ∈ word, Text.isBlank c = false)
    (current rest : List Char) :
    Text.wordsFrom current (word ++ rest) = Text.wordsFrom (word.reverse ++ current) rest := by
  induction word generalizing current with
  | nil => rfl
  | cons c word ih =>
    obtain ⟨hc, hword⟩ := List.forall_mem_cons.mp h
    rw [List.cons_append, Text.wordsFrom, if_neg (by rw [hc]; exact Bool.false_ne_true),
      ih hword, List.reverse_cons, List.append_assoc]
    rfl

theorem wordsFrom_spaced (fields : List Word) :
    Text.wordsFrom [] (spaced fields) = fields.map fun w => w.text.toList := by
  induction fields with
  | nil => rfl
  | cons w fields ih =>
    have hne : (w.text.toList.reverse ++ []).isEmpty = false := by
      simp [w.toList_ne_nil]
    rw [spaced_cons, wordsFrom_append w.not_isBlank]
    cases fields with
    | nil =>
      rw [List.isEmpty_nil, if_pos rfl, Text.wordsFrom, hne, if_neg Bool.false_ne_true]
      simp
    | cons next fields =>
      have hblank : Text.isBlank ' ' = true := by decide
      rw [List.isEmpty_cons, if_neg Bool.false_ne_true, Text.wordsFrom, if_pos hblank, hne,
        if_neg Bool.false_ne_true, ih]
      simp

/-- **Fields are read as they were written.** -/
theorem words_spaced (fields : List Word) :
    Text.words (spaced fields) = fields.map (·.text) := by
  rw [Text.words, wordsFrom_spaced, List.map_map]
  exact List.map_congr_left fun w _ => String.ofList_toList

theorem words_blank_cons (cs : List Char) : Text.words (' ' :: cs) = Text.words cs := by
  have hblank : Text.isBlank ' ' = true := by decide
  rw [Text.words, Text.wordsFrom, if_pos hblank]
  rfl

/-! ## Lines -/

/-- A line before it is written. A header starts with a word that a comment does not start
with. -/
inductive WordLine where
  | header (first : Word) (fields : List Word) (visible : first.text.toList.head? ≠ some '*')
  | data (first : Word) (fields : List Word)

namespace WordLine

/-- What the line says. -/
def line : WordLine → Line
  | header first fields _ => .header ((first :: fields).map (·.text))
  | data first fields => .data ((first :: fields).map (·.text))

/-- The line as it is written, up to its end. -/
def chars : WordLine → List Char
  | header first fields _ => spaced (first :: fields)
  | data first fields => ' ' :: spaced (first :: fields)

theorem exists_visible (first : Word) (fields : List Word) :
    ∃ c ∈ spaced (first :: fields), Text.isBlank c = false := by
  obtain ⟨c, rest, hc⟩ := List.exists_cons_of_ne_nil first.toList_ne_nil
  have hmem : c ∈ first.text.toList := by simp [hc]
  exact ⟨c, by rw [spaced_cons]; exact List.mem_append_left _ hmem, first.not_isBlank c hmem⟩

theorem not_all_isBlank {cs : List Char} (h : ∃ c ∈ cs, Text.isBlank c = false) :
    cs.all Text.isBlank = false := by
  obtain ⟨c, hc, hblank⟩ := h
  rw [List.all_eq_false]
  exact ⟨c, hc, by rw [hblank]; exact Bool.false_ne_true⟩

/-- **A line is read as what it says.** -/
theorem ofChars?_chars (l : WordLine) : Line.ofChars? l.chars = some l.line := by
  cases l with
  | header first fields visible =>
    obtain ⟨c, rest, hfirst⟩ := List.exists_cons_of_ne_nil first.toList_ne_nil
    have hc : Text.isBlank c = false := first.not_isBlank c (by simp [hfirst])
    have hstar : c ≠ '*' := by
      intro heq
      exact visible (by rw [hfirst, heq]; rfl)
    have hall := not_all_isBlank (exists_visible first fields)
    have hspaced : spaced (first :: fields)
        = c :: (rest ++ if fields.isEmpty then [] else ' ' :: spaced fields) := by
      rw [spaced_cons, hfirst, List.cons_append]
    rw [chars, line, ← words_spaced]
    rw [hspaced] at hall ⊢
    rw [Line.ofChars?, hall, hc]
    simp [hstar]
  | data first fields =>
    have hall := not_all_isBlank (exists_visible first fields)
    have hblank : Text.isBlank ' ' = true := by decide
    rw [chars, line, ← words_spaced, ← words_blank_cons, Line.ofChars?]
    simp [hblank, hall]

/-- No character of a line belongs to the end of a line. -/
theorem not_mem_chars {l : WordLine} {c : Char} (hne : c ≠ ' ') (hblank : Text.isBlank c = true) :
    c ∉ l.chars := by
  have hspaced : ∀ fields : List Word, c ∉ spaced fields := by
    intro fields
    induction fields with
    | nil => exact List.not_mem_nil
    | cons w fields ih =>
      rw [spaced_cons, List.mem_append]
      rintro (hword | hrest)
      · rw [w.not_isBlank c hword] at hblank
        cases hblank
      · split at hrest
        · cases hrest
        · exact ih ((List.mem_cons.mp hrest).resolve_left hne)
  cases l with
  | header first fields visible => exact hspaced _
  | data first fields => exact fun h => hspaced _ ((List.mem_cons.mp h).resolve_left hne)

end WordLine

/-! ## Texts -/

/-- Lines as a text, each with its end. -/
def written (lines : List WordLine) : String :=
  String.ofList (lines.flatMap fun l => l.chars ++ ['\n'])

/-- Without a carriage return, a line is what stands before its end. -/
theorem closeLine_reverse {cs : List Char} (h : '\r' ∉ cs) : Text.closeLine cs.reverse = cs := by
  have hfirst : ∀ rest, cs.reverse ≠ '\r' :: rest := by
    intro rest heq
    exact h (List.mem_reverse.mp (heq ▸ List.mem_cons_self))
  rw [Text.closeLine.eq_2 _ hfirst, List.reverse_reverse]

theorem linesFrom_append {cs : List Char} (h : '\n' ∉ cs) (current rest : List Char) :
    Text.linesFrom current (cs ++ '\n' :: rest)
      = Text.closeLine (cs.reverse ++ current) :: Text.linesFrom [] rest := by
  induction cs generalizing current with
  | nil => rw [List.nil_append, Text.linesFrom, if_pos rfl, List.reverse_nil, List.nil_append]
  | cons c cs ih =>
    obtain ⟨hc, hcs⟩ := not_or.mp (mt List.mem_cons.mpr h)
    rw [List.cons_append, Text.linesFrom, if_neg (Ne.symm hc), ih hcs, List.reverse_cons,
      List.append_assoc]
    rfl

/-- The lines of a text are those that were written. -/
theorem lines_written (lines : List WordLine) :
    Text.lines (written lines) = lines.map (·.chars) := by
  rw [Text.lines, written, String.toList_ofList]
  induction lines with
  | nil => rfl
  | cons l lines ih =>
    have hfeed : '\n' ∉ l.chars := WordLine.not_mem_chars (by decide) (by decide)
    have hreturn : '\r' ∉ l.chars := WordLine.not_mem_chars (by decide) (by decide)
    rw [List.flatMap_cons, List.append_assoc, List.singleton_append, linesFrom_append hfeed,
      List.append_nil, closeLine_reverse hreturn, ih, List.map_cons]

/-- **The reader finds the lines that were written**, each under its number. -/
theorem numberedLines_written (lines : List WordLine) :
    numberedLines (written lines) = lines.zipIdx.map fun l => (l.2 + 1, l.1.line) := by
  rw [numberedLines, lines_written, List.zipIdx_map, List.filterMap_map, ← List.filterMap_eq_map]
  refine List.filterMap_congr fun ⟨l, index⟩ _ => ?_
  simp [WordLine.ofChars?_chars]

end Milp.Mps
