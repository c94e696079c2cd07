/-
What the lines of a text say, wherever they stand and however they are spaced.

The reader cuts a text into lines and takes from each the little that it uses: whether it
says anything, whether it starts in the first column, and its words. This file says how
that depends on the characters. Within a line, how wide a gap between two words is makes no
difference, nor does what blanks follow the last (`ofChars?_gap`, `ofChars?_trailing`); the
carriage return of a line end is such a blank. Between lines, a text may be cut at any line
end, and both sides are read for themselves, the second from the number on at which the
first stops (`numbered_append`).

`numbered` is `numberedLines` from an arbitrary number on, which is what the inductions
need.
-/
import Milp.Proofs.Mps.Lines

set_option autoImplicit false

namespace Milp.Mps

/-! ## Words -/

theorem wordsFrom_blanks {gap : List Char} (blank : ∀ c ∈ gap, Text.isBlank c = true)
    (rest : List Char) : Text.wordsFrom [] (gap ++ rest) = Text.wordsFrom [] rest := by
  induction gap with
  | nil => rfl
  | cons c gap ih =>
    obtain ⟨hc, hgap⟩ := List.forall_mem_cons.mp blank
    rw [List.cons_append, Text.wordsFrom, if_pos hc, List.isEmpty_nil, if_pos rfl]
    exact ih hgap

/-- **A gap ends a word**, and what follows is read afresh. -/
theorem wordsFrom_gap {gap : List Char} (nonempty : gap ≠ [])
    (blank : ∀ c ∈ gap, Text.isBlank c = true) (current left right : List Char) :
    Text.wordsFrom current (left ++ gap ++ right)
      = Text.wordsFrom current left ++ Text.wordsFrom [] right := by
  induction left generalizing current with
  | nil =>
    obtain ⟨c, gap, rfl⟩ := List.exists_cons_of_ne_nil nonempty
    obtain ⟨hc, hgap⟩ := List.forall_mem_cons.mp blank
    rw [List.nil_append, List.cons_append, Text.wordsFrom.eq_2, if_pos hc, wordsFrom_blanks hgap,
      Text.wordsFrom.eq_1]
    split <;> rfl
  | cons c left ih =>
    rw [List.cons_append, List.cons_append, Text.wordsFrom.eq_2, Text.wordsFrom.eq_2]
    by_cases hc : Text.isBlank c = true
    · rw [if_pos hc, if_pos hc, ih]
      split <;> rfl
    · rw [if_neg hc, if_neg hc]
      exact ih (c :: current)

theorem words_gap {gap : List Char} (nonempty : gap ≠ [])
    (blank : ∀ c ∈ gap, Text.isBlank c = true) (left right : List Char) :
    Text.words (left ++ gap ++ right) = Text.words left ++ Text.words right := by
  rw [Text.words, wordsFrom_gap nonempty blank, List.map_append]
  rfl

theorem words_trailing {gap : List Char} (blank : ∀ c ∈ gap, Text.isBlank c = true)
    (cs : List Char) : Text.words (cs ++ gap) = Text.words cs := by
  by_cases hgap : gap = []
  · rw [hgap, List.append_nil]
  · have hwords := words_gap hgap blank cs []
    rwa [List.append_nil, show Text.words [] = [] from rfl, List.append_nil] at hwords

/-! ## What a line says -/

/-- A line is known by its first character, by whether it is blank, and by its words. -/
theorem ofChars?_eq (cs : List Char) :
    Line.ofChars? cs
      = if cs.head? = some '*' ∨ cs.all Text.isBlank = true then none
        else if cs.head?.any Text.isBlank then some (.data (Text.words cs))
        else some (.header (Text.words cs)) := by
  cases cs with
  | nil => rfl
  | cons first rest =>
    rw [Line.ofChars?]
    exact if_congr (by simp) rfl (if_congr (by simp) rfl rfl)

theorem all_isBlank {gap : List Char} (blank : ∀ c ∈ gap, Text.isBlank c = true) :
    gap.all Text.isBlank = true :=
  List.all_eq_true.mpr blank

/-- **Blanks at the end of a line** say nothing. -/
theorem ofChars?_trailing {gap : List Char} (blank : ∀ c ∈ gap, Text.isBlank c = true)
    (cs : List Char) : Line.ofChars? (cs ++ gap) = Line.ofChars? cs := by
  rw [ofChars?_eq, ofChars?_eq, words_trailing blank, List.all_append, all_isBlank blank,
    Bool.and_true]
  cases cs with
  | nil => simp
  | cons first rest => rfl

/-- **The width of a gap** says nothing, as long as it is there. -/
theorem ofChars?_gap {gap gap' : List Char} (nonempty : gap ≠ []) (nonempty' : gap' ≠ [])
    (blank : ∀ c ∈ gap, Text.isBlank c = true) (blank' : ∀ c ∈ gap', Text.isBlank c = true)
    (left right : List Char) :
    Line.ofChars? (left ++ gap ++ right) = Line.ofChars? (left ++ gap' ++ right) := by
  have hhead : ∀ {gap : List Char}, gap ≠ [] → (∀ c ∈ gap, Text.isBlank c = true) →
      ((left ++ gap ++ right).head? = some '*' ↔ left.head? = some '*')
        ∧ (left ++ gap ++ right).head?.any Text.isBlank = left.head?.all Text.isBlank := by
    intro gap hne hblank
    cases left with
    | nil =>
      obtain ⟨c, gap, rfl⟩ := List.exists_cons_of_ne_nil hne
      have hc := hblank c List.mem_cons_self
      have hstar : c ≠ '*' := by
        rintro rfl
        cases hc
      simp [hc, hstar]
    | cons first rest => simp
  obtain ⟨hstar, hfirst⟩ := hhead nonempty blank
  obtain ⟨hstar', hfirst'⟩ := hhead nonempty' blank'
  rw [ofChars?_eq, ofChars?_eq, words_gap nonempty blank, words_gap nonempty' blank', hfirst,
    hfirst']
  simp only [hstar, hstar', List.all_append, all_isBlank blank, all_isBlank blank', Bool.and_true]

/-- The carriage return of a line end says nothing. -/
theorem ofChars?_closeLine (reversed : List Char) :
    Line.ofChars? (Text.closeLine reversed) = Line.ofChars? reversed.reverse := by
  rw [Text.closeLine.eq_def]
  split
  · have hreturn : ∀ c ∈ ['\r'], Text.isBlank c = true := by
      intro c hc
      rw [List.mem_singleton.mp hc]
      rfl
    rw [List.reverse_cons, ofChars?_trailing hreturn]
  · rfl

/-! ## Numbered lines -/

/-- What some lines say, numbered from a number on. -/
def numberedFrom (start : Nat) (lines : List (List Char)) : List (Nat × Line) :=
  (lines.zipIdx start).filterMap fun (cs, index) =>
    (Line.ofChars? cs).map fun line => (index, line)

/-- What the lines of a text say, numbered from a number on. -/
def numbered (start : Nat) (cs : List Char) : List (Nat × Line) :=
  numberedFrom start (Text.linesFrom [] cs)

theorem numberedFrom_cons (start : Nat) (cs : List Char) (lines : List (List Char)) :
    numberedFrom start (cs :: lines)
      = ((Line.ofChars? cs).map fun line => (start, line)).toList
        ++ numberedFrom (start + 1) lines := by
  rw [numberedFrom, List.zipIdx_cons, List.filterMap_cons]
  dsimp only
  cases Line.ofChars? cs <;> rfl

/-- From another number on, the same lines have other numbers. -/
theorem numberedFrom_succ (start : Nat) (lines : List (List Char)) :
    numberedFrom (start + 1) lines
      = (numberedFrom start lines).map fun l => (l.1 + 1, l.2) := by
  induction lines generalizing start with
  | nil => rfl
  | cons cs lines ih =>
    rw [numberedFrom_cons, numberedFrom_cons, List.map_append, ih]
    cases Line.ofChars? cs <;> rfl

theorem numbered_succ (start : Nat) (cs : List Char) :
    numbered (start + 1) cs = (numbered start cs).map fun l => (l.1 + 1, l.2) :=
  numberedFrom_succ start _

theorem numberedLines_eq (text : String) : numberedLines text = numbered 1 text.toList := by
  rw [numberedLines, numbered, numberedFrom_succ, numberedFrom, List.map_filterMap]
  refine List.filterMap_congr ?_
  rintro ⟨cs, index⟩ -
  rw [Option.map_map]
  rfl

/-! ### Cutting a text -/

theorem linesFrom_of_not_mem {cs : List Char} (h : '\n' ∉ cs) (current : List Char) :
    Text.linesFrom current cs = Text.linesFrom (cs.reverse ++ current) [] := by
  induction cs generalizing current with
  | nil => rfl
  | cons c cs ih =>
    obtain ⟨hc, hcs⟩ := not_or.mp (mt List.mem_cons.mpr h)
    rw [Text.linesFrom.eq_2, if_neg (Ne.symm hc), ih hcs, List.reverse_cons, List.append_assoc]
    rfl

/-- What has been read of a last line is one line, or none. -/
theorem numberedFrom_linesFrom_nil (start : Nat) (current : List Char) :
    numberedFrom start (Text.linesFrom current [])
      = ((Line.ofChars? current.reverse).map fun line => (start, line)).toList := by
  rw [Text.linesFrom]
  cases current with
  | nil => rfl
  | cons c current =>
    rw [List.isEmpty_cons, if_neg Bool.false_ne_true, numberedFrom_cons]
    exact List.append_nil _

/-- A text of one line. -/
theorem numbered_line {line : List Char} (h : '\n' ∉ line) (start : Nat) :
    numbered start line = ((Line.ofChars? line).map fun l => (start, l)).toList := by
  rw [numbered, linesFrom_of_not_mem h, numberedFrom_linesFrom_nil, List.append_nil,
    List.reverse_reverse]

/-- **A text may be cut at a line end.** -/
theorem numbered_cut (start : Nat) (before after : List Char) :
    numbered start (before ++ '\n' :: after)
      = numbered start before ++ numbered (start + before.count '\n' + 1) after := by
  -- what has been read of the first line is arbitrary in the induction
  have hcut : ∀ current, numberedFrom start (Text.linesFrom current (before ++ '\n' :: after))
      = numberedFrom start (Text.linesFrom current before)
        ++ numberedFrom (start + before.count '\n' + 1) (Text.linesFrom [] after) := by
    induction before generalizing start with
    | nil =>
      intro current
      rw [List.nil_append, Text.linesFrom.eq_2, if_pos rfl, numberedFrom_cons, ofChars?_closeLine,
        numberedFrom_linesFrom_nil]
      rfl
    | cons c before ih =>
      intro current
      rw [List.cons_append, Text.linesFrom.eq_2, Text.linesFrom.eq_2]
      by_cases hc : c = '\n'
      · have hnumber : start + (c :: before).count '\n' + 1
            = start + 1 + before.count '\n' + 1 := by
          rw [hc, List.count_cons_self]
          omega
        rw [if_pos hc, if_pos hc, numberedFrom_cons, numberedFrom_cons, ih, hnumber,
          List.append_assoc]
      · rw [if_neg hc, if_neg hc, ih, List.count_cons_of_ne hc]
  exact hcut []

theorem length_linesFrom_le (current cs : List Char) :
    (Text.linesFrom current cs).length ≤ cs.count '\n' + 1 := by
  induction cs generalizing current with
  | nil =>
    rw [Text.linesFrom]
    split <;> simp
  | cons c cs ih =>
    rw [Text.linesFrom.eq_2]
    by_cases hc : c = '\n'
    · have hrest := ih []
      rw [if_pos hc, hc, List.length_cons, List.count_cons_self]
      omega
    · rw [if_neg hc, List.count_cons_of_ne hc]
      exact ih (c :: current)

/-- The numbers go from that of the first line to that of the last. -/
theorem number_le {start : Nat} {cs : List Char} {l : Nat × Line} (h : l ∈ numbered start cs) :
    start ≤ l.1 ∧ l.1 ≤ start + cs.count '\n' := by
  obtain ⟨⟨line, index⟩, hmem, hline⟩ := List.mem_filterMap.mp h
  obtain ⟨said, -, rfl⟩ := Option.map_eq_some_iff.mp hline
  obtain ⟨hle, hlt, -⟩ := List.mem_zipIdx hmem
  have hcount := length_linesFrom_le [] cs
  dsimp only
  omega

/-! ### Lines in their place -/

/-- Whatever stands before ends with a line end. -/
def AtLineStart (before : List Char) : Prop := ∀ c ∈ before.getLast?, c = '\n'

/-- Whatever stands behind starts with a line end. -/
def AtLineEnd (after : List Char) : Prop := ∀ c ∈ after.head?, c = '\n'

instance (before : List Char) : Decidable (AtLineStart before) :=
  before.getLast?.decidableForallMem

instance (after : List Char) : Decidable (AtLineEnd after) :=
  after.head?.decidableForallMem

/-- A line end after the last line starts no other. -/
theorem numbered_finished (start : Nat) (cs : List Char) :
    numbered start (cs ++ ['\n']) = numbered start cs := by
  have hnothing : numbered (start + cs.count '\n' + 1) [] = [] := rfl
  rw [numbered_cut, hnothing, List.append_nil]

theorem count_concat_newline (cs : List Char) : (cs ++ ['\n']).count '\n' = cs.count '\n' + 1 := by
  rw [List.count_append]
  rfl

/-- **Whole lines in front** are read for themselves. -/
theorem numbered_append {before : List Char} (whole : AtLineStart before) (start : Nat)
    (after : List Char) :
    numbered start (before ++ after)
      = numbered start before ++ numbered (start + before.count '\n') after := by
  induction before using List.reverseRecOn with
  | nil => rfl
  | append_singleton before c _ =>
    obtain rfl : c = '\n' := whole c (by simp)
    rw [List.append_assoc, List.singleton_append, numbered_cut, numbered_finished,
      count_concat_newline]
    rfl

/-- The numbers of whole lines are below that of what follows. -/
theorem number_lt {before : List Char} (whole : AtLineStart before) {start : Nat}
    {l : Nat × Line} (h : l ∈ numbered start before) : l.1 < start + before.count '\n' := by
  induction before using List.reverseRecOn with
  | nil => cases h
  | append_singleton before c _ =>
    obtain rfl : c = '\n' := whole c (by simp)
    rw [numbered_finished] at h
    have hle := (number_le h).2
    rw [count_concat_newline]
    omega

/-- **A line by itself.** What it says comes first, and what comes after does not depend on
it. -/
theorem numbered_line_append {line after : List Char} (single : '\n' ∉ line)
    (ended : AtLineEnd after) (start : Nat) :
    numbered start (line ++ after)
      = ((Line.ofChars? line).map fun l => (start, l)).toList
        ++ numbered (start + 1) (after.drop 1) := by
  cases after with
  | nil => rw [List.append_nil, numbered_line single]; exact (List.append_nil _).symm
  | cons c after =>
    obtain rfl : c = '\n' := ended c rfl
    rw [numbered_cut, numbered_line single, List.count_eq_zero_of_not_mem single]
    rfl

/-- A line may be exchanged for one that says the same. -/
theorem numbered_exchange {before line line' after : List Char} (whole : AtLineStart before)
    (ended : AtLineEnd after) (single : '\n' ∉ line) (single' : '\n' ∉ line')
    (same : Line.ofChars? line' = Line.ofChars? line) (start : Nat) :
    numbered start (before ++ line' ++ after) = numbered start (before ++ line ++ after) := by
  rw [List.append_assoc, List.append_assoc, numbered_append whole, numbered_append whole,
    numbered_line_append single' ended, numbered_line_append single ended, same]

end Milp.Mps
