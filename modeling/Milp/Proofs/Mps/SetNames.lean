/-
The names of sets carry no meaning.

In front of right-hand sides, ranges and bounds there may stand the name of the set that
they belong to. The reader passes it over, and whether it is there is told by the number of
fields alone -- but for one kind of line. A line `BV` with two more fields may be a set and
a column, or a column and something that is ignored, and the reader takes it for the latter
if the first of the two is a column that it knows.

`IsSetName` says where a word is passed over. A line there is read alike whatever the word
is (`dataLine_setName`), so exchanging it changes nothing in what is read of the text; and
any number of such exchanges, one after the other, changes nothing either
(`read_retitled`). For the one kind of line it must not be exchanged for the name of a
column: `read_taken_for_column` has the text that shows why.
-/
import Milp.Proofs.Mps.Layout
import Milp.Proofs.Mps.Steps

set_option autoImplicit false

namespace Milp.Mps

variable {α : Type} [Number α]

/-! ## Set names -/

/-- Whether the name of a set, between the fields before and after it, is passed over by a
line. -/
def IsSetName (p : Progress α) (before : List String) (name : String) (after : List String) :
    Prop :=
  match p.part, before with
  | .rhs, [] | .ranges, [] => after.length = 2 ∨ after.length = 4
  | .bounds, [kind] =>
    after.length = 2
      ∨ (after.length = 1 ∧ Draft.takesValue (upperCase kind) = false
        -- the name of a column would be taken for the column of the bound
        ∧ (upperCase kind = "BV" → p.draft.columnIndex? name = none))
  | _, _ => False

omit [Number α] in
/-- The pairs of a line do not depend on the name of the set. -/
theorem pairs_setName (line : Nat) (title name name' : String) {after : List String}
    (h : after.length = 2 ∨ after.length = 4) :
    (Draft.pairs line title (name :: after) : Except (Fault α) _)
      = Draft.pairs line title (name' :: after) := by
  match after, h with
  | [row, value], _ => rfl
  | [row, value, row', value'], _ => rfl

/-- With all four fields, a bound does not depend on the name of the set. -/
theorem boundFields_setName (d : Draft α) (line : Nat) (kind name name' : String)
    {after : List String} (h : after.length = 2) :
    d.boundFields line kind (name :: after) = d.boundFields line kind (name' :: after) := by
  obtain ⟨column, value, rfl⟩ := List.length_eq_two.mp h
  unfold Draft.boundFields
  split <;> rfl

/-- What is no column is passed over in front of the last field. -/
theorem boundFields_of_not_column {d : Draft α} {kind name : String}
    (valueless : Draft.takesValue kind = false)
    (other : kind = "BV" → d.columnIndex? name = none) (line : Nat) (column : String) :
    d.boundFields line kind [name, column] = .ok (column, 0) := by
  have hnot : ¬ (kind == "BV" && (d.columnIndex? name).isSome) = true := by
    intro h
    obtain ⟨hkind, hsome⟩ := Bool.and_eq_true_iff.mp h
    rw [other (beq_iff_eq.mp hkind)] at hsome
    cases hsome
  unfold Draft.boundFields
  rw [valueless, if_neg Bool.false_ne_true]
  exact if_neg hnot

/-- **A line is read alike** whatever the name of the set is. -/
theorem dataLine_setName {p : Progress α} {before after : List String} {name name' : String}
    (h : IsSetName p before name after) (h' : IsSetName p before name' after) (line : Nat) :
    p.draft.dataLine p.part line (before ++ name :: after)
      = p.draft.dataLine p.part line (before ++ name' :: after) := by
  obtain ⟨part, d⟩ := p
  unfold IsSetName at h
  split at h
  · rename_i hpart
    obtain rfl : part = .rhs := hpart
    show d.rhsLine line (name :: after) = d.rhsLine line (name' :: after)
    rw [Draft.rhsLine, Draft.rhsLine, pairs_setName line "RHS" name name' h]
  · rename_i hpart
    obtain rfl : part = .ranges := hpart
    show d.rangeLine line (name :: after) = d.rangeLine line (name' :: after)
    rw [Draft.rangeLine, Draft.rangeLine, pairs_setName line "RANGES" name name' h]
  · rename_i kind hpart
    obtain rfl : part = .bounds := hpart
    have hfields : d.boundFields line (upperCase kind) (name :: after)
        = d.boundFields line (upperCase kind) (name' :: after) := by
      rcases h with htwo | ⟨hone, hvalueless, hother⟩
      · exact boundFields_setName d line _ name name' htwo
      · rcases h' with htwo | ⟨-, -, hother'⟩
        · omega
        · obtain ⟨column, rfl⟩ := List.length_eq_one_iff.mp hone
          rw [boundFields_of_not_column hvalueless hother,
            boundFields_of_not_column hvalueless hother']
    show d.boundLine line (kind :: name :: after) = d.boundLine line (kind :: name' :: after)
    rw [Draft.boundLine, Draft.boundLine, hfields]
  · cases h

/-! ## Words in a line -/

theorem words_of_word (w : Word) : Text.words w.text.toList = [w.text] := by
  have hspaced : spaced [w] = w.text.toList := by
    rw [spaced_cons, List.isEmpty_nil, if_pos rfl, List.append_nil]
  rw [← hspaced, words_spaced]
  rfl

/-- A word that stands apart is a field of its own. -/
theorem words_apart {left right : List Char} (w : Word)
    (apart : left.getLast?.any Text.isBlank = true)
    (apart' : right.head?.all Text.isBlank = true) :
    Text.words (left ++ w.text.toList ++ right)
      = Text.words left ++ w.text :: Text.words right := by
  have hblank : ∀ {c : Char}, Text.isBlank c = true → ∀ b ∈ [c], Text.isBlank b = true := by
    intro c hc b hb
    rw [List.mem_singleton.mp hb]
    exact hc
  have hright : Text.words (w.text.toList ++ right) = w.text :: Text.words right := by
    cases right with
    | nil => rw [List.append_nil, words_of_word]; rfl
    | cons c right =>
      have hc : Text.isBlank c = true := apart'
      have hgap := words_gap (List.cons_ne_nil c []) (hblank hc)
      rw [← List.singleton_append, ← List.append_assoc, hgap, words_of_word, ← List.nil_append [c],
        hgap]
      rfl
  induction left using List.reverseRecOn with
  | nil => cases apart
  | append_singleton left c _ =>
    have hc : Text.isBlank c = true := by simpa using apart
    rw [words_trailing (hblank hc), List.append_assoc,
      words_gap (List.cons_ne_nil c []) (hblank hc), hright]

/-! ## Exchanging a name -/

variable (α) in
/-- A place for a word in a text: what stands in front of its line and behind it, the line
around it, and what has been read when the line is reached. -/
structure WordPlace where
  before : List Char
  left : List Char
  right : List Char
  after : List Char
  progress : Progress α
  whole : AtLineStart before
  ended : AtLineEnd after
  single : '\n' ∉ left ∧ '\n' ∉ right
  /-- The line holds data. -/
  indented : left.head?.any Text.isBlank = true
  apart : left.getLast?.any Text.isBlank = true
  apart' : right.head?.all Text.isBlank = true
  reached : (numbered 1 before).foldlM Progress.step .start = .ok progress

namespace WordPlace

/-- The text with a word in the place. -/
def text (p : WordPlace α) (w : Word) : List Char :=
  p.before ++ (p.left ++ w.text.toList ++ p.right) ++ p.after

/-- Whether the word is the name of a set there. -/
def Takes (p : WordPlace α) (w : Word) : Prop :=
  IsSetName p.progress (Text.words p.left) w.text (Text.words p.right)

variable (p : WordPlace α) (w : Word)

theorem not_mem_line : '\n' ∉ p.left ++ w.text.toList ++ p.right := by
  have hword : '\n' ∉ w.text.toList := by
    intro hmem
    have hvisible := w.not_isBlank '\n' hmem
    cases hvisible
  simp only [List.mem_append, not_or]
  exact ⟨⟨p.single.1, hword⟩, p.single.2⟩

/-- The line says what stands in front of the word, the word, and what stands behind it. -/
theorem ofChars?_line :
    Line.ofChars? (p.left ++ w.text.toList ++ p.right)
      = some (.data (Text.words p.left ++ w.text :: Text.words p.right)) := by
  obtain ⟨c, left, hleft⟩ : ∃ c left, p.left = c :: left := by
    refine List.exists_cons_of_ne_nil fun hnil => ?_
    have hindented := p.indented
    rw [hnil] at hindented
    cases hindented
  have hc : Text.isBlank c = true := by
    have hindented := p.indented
    rw [hleft] at hindented
    exact hindented
  have hstar : c ≠ '*' := by
    rintro rfl
    cases hc
  have hvisible : (p.left ++ w.text.toList ++ p.right).all Text.isBlank = false := by
    obtain ⟨v, word, hv⟩ := List.exists_cons_of_ne_nil w.toList_ne_nil
    refine WordLine.not_all_isBlank ⟨v, ?_, w.not_isBlank v ?_⟩
    · simp [hv]
    · simp [hv]
  rw [ofChars?_eq, ← words_apart w p.apart p.apart', hvisible, hleft]
  simp [hc, hstar]

/-- The lines of the text: those in front, the one of the word, and those behind it. -/
theorem numbered_text :
    numbered 1 (p.text w)
      = numbered 1 p.before
        ++ (1 + p.before.count '\n', .data (Text.words p.left ++ w.text :: Text.words p.right))
          :: numbered (1 + p.before.count '\n' + 1) (p.after.drop 1) := by
  rw [text, List.append_assoc, numbered_append p.whole,
    numbered_line_append (p.not_mem_line w) p.ended, p.ofChars?_line w]
  rfl

/-- **Two names of a set** in one place make no difference to what is read. -/
theorem foldlM_text {w w' : Word} (h : p.Takes w) (h' : p.Takes w') :
    (numbered 1 (p.text w)).foldlM Progress.step (.start : Progress α)
      = (numbered 1 (p.text w')).foldlM Progress.step .start := by
  have hstep : p.progress.step (1 + p.before.count '\n',
        .data (Text.words p.left ++ w.text :: Text.words p.right))
      = p.progress.step (1 + p.before.count '\n',
        .data (Text.words p.left ++ w'.text :: Text.words p.right)) := by
    rw [Progress.step, Progress.step, Progress.readLine, Progress.readLine,
      dataLine_setName h h']
  rw [numbered_text, numbered_text, List.foldlM_append, List.foldlM_append, p.reached]
  show List.foldlM _ _ _ = List.foldlM _ _ _
  rw [List.foldlM_cons, List.foldlM_cons, hstep]

end WordPlace

variable (α) in
/-- One name of a set exchanged for another. -/
def Retitled (text text' : String) : Prop :=
  ∃ (p : WordPlace α) (w w' : Word), p.Takes w ∧ p.Takes w'
    ∧ text.toList = p.text w ∧ text'.toList = p.text w'

/-- **The names of sets carry no meaning.** Where names of sets are exchanged for others, one
after the other, what is read is the same. -/
theorem ofText_retitled {text text' : String} (h : Relation.ReflTransGen (Retitled α) text text') :
    (Draft.ofText text' : Except (Fault α) (Draft α)) = Draft.ofText text := by
  induction h with
  | refl => rfl
  | tail _ last ih =>
    obtain ⟨p, w, w', hw, hw', htext, htext'⟩ := last
    rw [← ih, Draft.ofText_eq, Draft.ofText_eq, htext, htext', p.foldlM_text hw hw']

/-- **The names of sets carry no meaning** for a text that is accepted: with other names it is
accepted too, and the model is the same, up to the identity that it gets. -/
theorem read_retitled {text text' : String} (h : Relation.ReflTransGen (Retitled α) text text')
    {id : ModelId} {m : Model α} (accepted : Mps.read id text = .ok m) (id' : ModelId) :
    Mps.read id' text' = .ok (m.renamed fun _ => id') := by
  rw [Mps.read, Attempt.bind_eq_ok_iff] at accepted
  obtain ⟨d, hread, hmade⟩ := accepted
  rw [Mps.read, ofText_retitled h, hread]
  exact Draft.toModel_renamed hmade id'

/-! ## A name that is taken for a column -/

/-- What has been read of a text with two columns, up to its bounds. -/
def twoColumns : Progress ExtRat where
  part := .bounds
  draft :=
    { name := "", sense := .minimize
      rows := [⟨"obj", .objective, [(0, .fin 1), (1, .fin 1)], .fin 0, none⟩]
      columns := [⟨"x", .continuous, .fin 0, .posInf, false⟩,
        ⟨"y", .continuous, .fin 0, .posInf, false⟩]
      integerBlock := false, constant := .fin 0 }

/-- The place of the name in a line of that text that makes a column binary. -/
def binaryPlace : WordPlace ExtRat where
  before := "ROWS\n N obj\nCOLUMNS\n x obj 1\n y obj 1\nBOUNDS\n".toList
  left := " BV ".toList
  right := " x".toList
  after := "\nENDATA\n".toList
  progress := twoColumns
  whole := by decide
  ended := by decide
  single := by decide
  indented := by decide
  apart := by decide
  apart' := by decide
  reached := by with_unfolding_all rfl

/-- Any word but the names of the two columns is the name of a set there. -/
theorem takes_binaryPlace {w : Word} (first : w.text ≠ "x") (second : w.text ≠ "y") :
    binaryPlace.Takes w := by
  have hleft : Text.words binaryPlace.left = ["BV"] := by decide
  have hright : Text.words binaryPlace.right = ["x"] := by decide
  have hkind : upperCase "BV" = "BV" := by
    rw [upperCase, ← String.toList_inj, String.toList_map]
    decide
  have hvalueless : Draft.takesValue (upperCase "BV") = false := by
    rw [hkind]
    decide
  have hother : twoColumns.draft.columnIndex? w.text = none := by
    rw [Draft.columnIndex?, List.findIdx?_eq_none_iff]
    intro c hc
    rw [beq_eq_false_iff_ne]
    rcases List.mem_cons.mp hc with rfl | hc
    · exact first.symm
    · rw [List.mem_singleton.mp hc]
      exact second.symm
  rw [WordPlace.Takes, hleft, hright]
  exact .inr ⟨rfl, hvalueless, fun _ => hother⟩

/-- The text with a name in the place. -/
def binaryText (name : Word) : String := String.ofList (binaryPlace.text name)

def setName : Word := ⟨"b", by decide⟩
def rowName : Word := ⟨"obj", by decide⟩

theorem isWord_y : isWord "y" = true := by decide

def columnName : Word := ⟨"y", isWord_y⟩

/-- The model with a kind for each of the columns, and the bounds that go with it. -/
def binaryModel (id : ModelId) (vars : List (Variable ExtRat)) : Model ExtRat where
  id := id
  name := ""
  vars := vars
  constraints := []
  objective := ⟨.minimize, [(⟨id, 0⟩, .fin 1), (⟨id, 1⟩, .fin 1)], .fin 0⟩

theorem read_setName : Mps.read ⟨1⟩ (binaryText setName)
    = .ok (binaryModel ⟨1⟩ [⟨"x", .binary, ⟨.fin 0, .fin 1⟩⟩,
        ⟨"y", .continuous, ⟨.fin 0, .posInf⟩⟩]) := by
  with_unfolding_all rfl

/-- The name of a set may be the name of a row. -/
theorem read_retitled_row :
    Relation.ReflTransGen (Retitled ExtRat) (binaryText setName) (binaryText rowName)
      ∧ Mps.read ⟨2⟩ (binaryText rowName)
        = .ok (binaryModel ⟨2⟩ [⟨"x", .binary, ⟨.fin 0, .fin 1⟩⟩,
            ⟨"y", .continuous, ⟨.fin 0, .posInf⟩⟩]) := by
  have hexchanged : Retitled ExtRat (binaryText setName) (binaryText rowName) :=
    ⟨binaryPlace, setName, rowName, takes_binaryPlace (by decide) (by decide),
      takes_binaryPlace (by decide) (by decide), String.toList_ofList, String.toList_ofList⟩
  have hread := read_retitled (.single hexchanged) read_setName ⟨2⟩
  exact ⟨.single hexchanged, hread⟩

/-- **But not the name of a column**, on such a line: then that column is made binary. -/
theorem read_taken_for_column :
    ¬ ∀ (p : WordPlace ExtRat) (w w' : Word) (m : Model ExtRat), p.Takes w →
      Mps.read ⟨1⟩ (String.ofList (p.text w)) = .ok m →
      Mps.read ⟨2⟩ (String.ofList (p.text w')) = .ok (m.renamed fun _ => ⟨2⟩) := by
  intro h
  have hsame := h binaryPlace setName columnName _ (takes_binaryPlace (by decide) (by decide))
    read_setName
  have hread : Mps.read ⟨2⟩ (binaryText columnName)
      = .ok (binaryModel ⟨2⟩ [⟨"x", .continuous, ⟨.fin 0, .posInf⟩⟩,
          ⟨"y", .binary, ⟨.fin 0, .fin 1⟩⟩]) := by
    with_unfolding_all rfl
  have hvars := congrArg Model.vars (Except.ok.inj (hread.symm.trans hsame))
  -- the first column is binary in one model only
  injection hvars with hfirst
  injection hfirst with _ hkind
  cases hkind

end Milp.Mps
