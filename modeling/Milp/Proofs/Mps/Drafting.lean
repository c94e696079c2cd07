/-
What one more line does to a draft.

The reader changes its draft line by line. Here each change is compared with the draft of a
content (`Content.draft`): reading one more row, entry, right-hand side, range or bound
leads from the draft of a content to that of the content with the item at the end. The
reader finds rows and columns by position, contents know them by name; that names are
distinct makes the two agree (`modify_map`).

Two things are carried along with care. A column gets its place when it is first mentioned,
and no later mention moves it. And the bound lines of a column come in any order, so what
an upper end below zero does to the lower end is settled only when all have been read.
-/
import Milp.Mps.Reader
import Milp.Proofs.Mps.Content

set_option autoImplicit false

namespace Milp.Mps

open Number (Finitary)

/-! ## Finding by name -/

section Names

variable {β γ : Type} {key : β → String} {items : List β}

/-- A name that is there is found at the place of an item that has it. -/
theorem exists_findIdx? {name : String} (h : name ∈ items.map key) :
    ∃ i b, items[i]? = some b ∧ key b = name
      ∧ items.findIdx? (fun a => key a == name) = some i := by
  obtain ⟨b, hb, hkey⟩ := List.mem_map.mp h
  have hsome : (items.findIdx? fun a => key a == name).isSome = true := by
    rw [List.findIdx?_isSome, List.any_eq_true]
    exact ⟨b, hb, by simpa using hkey⟩
  obtain ⟨i, hi⟩ := Option.isSome_iff_exists.mp hsome
  obtain ⟨hlt, hname, -⟩ := List.findIdx?_eq_some_iff_getElem.mp hi
  exact ⟨i, items[i], List.getElem?_eq_getElem hlt, eq_of_beq hname, hi⟩

/-- Changing the item at a place changes the item of its name. -/
theorem modify_map (distinct : (items.map key).Nodup) {i : Nat} {b : β}
    (h : items[i]? = some b) (g : β → γ) (change : γ → γ) :
    (items.map g).modify i change
      = items.map fun a => if key a = key b then change (g a) else g a := by
  obtain ⟨hi, rfl⟩ := List.getElem?_eq_some_iff.mp h
  refine List.ext_getElem (by simp) fun j hj _ => ?_
  rw [List.length_modify, List.length_map] at hj
  have hsame : key items[j] = key items[i] ↔ i = j := by
    have hj' : j < (items.map key).length := by simpa using hj
    have hi' : i < (items.map key).length := by simpa using hi
    have hinj : (items.map key)[j] = (items.map key)[i] ↔ j = i := distinct.getElem_inj_iff
    rw [List.getElem_map, List.getElem_map] at hinj
    rw [hinj, eq_comm]
  simp only [List.getElem_modify, List.getElem_map, hsame]

end Names

namespace Content

variable {α : Type} [Number α] (c : Content α)

/-! ## Longer contents -/

omit [Number α] in
def withRow (r : NamedRow) : Content α := { c with rows := c.rows ++ [r] }

omit [Number α] in
def withMention (column : String) (whole : Bool) : Content α :=
  { c with mentions := c.mentions ++ [(column, whole)] }

omit [Number α] in
def withEntry (e : Entry α) : Content α := { c with entries := c.entries ++ [e] }

omit [Number α] in
def withRhs (row : String) (value : α) : Content α := { c with rhs := c.rhs ++ [(row, value)] }

omit [Number α] in
def withRange (row : String) (value : α) : Content α :=
  { c with ranges := c.ranges ++ [(row, value)] }

omit [Number α] in
def withLimit (column : String) (l : Limit α) : Content α :=
  { c with limits := c.limits ++ [(column, l)] }

variable {c} {whole : Bool}

/-! ## Rows -/

omit [Number α] in
theorem mem_of_objectiveRow? {r : NamedRow} (h : c.objectiveRow? = some r) : r ∈ c.rows :=
  List.mem_of_find?_eq_some h

omit [Number α] in
/-- The first free row stays the first. -/
theorem objectiveRow?_withRow (r : NamedRow) :
    (c.withRow r).objectiveRow?
      = c.objectiveRow?.or (if r.letter = .free then some r else none) := by
  rw [objectiveRow?, objectiveRow?, withRow, List.find?_append, List.find?_singleton]
  simp

omit [Number α] in
/-- What the rows so far are for does not change. -/
theorem rowKind_withRow {r s : NamedRow} (hs : s ∈ c.rows) :
    (c.withRow r).rowKind s = c.rowKind s := by
  cases hrelation : s.letter.relation? with
  | some relation => rw [rowKind, rowKind, hrelation]
  | none =>
    have hfree : s.letter = .free := by
      cases hletter : s.letter <;> rw [hletter] at hrelation <;> first | rfl | cases hrelation
    have hsome : c.objectiveRow?.isSome = true := by
      rw [objectiveRow?, List.find?_isSome]
      exact ⟨s, hs, by simp [hfree]⟩
    obtain ⟨o, ho⟩ := Option.isSome_iff_exists.mp hsome
    rw [rowKind, rowKind, hrelation, objectiveRow?_withRow, ho, Option.some_or]

/-- A draft has its objective once a free row is there. -/
theorem hasObjective_draft : (c.draft whole).hasObjective = c.objectiveRow?.isSome := by
  rw [← find?_rowKind, List.isSome_find?, Draft.hasObjective]
  show (c.rows.map c.rowDraft).any _ = _
  rw [List.any_map]
  rfl

theorem upperCase_letter (letter : RowLetter) : upperCase letter.text = letter.text := by
  cases letter <;> (rw [upperCase, ← String.toList_inj, String.toList_map]; decide)

/-- The letter of a row tells what it is for. -/
theorem readRowKind_draft {r : NamedRow} (new : r.name ∉ c.rowNames) (line : Nat) :
    (c.draft whole).readRowKind line r.letter.text = .ok ((c.withRow r).rowKind r) := by
  rw [Draft.readRowKind, upperCase_letter, rowKind, objectiveRow?_withRow, hasObjective_draft]
  cases hletter : r.letter with
  | atMost => rfl
  | atLeast => rfl
  | equal => rfl
  | free =>
    cases hrow : c.objectiveRow? with
    | none => simp [RowLetter.text, RowLetter.relation?]
    | some o =>
      have hne : o ≠ r := by
        rintro rfl
        exact new (List.mem_map_of_mem (mem_of_objectiveRow? hrow))
      simp [RowLetter.text, RowLetter.relation?, hne]

/-- **One more row.** It is declared before anything is said of rows. -/
theorem rowLine_draft {r : NamedRow} (new : r.name ∉ c.rowNames) (entries : c.entries = [])
    (rhs : c.rhs = []) (ranges : c.ranges = []) (line : Nat) :
    (c.draft whole).rowLine line [r.letter.text, r.name] = .ok ((c.withRow r).draft whole) := by
  have hnew : ((c.draft whole).rowIndex? r.name).isSome = false := by
    rw [Draft.rowIndex?, List.findIdx?_isSome]
    show (c.rows.map c.rowDraft).any _ = false
    rw [List.any_map, List.any_eq_false]
    intro s hs hname
    exact new (eq_of_beq hname ▸ List.mem_map_of_mem hs)
  -- the objective is the first free row, so one more row changes the kind of none before it
  have hlater : ∀ s ∈ c.rows, (c.withRow r).rowDraft s = c.rowDraft s := by
    intro s hs
    rw [rowDraft, rowDraft, rowKind_withRow hs]
    rfl
  have hown : (c.withRow r).rowDraft r
      = ⟨r.name, (c.withRow r).rowKind r, [], 0, none⟩ := by
    simp [rowDraft, termsOf, rhsOf, withRow, entries, rhs, ranges]
  have hconstant : (c.withRow r).constant = c.constant := by
    have hnone : ∀ c' : Content α, c'.rhs = [] → c'.constant = 0 := by
      intro c' hrhs
      rw [constant]
      split
      · rw [hrhs]
        rfl
      · rfl
    rw [hnone c rhs, hnone (c.withRow r) rhs]
  have hrows : (c.withRow r).rows.map (c.withRow r).rowDraft
      = c.rows.map c.rowDraft ++ [⟨r.name, (c.withRow r).rowKind r, [], 0, none⟩] := by
    rw [show (c.withRow r).rows = c.rows ++ [r] from rfl, List.map_append,
      List.map_congr_left hlater, List.map_singleton, hown]
  rw [Draft.rowLine, readRowKind_draft new line]
  show (if ((c.draft whole).rowIndex? r.name).isSome = true then _ else _) = _
  rw [hnew, if_neg Bool.false_ne_true, Draft.addRow, draft, draft, hrows, hconstant]
  rfl

/-! ## Columns and entries -/

omit [Number α] in
theorem mem_columns {column : String} : column ∈ c.columns ↔ column ∈ c.mentions.map Prod.fst :=
  List.mem_eraseDups

omit [Number α] in
/-- A column that is mentioned again stays where it is; a new one comes last. -/
theorem columns_withMention (column : String) :
    (c.withMention column whole).columns
      = if column ∈ c.columns then c.columns else c.columns ++ [column] := by
  rw [columns, withMention, List.map_append, List.map_singleton, eraseDups_concat]
  simp only [mem_columns]
  rfl

omit [Number α] in
theorem idxOf_withMention {column other : String} (h : other ∈ c.columns) :
    (c.withMention column whole).columns.idxOf other = c.columns.idxOf other := by
  rw [columns_withMention]
  split
  · rfl
  · exact List.idxOf_append_of_mem h

omit [Number α] in
theorem termsOf_withMention (mentioned : ∀ e ∈ c.entries, e.column ∈ c.columns)
    (column row : String) :
    (c.withMention column whole).termsOf row = c.termsOf row := by
  refine List.map_congr_left fun e he => ?_
  rw [idxOf_withMention (mentioned e (List.mem_filter.mp he).1)]

/-- Whether a column is whole was settled when it was first mentioned. -/
theorem columnDraft_withMention {column other : String} (h : other ∈ c.columns) :
    (c.withMention column whole).columnDraft other = c.columnDraft other := by
  have hwhole : (c.withMention column whole).isWhole other = c.isWhole other := by
    rw [isWhole, isWhole, withMention, List.lookup_append]
    cases hlookup : c.mentions.lookup other with
    | some w => rfl
    | none =>
      obtain ⟨m, hm, rfl⟩ := List.mem_map.mp (mem_columns.mp h)
      have hne := List.lookup_eq_none_iff.mp hlookup m hm
      simp at hne
  rw [columnDraft, columnDraft, hwhole]
  rfl

theorem columnIndex?_draft {column : String} (h : column ∈ c.columns) :
    (c.draft whole).columnIndex? column = some (c.columns.idxOf column) := by
  rw [Draft.columnIndex?]
  show (c.columns.map c.columnDraft).findIdx? _ = _
  rw [List.findIdx?_map]
  exact List.findIdx?_eq_some_of_exists ⟨column, h, beq_self_eq_true column⟩

theorem columnIndex?_draft_of_new (whole : Bool) {column : String} (h : column ∉ c.columns) :
    (c.draft whole).columnIndex? column = none := by
  rw [Draft.columnIndex?, List.findIdx?_eq_none_iff]
  intro d hd
  obtain ⟨other, hother, rfl⟩ := List.mem_map.mp hd
  exact beq_eq_false_iff_ne.mpr fun heq => h (heq ▸ hother)

/-- **A line about a column** declares it unless it is there already. No bounds have been
read yet. -/
theorem ensureColumn_draft (limits : c.limits = [])
    (mentioned : ∀ e ∈ c.entries, e.column ∈ c.columns) (column : String) :
    (c.draft whole).ensureColumn column
      = ((c.withMention column whole).columns.idxOf column,
        (c.withMention column whole).draft whole) := by
  have hrows : c.rows.map (c.withMention column whole).rowDraft = c.rows.map c.rowDraft := by
    refine List.map_congr_left fun r _ => ?_
    rw [rowDraft, rowDraft, termsOf_withMention mentioned]
    rfl
  have hold : c.columns.map (c.withMention column whole).columnDraft
      = c.columns.map c.columnDraft :=
    List.map_congr_left fun other hother => columnDraft_withMention hother
  by_cases hmem : column ∈ c.columns
  · -- a column that is mentioned again keeps its place
    have hcolumns : (c.withMention column whole).columns = c.columns := by
      rw [columns_withMention, if_pos hmem]
    rw [Draft.ensureColumn, columnIndex?_draft hmem, hcolumns, draft, draft, hcolumns, hold]
    show _ = (_, Draft.mk _ _ (c.rows.map _) _ _ _)
    rw [hrows]
    rfl
  · -- a new one goes to the end, and its kind is that of its first mention
    have hcolumns : (c.withMention column whole).columns = c.columns ++ [column] := by
      rw [columns_withMention, if_neg hmem]
    have hwhole : (c.withMention column whole).isWhole column = whole := by
      have hnone : c.mentions.lookup column = none :=
        List.lookup_eq_none_iff.mpr fun m hm => by
          rw [bne_iff_ne]
          rintro rfl
          exact hmem (mem_columns.mpr (List.mem_map_of_mem hm))
      rw [isWhole, withMention, List.lookup_append, hnone]
      simp
    have hnew : (c.withMention column whole).columnDraft column
        = ⟨column, if whole then .integer else .continuous, 0, Number.posInf, false⟩ := by
      have hnone : (c.withMention column whole).limitsOf column = [] := by
        rw [limitsOf, withMention, limits]
        rfl
      rw [columnDraft, hwhole, hnone]
      simp [Limit.draft, Limit.kind, Limit.lowerEnd, Limit.upperEnd]
    have hplace : (c.columns ++ [column]).idxOf column = c.columns.length := by
      rw [List.idxOf_append_of_notMem hmem]
      simp
    rw [Draft.ensureColumn, columnIndex?_draft_of_new whole hmem, hcolumns, hplace, draft, draft,
      hcolumns, List.map_append, hold, List.map_singleton, hnew]
    show (_, Draft.mk _ _ _ _ _ _) = (_, Draft.mk _ _ (c.rows.map _) _ _ _)
    rw [hrows, List.length_map]
    rfl

/-! ### Rows by name -/

/-- A row that is declared is found. -/
theorem readRow_draft (whole : Bool) {name : String} (known : name ∈ c.rowNames) (line : Nat) :
    ∃ i r, c.rows[i]? = some r ∧ r.name = name
      ∧ (c.draft whole).readRow line name = .ok i := by
  obtain ⟨i, r, hget, hname, hfound⟩ := exists_findIdx? known
  refine ⟨i, r, hget, hname, ?_⟩
  have hindex : (c.draft whole).rowIndex? name = some i := by
    rw [Draft.rowIndex?]
    show (c.rows.map c.rowDraft).findIdx? _ = _
    rw [List.findIdx?_map]
    exact hfound
  rw [Draft.readRow, hindex]

theorem modifyRow_draft (distinct : c.rowNames.Nodup) {i : Nat} {r : NamedRow}
    (h : c.rows[i]? = some r) (change : RowDraft α → RowDraft α) :
    (c.draft whole).modifyRow i change
      = { c.draft whole with
          rows := c.rows.map fun s =>
            if s.name = r.name then change (c.rowDraft s) else c.rowDraft s } := by
  rw [← modify_map distinct h]
  rfl

/-- **One more entry**, of a column that has been mentioned. -/
theorem entry_draft (distinct : c.rowNames.Nodup) {e : Entry α} (known : e.row ∈ c.rowNames)
    (finite : Number.isFinite e.value = true) {line : Nat} {text : String}
    (reads : readNumber line text = .ok e.value) :
    (c.draft whole).entry (c.columns.idxOf e.column) line (e.row, text)
      = .ok ((c.withEntry e).draft whole) := by
  obtain ⟨i, r, hget, hname, hfound⟩ := readRow_draft whole known line
  have hrows : ∀ s ∈ c.rows,
      (if s.name = r.name then
          { c.rowDraft s with
            terms := (c.rowDraft s).terms ++ [(c.columns.idxOf e.column, e.value)] }
        else c.rowDraft s) = (c.withEntry e).rowDraft s := by
    intro s _
    have hterms : (c.withEntry e).termsOf s.name
        = c.termsOf s.name
          ++ if s.name = r.name then [(c.columns.idxOf e.column, e.value)] else [] := by
      show ((c.entries ++ [e]).filter _).map (fun k => (c.columns.idxOf k.column, k.value)) = _
      rw [List.filter_append, List.map_append, List.filter_singleton, hname]
      by_cases hown : s.name = e.row
      · rw [if_pos hown, hown, beq_self_eq_true]
        rfl
      · rw [if_neg hown, beq_eq_false_iff_ne.mpr (Ne.symm hown)]
        rfl
    rw [rowDraft, rowDraft, hterms]
    split
    · rfl
    · rw [List.append_nil]
      rfl
  rw [Draft.entry, hfound, reads]
  show (if Number.isFinite e.value = true then _ else _) = _
  rw [if_pos finite, Draft.addEntry, modifyRow_draft distinct hget, List.map_congr_left hrows]
  rfl

/-! ## Right-hand sides and ranges -/

omit [Number α] in
/-- Of what is said once of each key, the last is found as well as the first. -/
theorem lookup_concat {β : Type} {said : List (String × β)} {key : String}
    (new : key ∉ said.map Prod.fst) (b : β) (other : String) :
    (said ++ [(key, b)]).lookup other = if other = key then some b else said.lookup other := by
  rw [List.lookup_append]
  split
  · rename_i heq
    rw [heq, List.lookup_eq_none_iff.mpr fun p hp => ?_]
    · simp
    · rw [bne_iff_ne]
      rintro rfl
      exact new (List.mem_map_of_mem hp)
  · rename_i hne
    have hother : (other == key) = false := beq_eq_false_iff_ne.mpr hne
    simp [List.lookup_cons, hother]

omit [Number α] in
/-- Rows of one name are one row. -/
theorem eq_of_name_eq (distinct : c.rowNames.Nodup) {r s : NamedRow} (hr : r ∈ c.rows)
    (hs : s ∈ c.rows) (h : r.name = s.name) : r = s :=
  List.inj_on_of_nodup_map distinct hr hs h

/-- A right-hand side of the objective is its constant, and of no other row is. -/
theorem constant_withRhs (distinct : c.rowNames.Nodup) {r : NamedRow} (hr : r ∈ c.rows)
    (new : r.name ∉ c.rhs.map Prod.fst) (value : α) :
    (c.withRhs r.name value).constant
      = if c.rowKind r = .objective then -value else c.constant := by
  rw [constant, constant,
    show (c.withRhs r.name value).objectiveRow? = c.objectiveRow? from rfl]
  cases hrow : c.objectiveRow? with
  | none =>
    have hother : c.rowKind r ≠ .objective := fun hkind => by
      rw [(rowKind_eq_objective_iff.mp hkind).2] at hrow
      cases hrow
    rw [if_neg hother]
  | some o =>
    show (((c.rhs ++ [(r.name, value)]).lookup o.name).map _).getD 0 = _
    rw [lookup_concat new]
    by_cases hobjective : c.rowKind r = .objective
    · obtain rfl : o = r :=
        Option.some.inj (hrow.symm.trans (rowKind_eq_objective_iff.mp hobjective).2)
      rw [if_pos rfl, if_pos hobjective]
      rfl
    · have hne : o.name ≠ r.name := by
        intro hname
        obtain rfl := eq_of_name_eq distinct (mem_of_objectiveRow? hrow) hr hname
        have hfree : o.letter = .free := eq_of_beq (List.find?_eq_some_iff_append.mp hrow).1
        exact hobjective (rowKind_eq_objective_iff.mpr ⟨hfree, hrow⟩)
      rw [if_neg hne, if_neg hobjective]

/-- A right-hand side changes the row it names, unless that is the objective. -/
theorem rowDraft_withRhs (distinct : c.rowNames.Nodup) {r s : NamedRow} (hr : r ∈ c.rows)
    (hs : s ∈ c.rows) (new : r.name ∉ c.rhs.map Prod.fst) (value : α) :
    (c.withRhs r.name value).rowDraft s
      = if s.name = r.name ∧ c.rowKind r ≠ .objective then { c.rowDraft s with rhs := value }
        else c.rowDraft s := by
  have hrhs : (c.withRhs r.name value).rhsOf s.name
      = if s.name = r.name then value else c.rhsOf s.name := by
    rw [rhsOf, withRhs, lookup_concat new, rhsOf]
    split <;> rfl
  rw [rowDraft, rowDraft, hrhs, show (c.withRhs r.name value).rowKind s = c.rowKind s from rfl]
  by_cases hname : s.name = r.name
  · obtain rfl := eq_of_name_eq distinct hs hr hname
    by_cases hobjective : c.rowKind s = .objective
    · rw [if_pos hobjective, if_pos hobjective, if_neg (fun h => h.2 hobjective)]
      rfl
    · rw [if_neg hobjective, if_pos rfl, if_pos ⟨rfl, hobjective⟩]
      rfl
  · have hneither : ¬ (s.name = r.name ∧ c.rowKind r ≠ .objective) := fun h => hname h.1
    rw [if_neg hname, if_neg hneither]
    rfl

/-- **One more right-hand side.** That of the objective is kept as its constant. -/
theorem rhsPair_draft (distinct : c.rowNames.Nodup) {row : String} (known : row ∈ c.rowNames)
    (new : row ∉ c.rhs.map Prod.fst) {value : α} {line : Nat} {text : String}
    (reads : readNumber line text = .ok value) :
    Draft.rhsPair line (c.draft whole) (row, text)
      = .ok ((c.withRhs row value).draft whole) := by
  obtain ⟨i, r, hget, rfl, hfound⟩ := readRow_draft whole known line
  have hr : r ∈ c.rows := List.mem_of_getElem? hget
  have hkind : (c.draft whole).rowKind? i = some (c.rowKind r) := by
    rw [Draft.rowKind?]
    show (c.rows.map c.rowDraft)[i]?.map _ = _
    rw [List.getElem?_map, hget]
    rfl
  have hconstant := constant_withRhs distinct hr new value
  rw [Draft.rhsPair, hfound, reads]
  show Except.ok ((c.draft whole).setRhs i value) = _
  rw [Draft.setRhs, hkind]
  by_cases hobjective : c.rowKind r = .objective
  · -- the constant changes, and the rows stay
    have hrows : ∀ s ∈ c.rows, (c.withRhs r.name value).rowDraft s = c.rowDraft s := by
      intro s hs
      rw [rowDraft_withRhs distinct hr hs new, if_neg (fun h => h.2 hobjective)]
    rw [if_pos hobjective] at hconstant
    rw [hobjective, beq_self_eq_true, if_pos rfl, draft, draft, hconstant,
      show (c.withRhs r.name value).rows = c.rows from rfl, List.map_congr_left hrows]
    rfl
  · -- the row changes, and the constant stays
    have hrows : ∀ s ∈ c.rows,
        (if s.name = r.name then { c.rowDraft s with rhs := value } else c.rowDraft s)
          = (c.withRhs r.name value).rowDraft s := by
      intro s hs
      rw [rowDraft_withRhs distinct hr hs new]
      simp only [ne_eq, hobjective, not_false_eq_true, and_true]
    have hother : (some (c.rowKind r) == some RowKind.objective) = false := by
      rw [beq_eq_false_iff_ne]
      exact fun h => hobjective (Option.some.inj h)
    rw [if_neg hobjective] at hconstant
    rw [hother, if_neg Bool.false_ne_true, modifyRow_draft distinct hget,
      List.map_congr_left hrows, draft, draft, hconstant]
    rfl

/-- **One more range**, of a row that stands for a constraint. -/
theorem rangePair_draft (distinct : c.rowNames.Nodup) {r : NamedRow} (known : r ∈ c.rows)
    (bound : r.letter ≠ .free) (new : r.name ∉ c.ranges.map Prod.fst) {value : α} {line : Nat}
    {text : String} (reads : readNumber line text = .ok value) :
    Draft.rangePair line (c.draft whole) (r.name, text)
      = .ok ((c.withRange r.name value).draft whole) := by
  obtain ⟨i, s, hget, hname, hfound⟩ :=
    readRow_draft whole (List.mem_map_of_mem (f := NamedRow.name) known) line
  obtain rfl := eq_of_name_eq distinct (List.mem_of_getElem? hget) known hname
  have hkind : ∃ relation, (c.draft whole).rowKind? i = some (.constraint relation) := by
    obtain ⟨relation, hrelation⟩ : ∃ relation, s.letter.relation? = some relation := by
      cases hletter : s.letter with
      | free => exact absurd hletter bound
      | atMost => exact ⟨_, rfl⟩
      | atLeast => exact ⟨_, rfl⟩
      | equal => exact ⟨_, rfl⟩
    refine ⟨relation, ?_⟩
    rw [Draft.rowKind?]
    show (c.rows.map c.rowDraft)[i]?.map _ = _
    rw [List.getElem?_map, hget]
    show some (c.rowKind s) = _
    rw [rowKind, hrelation]
  have hrows : ∀ t ∈ c.rows,
      (if t.name = s.name then { c.rowDraft t with range := some value } else c.rowDraft t)
        = (c.withRange s.name value).rowDraft t := by
    intro t _
    have hrange : (c.withRange s.name value).ranges.lookup t.name
        = if t.name = s.name then some value else c.ranges.lookup t.name := lookup_concat new _ _
    rw [rowDraft, rowDraft, hrange]
    split <;> rfl
  obtain ⟨relation, hrelation⟩ := hkind
  rw [Draft.rangePair, hfound, reads]
  dsimp only [bind, Except.bind]
  rw [hrelation]
  show Except.ok ((c.draft whole).setRange i value) = _
  rw [Draft.setRange, modifyRow_draft distinct hget, List.map_congr_left hrows]
  rfl

end Content

/-! ## Bounds -/

namespace Limit

variable {α : Type} [Number α]

/-- What the reader does to a column for a bound line. -/
def change : Limit α → ColumnDraft α → ColumnDraft α
  | .lower whole value, d =>
    let d := Draft.withLower d value
    if whole then { d with kind := .integer } else d
  | .upper whole value, d =>
    let d := Draft.withUpper d value
    if whole then { d with kind := .integer } else d
  | .fixed value, d => { Draft.withLower d value with upper := value }
  | .free, d => { Draft.withLower d Number.negInf with upper := Number.posInf }
  | .noLower, d => Draft.withLower d Number.negInf
  | .noUpper, d => { d with upper := Number.posInf }
  | .binary, d => { Draft.withLower d 0 with kind := .binary, upper := 1 }

omit [Number α] in
theorem upperCase_keyword (l : Limit α) : upperCase l.keyword = l.keyword := by
  have hword : ∀ word ∈ ["LI", "LO", "UI", "UP", "FX", "FR", "MI", "PL", "BV"],
      upperCase word = word := by
    simp only [List.forall_mem_cons, upperCase, ← String.toList_inj, String.toList_map]
    decide
  exact hword _ l.keyword_mem

theorem boundChange?_keyword (l : Limit α) :
    Draft.boundChange? l.keyword (l.value?.getD 0) = some l.change := by
  cases l with
  | lower whole value => cases whole <;> rfl
  | upper whole value => cases whole <;> rfl
  | _ => rfl

/-! ### One more bound line -/

section Concat

variable {limits : List (Limit α)} {l : Limit α}

theorem lowerEnd_concat :
    lowerEnd (limits ++ [l]) = ((limits.findSome? lower?).or l.lower?).getD
      (if limits.any isNegativeUpper || l.isNegativeUpper then Number.negInf else 0) := by
  rw [lowerEnd, List.findSome?_append, List.any_append, List.findSome?_singleton, List.any_cons,
    List.any_nil, Bool.or_false]

theorem upperEnd_concat :
    upperEnd (limits ++ [l])
      = ((limits.findSome? upper?).or l.upper?).getD Number.posInf := by
  rw [upperEnd, List.findSome?_append, List.findSome?_singleton]

omit [Number α] in
theorem kind_concat (whole : Bool) :
    kind whole (limits ++ [l])
      = if limits.any isBinary || l.isBinary then .binary
        else if whole || (limits.any isWhole || l.isWhole) then .integer else .continuous := by
  rw [kind, List.any_append, List.any_append]
  simp only [List.any_cons, List.any_nil, Bool.or_false]

theorem lowerSet_concat :
    ((limits ++ [l]).findSome? lower?).isSome
      = ((limits.findSome? lower?).isSome || l.lower?.isSome) := by
  rw [List.findSome?_append, List.findSome?_singleton, Option.isSome_or]

/-- What a side is set by comes first. -/
theorem lower?_none (fits : ∀ k ∈ limits, k.Compatible l) (hsome : l.lower?.isSome = true) :
    limits.findSome? lower? = none := by
  rw [List.findSome?_eq_none_iff]
  intro k hk
  by_contra hne
  exact (fits k hk).1 ⟨Option.isSome_iff_ne_none.mpr hne, hsome⟩

theorem upper?_none (fits : ∀ k ∈ limits, k.Compatible l) (hsome : l.upper?.isSome = true) :
    limits.findSome? upper? = none := by
  rw [List.findSome?_eq_none_iff]
  intro k hk
  by_contra hne
  exact (fits k hk).2 ⟨Option.isSome_iff_ne_none.mpr hne, hsome⟩

/-- A binary column has both its ends set, so nothing that sets one comes after. -/
theorem isBinary_false (fits : ∀ k ∈ limits, k.Compatible l)
    (hsome : l.lower?.isSome = true ∨ l.upper?.isSome = true) :
    limits.any isBinary = false := by
  rw [List.any_eq_false]
  intro k hk hbinary
  obtain rfl : k = .binary := by
    cases k <;> first | rfl | cases hbinary
  rcases hsome with hsome | hsome
  · exact (fits _ hk).1 ⟨rfl, hsome⟩
  · exact (fits _ hk).2 ⟨rfl, hsome⟩

theorem isNegativeUpper_false (fits : ∀ k ∈ limits, k.Compatible l)
    (hsome : l.upper?.isSome = true) : limits.any isNegativeUpper = false := by
  rw [List.any_eq_false]
  intro k hk hnegative
  have hupper : k.upper?.isSome = true := by
    cases k <;> first | rfl | cases hnegative
  exact (fits k hk).2 ⟨hupper, hsome⟩

variable [Finitary α]

/-- **One more bound line** of a column changes it to what all its lines say. -/
theorem change_draft (fits : ∀ k ∈ limits, k.Compatible l) (column : String) (whole : Bool) :
    l.change (draft column whole limits) = draft column whole (limits ++ [l]) := by
  rw [draft, draft, lowerEnd_concat, upperEnd_concat, kind_concat, lowerSet_concat]
  -- what the line sets, no line before it has set
  have hlower := lower?_none fits
  have hupper := upper?_none fits
  have hnegative := isNegativeUpper_false fits
  have hbinary := isBinary_false fits
  cases l with
  | lower among value =>
    cases among <;>
      simp [change, Draft.withLower, lower?, upper?, upperEnd, isBinary, isWhole, kind,
        hlower rfl, hbinary (.inl rfl)]
  | upper among value =>
    -- the lower end is touched only where no line has set it, and it is zero then
    cases hset : limits.findSome? lower? <;> cases among <;>
      simp [change, Draft.withUpper, lower?, upper?, lowerEnd, isBinary, isWhole, isNegativeUpper,
        kind, hset, hupper rfl, hbinary (.inr rfl), hnegative rfl, Number.zero_beq_zero]
  | fixed value =>
    simp [change, Draft.withLower, lower?, upper?, isBinary, isWhole, kind, hlower rfl,
      hupper rfl, hbinary (.inl rfl)]
  | free =>
    simp [change, Draft.withLower, lower?, upper?, isBinary, isWhole, kind, hlower rfl,
      hupper rfl, hbinary (.inl rfl)]
  | noLower =>
    simp [change, Draft.withLower, lower?, upper?, upperEnd, isBinary, isWhole, kind,
      hlower rfl, hbinary (.inl rfl)]
  | noUpper =>
    simp [change, lower?, upper?, lowerEnd, isBinary, isWhole, isNegativeUpper, kind,
      hupper rfl, hbinary (.inr rfl)]
  | binary =>
    simp [change, Draft.withLower, lower?, upper?, isBinary, hlower rfl, hupper rfl]

end Concat

end Limit

namespace Content

variable {α : Type} [Number α] {c : Content α} {whole : Bool}

/-! ### Bound lines -/

/-- The fields of a line with a value, whether or not it names its set. -/
theorem boundFields_value (d : Draft α) (line : Nat) {keyword : String}
    (h : Draft.takesValue keyword = true) (name : Option String) (column text : String) :
    d.boundFields line keyword (name.toList ++ [column, text])
      = (readNumber line text).map fun number => (column, number) := by
  rw [Draft.boundFields.eq_def, if_pos h]
  cases name <;> rfl

/-- The fields of a bound line. Behind `BV` the name of a set could be taken for that of a
column. -/
theorem boundFields_draft {line : Nat} {l : Limit (String × α)}
    (reads : ∀ p ∈ l.value?, readNumber line p.1 = .ok p.2) {column : String}
    {name : Option String} (unnamed : l.keyword = "BV" → ∀ s ∈ name, s ∉ c.columns) :
    (c.draft whole).boundFields line l.keyword
        (name.toList ++ column :: (l.value?.map Prod.fst).toList)
      = .ok (column, (l.value?.map Prod.snd).getD 0) := by
  have hvalue : ∀ p, l.value? = some p → Draft.takesValue l.keyword = true →
      (c.draft whole).boundFields line l.keyword
          (name.toList ++ column :: (l.value?.map Prod.fst).toList)
        = .ok (column, (l.value?.map Prod.snd).getD 0) := by
    intro p hp htakes
    rw [hp]
    exact (boundFields_value _ line htakes name column p.1).trans (by rw [reads p hp]; rfl)
  cases l with
  | lower among p => exact hvalue p rfl (by cases among <;> rfl)
  | upper among p => exact hvalue p rfl (by cases among <;> rfl)
  | fixed p => exact hvalue p rfl rfl
  | free => cases name <;> rfl
  | noLower => cases name <;> rfl
  | noUpper => cases name <;> rfl
  | binary =>
    cases name with
    | none => rfl
    | some s =>
      have hset := columnIndex?_draft_of_new whole (unnamed rfl s rfl)
      show (if ("BV" == "BV" && ((c.draft whole).columnIndex? s).isSome) = true then _ else _) = _
      rw [hset]
      rfl

theorem keyword_map {β γ : Type} (f : β → γ) (l : Limit β) : (l.map f).keyword = l.keyword := by
  cases l <;> rfl

theorem value?_map {β γ : Type} (f : β → γ) (l : Limit β) : (l.map f).value? = l.value?.map f := by
  cases l <;> rfl

omit [Number α] in
theorem limitsOf_withLimit (column other : String) (l : Limit α) :
    (c.withLimit column l).limitsOf other
      = if other = column then c.limitsOf other ++ [l] else c.limitsOf other := by
  rw [limitsOf, limitsOf, withLimit, List.filter_append, List.map_append, List.filter_singleton]
  split
  · rename_i heq
    rw [heq, beq_self_eq_true]
    rfl
  · rename_i hne
    rw [beq_eq_false_iff_ne.mpr (Ne.symm hne)]
    exact List.append_nil _

theorem modifyColumn_draft {column : String} (known : column ∈ c.columns)
    (change : ColumnDraft α → ColumnDraft α) :
    (c.draft whole).modifyColumn (c.columns.idxOf column) change
      = { c.draft whole with
          columns := c.columns.map fun other =>
            if other = column then change (c.columnDraft other) else c.columnDraft other } := by
  have hget : c.columns[c.columns.idxOf column]? = some column := List.getElem?_idxOf known
  have hdistinct : (c.columns.map fun other => other).Nodup := by
    rw [List.map_id']
    exact nodup_eraseDups _
  rw [← modify_map hdistinct hget]
  rfl

/-- **One more bound line**, of a column that is there. -/
theorem boundLine_draft [Finitary α] {line : Nat} {l : Limit (String × α)}
    (reads : ∀ p ∈ l.value?, readNumber line p.1 = .ok p.2) {column : String}
    (known : column ∈ c.columns) (fits : ∀ k ∈ c.limitsOf column, k.Compatible (l.map Prod.snd))
    {name : Option String} (unnamed : l.keyword = "BV" → ∀ s ∈ name, s ∉ c.columns) :
    (c.draft whole).boundLine line
        (l.keyword :: (name.toList ++ column :: (l.value?.map Prod.fst).toList))
      = .ok ((c.withLimit column (l.map Prod.snd)).draft whole) := by
  have hkeyword : upperCase l.keyword = l.keyword := by
    rw [← keyword_map Prod.snd, Limit.upperCase_keyword]
  have hchange : Draft.boundChange? l.keyword ((l.value?.map Prod.snd).getD 0)
      = some (l.map Prod.snd).change := by
    rw [← keyword_map Prod.snd, ← value?_map, Limit.boundChange?_keyword]
  have hcolumn : (c.draft whole).readColumn line column = .ok (c.columns.idxOf column) := by
    rw [Draft.readColumn, columnIndex?_draft known]
  have hcolumns : ∀ other ∈ c.columns,
      (if other = column then (l.map Prod.snd).change (c.columnDraft other)
        else c.columnDraft other) = (c.withLimit column (l.map Prod.snd)).columnDraft other := by
    intro other _
    show _ = Limit.draft other (c.isWhole other) ((c.withLimit column _).limitsOf other)
    rw [limitsOf_withLimit]
    split
    · rename_i heq
      rw [heq]
      exact Limit.change_draft fits column _
    · rfl
  rw [Draft.boundLine]
  show ((c.draft whole).boundFields line (upperCase l.keyword) _ >>= _) = _
  rw [hkeyword, boundFields_draft reads unnamed]
  show ((c.draft whole).readColumn line column >>= _) = _
  rw [hcolumn]
  dsimp only [bind, Except.bind]
  rw [hchange]
  show Except.ok ((c.draft whole).modifyColumn (c.columns.idxOf column) _) = _
  rw [modifyColumn_draft known, List.map_congr_left hcolumns]
  rfl

end Content

end Milp.Mps
