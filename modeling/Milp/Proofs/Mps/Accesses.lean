/-
Every line is read in range.

Each function that reads by positions is held against the function of the reader, from things
in order: it has an outcome, it leaves things in order, and it comes to the same. The
functions that only look something up change nothing, so for them this is an equation (the
`_apply` lemmas); the others are put together by `Agrees`.

Why a position is in range is seen where it is used. A row or a column that a table gives
is one of the list; a field is there because the number of fields has been looked at; and
the first field is there because a line that says something has one. The column of an entry
is there because the line has just entered it, which is why the entries of a line keep it in
their invariant (`Holds`).
-/
import Milp.Proofs.Mps.Tables

set_option autoImplicit false

namespace Milp.Mps

open Access (Agrees left agrees_ok agrees_error agrees_bind agrees_map agrees_each state_bind
  change_bind item_bind itemsFrom_bind bind_apply bind_ok each)

/-- The fields of a line. -/
def Line.fields : Line → List String
  | .header fields | .data fields => fields

namespace Indexed

variable {α : Type} {s : Indexed α}

/-! ## Names -/

theorem readRow_apply (h : s.InOrder) (line : Nat) (name : String) :
    readRow line name s = some (s.toDraft.readRow line name, s) := by
  rw [Indexed.readRow, state_bind, Draft.readRow, h.rowIndex?]
  cases s.rowTable.lookup name <;> rfl

theorem readColumn_apply (h : s.InOrder) (line : Nat) (name : String) :
    readColumn line name s = some (s.toDraft.readColumn line name, s) := by
  rw [Indexed.readColumn, state_bind, Draft.readColumn, h.columnIndex?]
  cases s.columnTable.lookup name <;> rfl

/-- A row that is found is in range. -/
theorem row_of_readRow (h : s.InOrder) {line : Nat} {name : String} {row : Nat}
    (found : s.toDraft.readRow line name = .ok row) : s.rowTable.lookup name = some row := by
  rw [← h.rowIndex?]
  exact Draft.readRow_eq_ok_iff.mp found

theorem column_of_readColumn (h : s.InOrder) {line : Nat} {name : String} {column : Nat}
    (found : s.toDraft.readColumn line name = .ok column) :
    s.columnTable.lookup name = some column := by
  rw [← h.columnIndex?]
  exact Draft.readColumn_eq_ok_iff.mp found

/-! ## Rows and columns -/

/-- A header is known by its first field. -/
theorem header_cons (d : Draft α) (line : Nat) (word : String) (rest : List String) :
    d.header line (word :: rest)
      = if word == "NAME" then .ok (.start, { d with name := " ".intercalate rest })
        else if word == "OBJSENSE" then
          match rest with
          | [] => .ok (.objectiveSense, d)
          | field :: _ =>
            (readSense line field).map fun sense => (.objectiveSense, { d with sense := sense })
        else if word == "ROWS" then .ok (.rows, d)
        else if word == "COLUMNS" then .ok (.columns, d)
        else if word == "RHS" then .ok (.rhs, d)
        else if word == "RANGES" then .ok (.ranges, d)
        else if word == "BOUNDS" then .ok (.bounds, d)
        else if word == "ENDATA" then .ok (.ended, d)
        else refuse line ("unknown section '" ++ word ++ "'") := by
  generalize hfields : word :: rest = fields
  unfold Draft.header
  split
  case h_10 fields hname hsense hsense' hrows hcolumns hrhs hranges hbounds hended =>
    subst hfields
    have hne : ∀ {other : String}, (∀ words, word :: rest = other :: words → False) →
        (word == other) = false := by
      intro other hother
      rw [beq_eq_false_iff_ne]
      rintro rfl
      exact hother rest rfl
    have hobjsense : (word == "OBJSENSE") = false := by
      rw [beq_eq_false_iff_ne]
      rintro rfl
      cases rest with
      | nil => exact hsense rfl
      | cons field rest => exact hsense' field rest rfl
    rw [hne hname, hobjsense, hne hrows, hne hcolumns, hne hrhs, hne hranges, hne hbounds,
      hne hended]
    rfl
  all_goals
    obtain ⟨rfl, rfl⟩ := List.cons.inj hfields
    rfl

theorem agrees_header (h : s.InOrder) (line : Nat) {fields : List String} (some : fields ≠ []) :
    Agrees InOrder Prod.mk (header line fields s) (s.toDraft.header line fields) := by
  obtain ⟨word, rest, rfl⟩ := List.exists_cons_of_ne_nil some
  rw [Indexed.header, item_bind rfl, header_cons]
  by_cases hname : (word == "NAME") = true
  · rw [if_pos hname, if_pos hname, itemsFrom_bind (by simp), change_bind]
    refine agrees_ok ?_ Section.start
    exact h.of_eq rfl rfl rfl rfl rfl
  rw [if_neg hname, if_neg hname]
  by_cases hsense : (word == "OBJSENSE") = true
  · rw [if_pos hsense, if_pos hsense]
    cases rest with
    | nil => exact agrees_ok h Section.objectiveSense
    | cons field rest =>
      refine agrees_map rfl h fun sense _ => ?_
      rw [change_bind]
      refine agrees_ok ?_ Section.objectiveSense
      exact h.of_eq rfl rfl rfl rfl rfl
  rw [if_neg hsense, if_neg hsense]
  -- the other headers change nothing
  repeat' split
  case isFalse => exact agrees_error h _
  all_goals exact agrees_ok h _

theorem readRowKind_apply (h : s.InOrder) (line : Nat) (field : String) :
    readRowKind line field s = some (s.toDraft.readRowKind line field, s) := by
  have hkind : (if s.objectiveRow.isNone then RowKind.objective else .free)
      = if s.toDraft.hasObjective then .free else .objective := by
    rw [h.hasObjective]
    cases s.objectiveRow <;> rfl
  rw [Indexed.readRowKind, state_bind, Draft.readRowKind, hkind]
  repeat' split
  all_goals rfl

/-- The kind that is read is one that the next row may have. -/
theorem suits_of_readRowKind (h : s.InOrder) {line : Nat} {field : String} {kind : RowKind}
    (hkind : s.toDraft.readRowKind line field = .ok kind) : s.Suits kind := by
  rw [Draft.readRowKind, h.hasObjective] at hkind
  split at hkind
  · cases hrow : s.objectiveRow with
    | none =>
      rw [hrow] at hkind
      obtain rfl := Except.ok.inj hkind
      exact ⟨fun _ => hrow, nofun⟩
    | some row =>
      rw [hrow] at hkind
      obtain rfl := Except.ok.inj hkind
      refine ⟨nofun, fun _ => ?_⟩
      rw [hrow]
      nofun
  · repeat' split at hkind
    all_goals cases hkind
    all_goals exact ⟨nofun, nofun⟩

variable [Number α]

theorem addRow_apply (name : String) (kind : RowKind) :
    addRow name kind s = some (.ok (), s.withRow name kind) := by
  rw [Indexed.addRow, state_bind, Indexed.withRow]
  dsimp only
  split
  · rfl
  · rfl

theorem agrees_rowLine (h : s.InOrder) (line : Nat) (fields : List String) :
    Agrees InOrder left (rowLine line fields s) (s.toDraft.rowLine line fields) := by
  unfold Draft.rowLine
  split
  · rename_i letter name
    refine agrees_bind (readRowKind_apply h line letter) h fun kind hkind => ?_
    rw [state_bind, h.rowIndex?]
    by_cases hdeclared : (s.rowTable.lookup name).isSome = true
    · rw [if_pos hdeclared, if_pos hdeclared]
      exact agrees_error h _
    · rw [if_neg hdeclared, if_neg hdeclared, addRow_apply]
      have hnew := Option.not_isSome_iff_eq_none.mp hdeclared
      exact agrees_ok (h.withRow hnew (suits_of_readRowKind h hkind)) ()
  · rename_i hnot
    unfold Indexed.rowLine
    split
    · exact absurd rfl (hnot _ _)
    · exact agrees_error h _

/-- The column is there from then on. -/
theorem ensureColumn_apply (h : s.InOrder) (name : String) :
    ∃ column s', ensureColumn name s = some (.ok column, s')
      ∧ s.toDraft.ensureColumn name = (column, s'.toDraft)
      ∧ s'.InOrder ∧ column < s'.columns.length := by
  rw [Indexed.ensureColumn, state_bind, Draft.ensureColumn, h.columnIndex?]
  cases hlookup : s.columnTable.lookup name with
  | some column => exact ⟨column, s, rfl, rfl, h, h.column_lt hlookup⟩
  | none =>
    refine ⟨s.columns.length, s.withColumn name, rfl, rfl, h.withColumn hlookup, ?_⟩
    rw [columns_withColumn, List.length_append]
    exact Nat.lt_add_of_pos_right Nat.one_pos

/-- Things are in order, and a column is there. -/
def Holds (column : Nat) (s : Indexed α) : Prop := s.InOrder ∧ column < s.columns.length

theorem agrees_entry {column : Nat} (h : Holds column s) (line : Nat) (pair : String × String) :
    Agrees (Holds column) left (entry column line [pair.1, pair.2] s)
      (s.toDraft.entry column line pair) := by
  have horder := h.1
  rw [Indexed.entry, item_bind rfl]
  refine agrees_bind (readRow_apply horder line pair.1) h fun row hrow => ?_
  rw [item_bind rfl]
  refine agrees_bind rfl h fun value _ => ?_
  by_cases hfinite : Number.isFinite value = true
  · have hlt := horder.row_lt (row_of_readRow horder hrow)
    rw [if_pos hfinite, if_pos hfinite, Access.changeRow, if_pos hlt]
    refine agrees_ok ⟨?_, h.2⟩ ()
    refine horder.changeRow ?_ ?_ ?_ row
    · exact fun _ => rfl
    · exact fun _ => rfl
    intro r hr t ht
    rcases List.mem_append.mp ht with ht | ht
    · exact hr t ht
    · rw [List.mem_singleton.mp ht]
      exact h.2
  · rw [if_neg hfinite, if_neg hfinite]
    exact agrees_error h _

/-- A list of pairs, each as a piece of the fields. -/
theorem agrees_entries {column : Nat} (h : Holds column s) (line : Nat)
    (pairs : List (String × String)) :
    Agrees (Holds column) left
      (each (entry column line) (pairs.map fun pair => [pair.1, pair.2]) s)
      (pairs.foldlM (Draft.entry column line) s.toDraft) :=
  agrees_each (fun _ pair hs => agrees_entry hs line pair) pairs h

omit [Number α] in
theorem agrees_markerLine (h : s.InOrder) (line : Nat) {fields : List String} {field : String}
    (there : fields[2]? = some field) :
    Agrees InOrder left (markerLine line fields s) (s.toDraft.markerLine line field) := by
  rw [Indexed.markerLine, item_bind there, Draft.markerLine]
  split
  · refine agrees_ok ?_ ()
    exact h.of_eq rfl rfl rfl rfl rfl
  split
  · refine agrees_ok ?_ ()
    exact h.of_eq rfl rfl rfl rfl rfl
  · exact agrees_error h _

theorem agrees_entryLine (h : s.InOrder) (line : Nat) (fields : List String) :
    Agrees InOrder left (entryLine line fields s) (s.toDraft.entryLine line fields) := by
  -- with a name and some pairs, the column comes first
  have hpairs : ∀ (name : String) (pairs : List (String × String)),
      fields = name :: pairs.flatMap (fun pair => [pair.1, pair.2]) →
      chunks (fields.drop 1) = pairs.map (fun pair => [pair.1, pair.2]) →
      (fields.length = 3 ∨ fields.length = 5) →
      Agrees InOrder left (entryLine line fields s)
        (pairs.foldlM (Draft.entry (s.toDraft.ensureColumn name).1 line)
          (s.toDraft.ensureColumn name).2) := by
    intro name pairs hfields hchunks hlength
    obtain ⟨column, s', happly, hensured, hs', hlt⟩ := ensureColumn_apply h name
    have hname : fields[0]? = some name := by rw [hfields]; rfl
    rw [Indexed.entryLine, if_neg (by omega), item_bind hname, bind_ok happly,
      itemsFrom_bind (by omega), hchunks, hensured]
    exact (agrees_entries ⟨hs', hlt⟩ line pairs).imp fun s hs => hs.1
  unfold Draft.entryLine
  split
  · rename_i name row value
    have hone := hpairs name [(row, value)] rfl rfl (.inl rfl)
    rw [List.foldlM_cons] at hone
    simpa using hone
  · rename_i name row value row' value'
    have htwo := hpairs name [(row, value), (row', value')] rfl rfl (.inr rfl)
    simpa using htwo
  · rename_i hthree hfive
    have hlength : fields.length ≠ 3 ∧ fields.length ≠ 5 := by
      refine ⟨fun hlength => ?_, fun hlength => ?_⟩
      · obtain ⟨name, row, value, hfields⟩ := List.length_eq_three.mp hlength
        exact hthree name row value hfields
      · match fields, hlength with
        | [name, row, value, row', value'], _ => exact hfive _ _ _ _ _ rfl
    rw [Indexed.entryLine, if_pos hlength]
    exact agrees_error h _

theorem agrees_columnLine (h : s.InOrder) (line : Nat) (fields : List String) :
    Agrees InOrder left (columnLine line fields s) (s.toDraft.columnLine line fields) := by
  unfold Draft.columnLine
  split
  · rename_i name keyword marker rest
    rw [Indexed.columnLine, if_pos (by simp), item_bind rfl]
    split
    · exact agrees_markerLine h line rfl
    · exact agrees_entryLine h line _
  · rename_i hshort
    have hlength : ¬ 3 ≤ fields.length := by
      intro hlength
      match fields, hlength with
      | name :: keyword :: marker :: rest, _ => exact hshort _ _ _ _ rfl
    rw [Indexed.columnLine, if_neg hlength]
    exact agrees_entryLine h line fields

/-! ## Right-hand sides and ranges -/

omit [Number α] in
/-- The pairs of a line, each as a piece of the fields. -/
theorem pairs_apply (line : Nat) (title : String) (fields : List String) :
    pairs line title fields s
      = some ((Draft.pairs line title fields).map
          fun entries => entries.map fun pair => [pair.1, pair.2], s) := by
  unfold Draft.pairs
  split
  case h_5 hone hone' htwo htwo' =>
    have hlength : ¬ (fields.length = 2 ∨ fields.length = 4)
        ∧ ¬ (fields.length = 3 ∨ fields.length = 5) := by
      match fields with
      | [] => simp
      | [_] => simp
      | [_, _] => exact absurd rfl (hone _ _)
      | [_, _, _] => exact absurd rfl (hone' _ _ _)
      | [_, _, _, _] => exact absurd rfl (htwo _ _ _ _)
      | [_, _, _, _, _] => exact absurd rfl (htwo' _ _ _ _ _)
      | _ :: _ :: _ :: _ :: _ :: _ :: rest => simp
    rw [Indexed.pairs, if_neg hlength.1, if_neg hlength.2]
    rfl
  all_goals rfl

omit [Number α] in
/-- Each pair of a line, without the name of the set. -/
theorem agrees_pairs {piece : List String → Access α Unit}
    {step : Draft α → String × String → Except (Fault α) (Draft α)} (h : s.InOrder)
    (agrees : ∀ (s : Indexed α) pair, s.InOrder →
      Agrees InOrder left (piece [pair.1, pair.2] s) (step s.toDraft pair))
    (line : Nat) (title : String) (fields : List String) :
    Agrees InOrder left ((pairs line title fields >>= each piece) s)
      (Draft.pairs line title fields >>= fun entries => entries.foldlM step s.toDraft) := by
  have hpairs := pairs_apply (s := s) line title fields
  cases hread : (Draft.pairs line title fields : Except (Fault α) _) with
  | error fault =>
    rw [hread] at hpairs
    exact agrees_bind (g := fun _ => .error fault) hpairs h nofun
  | ok entries =>
    rw [hread] at hpairs
    rw [bind_ok hpairs]
    exact agrees_each agrees entries h

theorem agrees_rhsPair (h : s.InOrder) (line : Nat) (pair : String × String) :
    Agrees InOrder left (rhsPair line [pair.1, pair.2] s) (s.toDraft.rhsPair line pair) := by
  rw [Indexed.rhsPair, item_bind rfl]
  refine agrees_bind (readRow_apply h line pair.1) h fun row hrow => ?_
  rw [item_bind rfl]
  refine agrees_bind rfl h fun value _ => ?_
  have hlt := h.row_lt (row_of_readRow h hrow)
  have hkind := h.rowKind?_eq hlt
  rw [← beq_iff_eq] at hkind
  rw [state_bind, Draft.setRhs]
  by_cases hobjective : some row = s.objectiveRow
  · rw [if_pos hobjective, if_pos (hkind.mpr hobjective)]
    refine agrees_ok ?_ ()
    exact h.of_eq rfl rfl rfl rfl rfl
  · rw [if_neg hobjective, if_neg (mt hkind.mp hobjective), Access.changeRow, if_pos hlt]
    refine agrees_ok ?_ ()
    refine h.changeRow ?_ ?_ ?_ row
    · exact fun _ => rfl
    · exact fun _ => rfl
    · exact fun _ hr => hr

theorem agrees_rhsLine (h : s.InOrder) (line : Nat) (fields : List String) :
    Agrees InOrder left (rhsLine line fields s) (s.toDraft.rhsLine line fields) :=
  agrees_pairs h (fun _ pair hs => agrees_rhsPair hs line pair) line "RHS" fields

theorem agrees_rangePair (h : s.InOrder) (line : Nat) (pair : String × String) :
    Agrees InOrder left (rangePair line [pair.1, pair.2] s) (s.toDraft.rangePair line pair) := by
  rw [Indexed.rangePair, item_bind rfl]
  refine agrees_bind (readRow_apply h line pair.1) h fun row hrow => ?_
  rw [item_bind rfl]
  refine agrees_bind rfl h fun value _ => ?_
  have hfound := row_of_readRow h hrow
  have hlt := h.row_lt hfound
  have hget := List.getElem?_eq_getElem hlt
  -- the row that was found is the one of that name
  have hname : s.rows[row].name = pair.1 := by
    have hnamed := (h.rowTable.lookup pair.1 row).mp hfound
    rw [List.getElem?_map, hget] at hnamed
    exact Option.some.inj hnamed
  rw [state_bind, item_bind hget, Draft.rowKind?, hget, Option.map_some, hname]
  cases s.rows[row].kind with
  | objective => exact agrees_error h _
  | free => exact agrees_error h _
  | constraint relation =>
    dsimp only
    rw [Access.changeRow, if_pos hlt]
    refine agrees_ok ?_ ()
    refine h.changeRow ?_ ?_ ?_ row
    · exact fun _ => rfl
    · exact fun _ => rfl
    · exact fun _ hr => hr

theorem agrees_rangeLine (h : s.InOrder) (line : Nat) (fields : List String) :
    Agrees InOrder left (rangeLine line fields s) (s.toDraft.rangeLine line fields) :=
  agrees_pairs h (fun _ pair hs => agrees_rangePair hs line pair) line "RANGES" fields

/-! ## Bounds -/

/-- A number that is read and used. -/
theorem readNumber_apply {β : Type} (line : Nat) (field : String) (use : α → β) :
    (Access.lift (readNumber line field) >>= fun value => pure (use value)) s
      = some ((readNumber line field).map use, s) := by
  rw [bind_apply, Access.lift]
  cases (readNumber line field : Except (Fault α) α) <;> rfl

theorem boundFields_apply (h : s.InOrder) (line : Nat) (kind field : String)
    (rest : List String) :
    boundFields line kind (field :: rest) s
      = some (s.toDraft.boundFields line kind rest, s) := by
  rw [Indexed.boundFields]
  unfold Draft.boundFields
  cases Draft.takesValue kind with
  | true =>
    rw [if_pos rfl]
    match rest with
    | [] => rfl
    | [_] => rfl
    | [column, value] => exact readNumber_apply line value fun number => (column, number)
    | [_, column, value] => exact readNumber_apply line value fun number => (column, number)
    | _ :: _ :: _ :: _ :: _ => rfl
  | false =>
    rw [if_neg Bool.false_ne_true]
    match rest with
    | [] => rfl
    | [_] => rfl
    | [first, second] =>
      cases kind == "BV" with
      | false => rfl
      | true =>
        show (if (s.columnTable.lookup first).isSome = true then pure (first, 0)
            else Access.item [field, first, second] 2 >>= fun second => pure (second, 0) :
            Access α (String × α)) s
          = some (if (s.toDraft.columnIndex? first).isSome = true then .ok (first, 0)
            else .ok (second, 0), s)
        rw [h.columnIndex?]
        cases (s.columnTable.lookup first).isSome <;> rfl
    | [_, column, value] => rfl
    | _ :: _ :: _ :: _ :: _ => rfl

theorem agrees_boundLine (h : s.InOrder) (line : Nat) {fields : List String}
    (some : fields ≠ []) :
    Agrees InOrder left (boundLine line fields s) (s.toDraft.boundLine line fields) := by
  obtain ⟨field, rest, rfl⟩ := List.exists_cons_of_ne_nil some
  rw [Indexed.boundLine, item_bind rfl, Draft.boundLine]
  refine agrees_bind (boundFields_apply h line _ field rest) h fun target _ => ?_
  refine agrees_bind (readColumn_apply h line target.1) h fun column hcolumn => ?_
  have hlt := h.column_lt (column_of_readColumn h hcolumn)
  rw [state_bind, item_bind (List.getElem?_eq_getElem hlt)]
  cases hchange : Draft.boundChange? (upperCase field) target.2 with
  | none => exact agrees_error h _
  | some change =>
    dsimp only
    rw [Access.changeColumn, if_pos hlt]
    refine agrees_ok ?_ ()
    exact h.changeColumn (Draft.name_of_boundChange? hchange) column

/-! ## Lines -/

theorem agrees_dataLine (h : s.InOrder) (part : Section) (line : Nat) {fields : List String}
    (some : fields ≠ []) :
    Agrees InOrder left (dataLine part line fields s) (s.toDraft.dataLine part line fields) := by
  cases part with
  | start => exact agrees_error h _
  | objectiveSense =>
    obtain ⟨field, rest, rfl⟩ := List.exists_cons_of_ne_nil some
    rw [Indexed.dataLine, item_bind rfl]
    refine agrees_map rfl h fun sense _ => ?_
    refine agrees_ok ?_ ()
    exact h.of_eq rfl rfl rfl rfl rfl
  | rows => exact agrees_rowLine h line fields
  | columns => exact agrees_columnLine h line fields
  | rhs => exact agrees_rhsLine h line fields
  | ranges => exact agrees_rangeLine h line fields
  | bounds => exact agrees_boundLine h line some
  | ended => exact agrees_ok h ()

/-- **Lines are read in range**, from things in order to things in order, and come to what
the reader comes to. -/
theorem agrees_readLines (h : s.InOrder) (part : Section) (lines : List (Nat × Line))
    (fields : ∀ l ∈ lines, l.2.fields ≠ []) :
    Agrees InOrder left (readLines part lines s) (s.toDraft.readLines part lines) := by
  induction lines generalizing s part with
  | nil => exact agrees_ok h part
  | cons l lines ih =>
    obtain ⟨hl, hlines⟩ := List.forall_mem_cons.mp fields
    obtain ⟨line, l⟩ := l
    cases l with
    | header words =>
      rw [Indexed.readLines, Draft.readLines]
      refine (agrees_header h line hl).bind fun next s' hs' => ?_
      dsimp only
      split
      · exact agrees_ok hs' Section.ended
      · exact ih hs' next hlines
    | data words =>
      rw [Indexed.readLines, Draft.readLines]
      exact (agrees_dataLine h part line hl).bind fun _ s' hs' => ih hs' part hlines

end Indexed

end Milp.Mps
