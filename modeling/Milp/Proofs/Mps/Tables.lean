/-
The tables agree with the lists, and no position is out of range.

Reading by positions (`Milp.Proofs.Mps.Indexed`) is safe because of what holds between two
lines (`Indexed.InOrder`): the tables find exactly the names that were declared, each at its
position, no name is there twice, the objective is the first row without a bound, and every
entry is of a column that exists. A line may be refused halfway, when it has already entered
a column or an entry, and what it leaves is in order all the same.

`Agrees` says of an access at once that it has an outcome -- so no position is out of range
on the way --, that it leaves things in order whatever the outcome is, and that it comes to
what the reader comes to. It goes along binds (`Agrees.bind`), so each kind of line is one
short lemma, and a text is an induction over its lines (`agrees_readLines`).
-/
import Milp.Proofs.Mps.Coherence
import Milp.Proofs.Mps.Indexed

set_option autoImplicit false

namespace Milp.Mps

/-! ## Tables -/

/-- A table of the positions of names, all of them distinct. -/
structure Indexes (table : List (String × Nat)) (names : List String) : Prop where
  distinct : names.Nodup
  lookup : ∀ name i, table.lookup name = some i ↔ names[i]? = some name

namespace Indexes

variable {table : List (String × Nat)} {names : List String} {name : String}

theorem nil : Indexes [] [] where
  distinct := List.nodup_nil
  lookup name i := by simp

/-- A position in the table is in range. -/
theorem lt_length (h : Indexes table names) {i : Nat} (found : table.lookup name = some i) :
    i < names.length :=
  (List.getElem?_eq_some_iff.mp ((h.lookup name i).mp found)).1

/-- What is not in the table has not been declared. -/
theorem not_mem (h : Indexes table names) (new : table.lookup name = none) : name ∉ names := by
  intro hmem
  obtain ⟨i, hi⟩ := List.getElem?_of_mem hmem
  have hfound := (h.lookup name i).mpr hi
  rw [new] at hfound
  cases hfound

/-- A new name goes to the end. -/
theorem concat (h : Indexes table names) (new : table.lookup name = none) :
    Indexes ((name, names.length) :: table) (names ++ [name]) where
  distinct := by
    rw [← List.concat_eq_append]
    exact List.Nodup.concat (h.not_mem new) h.distinct
  lookup other i := by
    rw [List.lookup_cons, List.getElem?_append]
    by_cases hother : other = name
    · -- the name itself is nowhere but at the end
      have hnot : ∀ j, names[j]? ≠ some name :=
        fun j hj => h.not_mem new (List.mem_of_getElem? hj)
      rw [hother, beq_self_eq_true]
      dsimp only
      split
      · rename_i hlt
        refine iff_of_false ?_ (hnot i)
        rw [Option.some.injEq]
        omega
      · rw [List.getElem?_singleton, Option.some.injEq]
        split
        · exact iff_of_true (by omega) rfl
        · exact iff_of_false (by omega) nofun
    · have hfalse : (other == name) = false := beq_eq_false_iff_ne.mpr hother
      rw [hfalse]
      dsimp only
      rw [h.lookup other i]
      split
      · exact Iff.rfl
      · rename_i hge
        refine iff_of_false ?_ ?_
        · rw [List.getElem?_eq_none (by omega)]
          nofun
        · intro hlast
          have hmem := List.mem_of_getElem? hlast
          exact hother (List.mem_singleton.mp hmem)

/-- **The table finds what a search finds.** -/
theorem findIdx?_eq {β : Type} {items : List β} {key : β → String}
    (h : Indexes table (items.map key)) (name : String) :
    (items.findIdx? fun b => key b == name) = table.lookup name := by
  refine Option.ext fun i => ?_
  rw [h.lookup name i, List.findIdx?_eq_some_iff_getElem]
  constructor
  · rintro ⟨hi, hname, -⟩
    rw [List.getElem?_map, List.getElem?_eq_getElem hi]
    exact congrArg some (beq_iff_eq.mp hname)
  · intro hget
    obtain ⟨hi, hname⟩ := List.getElem?_eq_some_iff.mp hget
    rw [List.length_map] at hi
    rw [List.getElem_map] at hname
    refine ⟨hi, beq_iff_eq.mpr hname, fun j hj => ?_⟩
    -- an earlier item has another name
    rw [← hname, beq_iff_eq]
    intro hsame
    have hfirst := (h.lookup (key items[i]) j).mpr (by
      rw [List.getElem?_map, List.getElem?_eq_getElem (hj.trans hi), Option.map_some, hsame])
    have hlast := (h.lookup (key items[i]) i).mpr (by
      rw [List.getElem?_map, List.getElem?_eq_getElem hi, Option.map_some])
    exact hj.ne (Option.some.inj (hfirst.symm.trans hlast))

end Indexes

/-- Whether a row is of type N: it is the objective, or it is free. -/
def RowKind.isFree : RowKind → Bool
  | .objective | .free => true
  | .constraint _ => false

variable {α β γ : Type}

/-- A change that keeps the name of every item leaves the names as they are. -/
theorem map_modify_of_keeps {key : β → γ} {change : β → β} (keeps : ∀ b, key (change b) = key b)
    (items : List β) (i : Nat) : (items.modify i change).map key = items.map key := by
  refine List.ext_getElem (by simp) fun j hj _ => ?_
  rw [List.getElem_map, List.getElem_map, List.getElem_modify]
  split
  · exact keeps _
  · rfl

/-! ## The invariant -/

namespace Indexed

/-- **What holds between two lines.** -/
structure InOrder (s : Indexed α) : Prop where
  rowTable : Indexes s.rowTable (s.rows.map (·.name))
  columnTable : Indexes s.columnTable (s.columns.map (·.name))
  /-- The objective row is the first of type N, and no other row is the objective. -/
  objectiveRow : s.objectiveRow = s.rows.findIdx? fun r => r.kind.isFree
  objective : ∀ i r, s.rows[i]? = some r → (r.kind = .objective ↔ s.objectiveRow = some i)
  terms : ∀ r ∈ s.rows, ∀ t ∈ r.terms, t.1 < s.columns.length

section InOrder

variable {s : Indexed α}

theorem inOrder_initial [Number α] : (initial : Indexed α).InOrder where
  rowTable := .nil
  columnTable := .nil
  objectiveRow := rfl
  objective i r hr := by cases hr
  terms r hr := by cases hr

theorem InOrder.rowIndex? (h : s.InOrder) (name : String) :
    s.toDraft.rowIndex? name = s.rowTable.lookup name :=
  h.rowTable.findIdx?_eq name

theorem InOrder.columnIndex? (h : s.InOrder) (name : String) :
    s.toDraft.columnIndex? name = s.columnTable.lookup name :=
  h.columnTable.findIdx?_eq name

theorem InOrder.row_lt (h : s.InOrder) {name : String} {row : Nat}
    (found : s.rowTable.lookup name = some row) : row < s.rows.length := by
  have hlt := h.rowTable.lt_length found
  rwa [List.length_map] at hlt

theorem InOrder.column_lt (h : s.InOrder) {name : String} {column : Nat}
    (found : s.columnTable.lookup name = some column) : column < s.columns.length := by
  have hlt := h.columnTable.lt_length found
  rwa [List.length_map] at hlt

theorem InOrder.hasObjective (h : s.InOrder) :
    s.toDraft.hasObjective = s.objectiveRow.isSome := by
  rw [Bool.eq_iff_iff, Draft.hasObjective, List.any_eq_true]
  constructor
  · rintro ⟨r, hr, hkind⟩
    obtain ⟨i, hi⟩ := List.getElem?_of_mem hr
    rw [(h.objective i r hi).mp (beq_iff_eq.mp hkind)]
    rfl
  · intro hsome
    obtain ⟨i, hi⟩ := Option.isSome_iff_exists.mp hsome
    have hfirst := h.objectiveRow
    rw [hi] at hfirst
    obtain ⟨hlt, -⟩ := List.findIdx?_eq_some_iff_getElem.mp hfirst.symm
    have hkind := (h.objective i _ (List.getElem?_eq_getElem hlt)).mpr hi
    exact ⟨s.rows[i], List.getElem_mem hlt, beq_iff_eq.mpr hkind⟩

/-- The row of a position is the objective exactly if the position is that of the
objective. -/
theorem InOrder.rowKind?_eq (h : s.InOrder) {row : Nat} (there : row < s.rows.length) :
    s.toDraft.rowKind? row = some .objective ↔ some row = s.objectiveRow := by
  have hget := List.getElem?_eq_getElem there
  rw [Draft.rowKind?, hget, Option.map_some, Option.some.injEq, h.objective row _ hget]
  exact eq_comm

theorem InOrder.objective_unique (h : s.InOrder) {row row' : Nat}
    (objective : s.toDraft.rowKind? row = some .objective)
    (objective' : s.toDraft.rowKind? row' = some .objective) : row = row' := by
  obtain ⟨r, hr, hkind⟩ := Option.map_eq_some_iff.mp objective
  obtain ⟨r', hr', hkind'⟩ := Option.map_eq_some_iff.mp objective'
  have hfirst := ((h.objective row r hr).mp hkind).symm.trans ((h.objective row' r' hr').mp hkind')
  exact Option.some.inj hfirst

/-! ### Changes that keep it -/

/-- A change to the other fields. -/
theorem InOrder.of_eq {s' : Indexed α} (h : s.InOrder) (rows : s'.rows = s.rows)
    (columns : s'.columns = s.columns) (rowTable : s'.rowTable = s.rowTable)
    (columnTable : s'.columnTable = s.columnTable)
    (objectiveRow : s'.objectiveRow = s.objectiveRow) :
    s'.InOrder where
  rowTable := by
    rw [rows, rowTable]
    exact h.rowTable
  columnTable := by
    rw [columns, columnTable]
    exact h.columnTable
  objectiveRow := by
    rw [rows, objectiveRow]
    exact h.objectiveRow
  objective := by
    rw [rows, objectiveRow]
    exact h.objective
  terms := by
    rw [rows, columns]
    exact h.terms

theorem InOrder.changeRow (h : s.InOrder) {f : RowDraft α → RowDraft α}
    (name : ∀ r, (f r).name = r.name) (kind : ∀ r, (f r).kind = r.kind)
    (terms : ∀ r, (∀ t ∈ r.terms, t.1 < s.columns.length) →
      ∀ t ∈ (f r).terms, t.1 < s.columns.length) (row : Nat) :
    ({ s with rows := s.rows.modify row f } : Indexed α).InOrder where
  rowTable := by
    show Indexes s.rowTable ((s.rows.modify row f).map (·.name))
    rw [map_modify_of_keeps name]
    exact h.rowTable
  columnTable := h.columnTable
  objectiveRow := by
    have hsame := congrArg (List.findIdx? RowKind.isFree) (map_modify_of_keeps kind s.rows row)
    rw [List.findIdx?_map, List.findIdx?_map] at hsame
    show s.objectiveRow = (s.rows.modify row f).findIdx? fun r => r.kind.isFree
    rw [h.objectiveRow]
    exact hsame.symm
  objective := by
    intro i r hr
    change (s.rows.modify row f)[i]? = some r at hr
    rw [List.getElem?_modify] at hr
    obtain ⟨old, hold, rfl⟩ := Option.map_eq_some_iff.mp hr
    rw [← h.objective i old hold]
    split
    · rw [kind]
    · rfl
  terms := forall_mem_modify h.terms terms row

theorem InOrder.changeColumn (h : s.InOrder) {f : ColumnDraft α → ColumnDraft α}
    (name : ∀ c, (f c).name = c.name) (column : Nat) :
    ({ s with columns := s.columns.modify column f } : Indexed α).InOrder where
  rowTable := h.rowTable
  columnTable := by
    show Indexes s.columnTable ((s.columns.modify column f).map (·.name))
    rw [map_modify_of_keeps name]
    exact h.columnTable
  objectiveRow := h.objectiveRow
  objective := h.objective
  terms := by
    show ∀ r ∈ s.rows, ∀ t ∈ r.terms, t.1 < (s.columns.modify column f).length
    rw [List.length_modify]
    exact h.terms

/-- With a row more. -/
def withRow [Number α] (s : Indexed α) (name : String) (kind : RowKind) : Indexed α where
  toDraft := s.toDraft.addRow name kind
  rowTable := (name, s.rows.length) :: s.rowTable
  columnTable := s.columnTable
  objectiveRow := if kind = .objective then some s.rows.length else s.objectiveRow

theorem rows_withRow [Number α] (name : String) (kind : RowKind) :
    (s.withRow name kind).rows = s.rows ++ [⟨name, kind, [], 0, none⟩] := rfl

/-- The first row of type N must become the objective, and no other row may. -/
def Suits (s : Indexed α) (kind : RowKind) : Prop :=
  (kind = .objective → s.objectiveRow = none) ∧ (kind = .free → s.objectiveRow ≠ none)

theorem InOrder.withRow [Number α] (h : s.InOrder) {name : String}
    (new : s.rowTable.lookup name = none) {kind : RowKind} (suits : s.Suits kind) :
    (s.withRow name kind).InOrder where
  rowTable := by
    have hconcat := h.rowTable.concat new
    rw [List.length_map] at hconcat
    rw [rows_withRow, List.map_append, List.map_singleton]
    exact hconcat
  columnTable := h.columnTable
  objectiveRow := by
    show (if kind = .objective then some s.rows.length else s.objectiveRow) = _
    rw [rows_withRow, List.findIdx?_append, ← h.objectiveRow]
    cases kind with
    | objective =>
      rw [if_pos rfl, suits.1 rfl]
      simp [RowKind.isFree]
    | free =>
      obtain ⟨row, hrow⟩ := Option.ne_none_iff_exists'.mp (suits.2 rfl)
      rw [if_neg nofun, hrow]
      rfl
    | constraint relation =>
      rw [if_neg nofun]
      simp [RowKind.isFree]
  objective := by
    intro i r hr
    show r.kind = .objective
      ↔ (if kind = .objective then some s.rows.length else s.objectiveRow) = some i
    rw [rows_withRow, List.getElem?_append] at hr
    by_cases hi : i < s.rows.length
    · rw [if_pos hi] at hr
      rw [h.objective i r hr]
      by_cases hkind : kind = .objective
      · rw [if_pos hkind, suits.1 hkind, Option.some.injEq]
        exact iff_of_false nofun (by omega)
      · rw [if_neg hkind]
    · rw [if_neg hi] at hr
      obtain rfl := (List.mem_singleton.mp (List.mem_of_getElem? hr))
      have hlast : i - s.rows.length < 1 := (List.getElem?_eq_some_iff.mp hr).1
      by_cases hkind : kind = .objective
      · rw [if_pos hkind, Option.some.injEq]
        exact iff_of_true hkind (by omega)
      · rw [if_neg hkind]
        refine iff_of_false hkind fun hrow => ?_
        -- the objective is one of the earlier rows
        have hfirst := h.objectiveRow
        rw [hrow] at hfirst
        exact hi (List.findIdx?_eq_some_iff_getElem.mp hfirst.symm).1
  terms := by
    intro r hr
    rcases List.mem_append.mp hr with hr | hr
    · exact h.terms r hr
    · rw [List.mem_singleton.mp hr]
      nofun

/-- With a column more. -/
def withColumn [Number α] (s : Indexed α) (name : String) : Indexed α where
  toDraft := { s.toDraft with
    columns := s.columns
      ++ [⟨name, if s.integerBlock then .integer else .continuous, 0, Number.posInf, false⟩] }
  rowTable := s.rowTable
  columnTable := (name, s.columns.length) :: s.columnTable
  objectiveRow := s.objectiveRow

theorem columns_withColumn [Number α] (name : String) :
    (s.withColumn name).columns = s.columns
      ++ [⟨name, if s.integerBlock then .integer else .continuous, 0, Number.posInf, false⟩] := rfl

theorem InOrder.withColumn [Number α] (h : s.InOrder) {name : String}
    (new : s.columnTable.lookup name = none) : (s.withColumn name).InOrder where
  rowTable := h.rowTable
  columnTable := by
    have hconcat := h.columnTable.concat new
    rw [List.length_map] at hconcat
    rw [columns_withColumn, List.map_append, List.map_singleton]
    exact hconcat
  objectiveRow := h.objectiveRow
  objective := h.objective
  terms := by
    intro r hr t ht
    rw [columns_withColumn, List.length_append]
    exact Nat.lt_add_right _ (h.terms r hr t ht)

end InOrder

end Indexed

/-! ## Outcomes of accesses -/

namespace Access

variable {s : Indexed α}

theorem bind_apply (x : Access α β) (f : β → Access α γ) :
    (x >>= f) s = match x s with
      | none => none
      | some (.ok b, s) => f b s
      | some (.error fault, s) => some (.error fault, s) := rfl

theorem state_bind (f : Indexed α → Access α β) : (state >>= f) s = f s s := rfl

theorem change_bind (g : Indexed α → Indexed α) (f : Unit → Access α β) :
    (change g >>= f) s = f () (g s) := rfl

/-- After a result, the rest goes on from it. -/
theorem bind_ok {x : Access α β} {b : β} {s' : Indexed α} (result : x s = some (.ok b, s'))
    (f : β → Access α γ) : (x >>= f) s = f b s' := by
  rw [bind_apply, result]

/-- An item that is there. -/
theorem item_bind {items : List β} {i : Nat} {b : β} (there : items[i]? = some b)
    (f : β → Access α γ) : (item items i >>= f) s = f b s := by
  refine bind_ok ?_ f
  rw [item, there, Option.map_some]

/-- Items from a position on that is not behind the end. -/
theorem itemsFrom_bind {items : List β} {i : Nat} (there : i ≤ items.length)
    (f : List β → Access α γ) : (itemsFrom items i >>= f) s = f (items.drop i) s := by
  refine bind_ok ?_ f
  rw [itemsFrom, if_pos there]

/-- **An access and what the reader says of it.** The action has an outcome, leaves what
`keeps` says, and the reader comes to the answer that is made of the outcome and of the
draft. -/
def Agrees (keeps : Indexed α → Prop) (answer : β → Draft α → γ)
    (x : Option (Except (Fault α) β × Indexed α)) (y : Except (Fault α) γ) : Prop :=
  ∃ outcome s', x = some (outcome, s') ∧ keeps s'
    ∧ y = outcome.map fun b => answer b s'.toDraft

/-- The answer of an access that is done for its change: the draft that it leaves. -/
def left (_ : β) (d : Draft α) : Draft α := d

section Agrees

variable {keeps : Indexed α → Prop} {answer : β → Draft α → γ}

theorem agrees_ok (h : keeps s) (b : β) : Agrees keeps answer (some (.ok b, s))
    (.ok (answer b s.toDraft)) :=
  ⟨.ok b, s, rfl, h, rfl⟩

theorem agrees_error (h : keeps s) (fault : Fault α) :
    Agrees keeps answer (some (.error fault, s)) (.error fault) :=
  ⟨.error fault, s, rfl, h, rfl⟩

theorem Agrees.imp {other : Indexed α → Prop} {x : Option (Except (Fault α) β × Indexed α)}
    {y : Except (Fault α) γ} (h : Agrees keeps answer x y) (weaker : ∀ s, keeps s → other s) :
    Agrees other answer x y := by
  obtain ⟨outcome, s', hx, hs', hy⟩ := h
  exact ⟨outcome, s', hx, weaker s' hs', hy⟩

/-- One access after the other. -/
theorem Agrees.bind {δ ζ : Type} {next : δ → Draft α → ζ} {x : Access α β}
    {f : β → Access α δ} {y : Except (Fault α) γ} {g : γ → Except (Fault α) ζ}
    (first : Agrees keeps answer (x s) y)
    (rest : ∀ b s', keeps s' → Agrees keeps next (f b s') (g (answer b s'.toDraft))) :
    Agrees keeps next ((x >>= f) s) (y >>= g) := by
  obtain ⟨outcome, s', hx, hs', rfl⟩ := first
  rw [bind_apply, hx]
  cases outcome with
  | error fault => exact agrees_error hs' fault
  | ok b => exact rest b s' hs'

/-- An access that changes nothing, before another. -/
theorem agrees_bind {δ : Type} {x : Access α δ} {f : δ → Access α β} {y : Except (Fault α) δ}
    {g : δ → Except (Fault α) γ} (asks : x s = some (y, s)) (h : keeps s)
    (rest : ∀ b, y = .ok b → Agrees keeps answer (f b s) (g b)) :
    Agrees keeps answer ((x >>= f) s) (y >>= g) := by
  rw [bind_apply, asks]
  cases y with
  | error fault => exact agrees_error h fault
  | ok b => exact rest b rfl

theorem agrees_map {δ : Type} {x : Access α δ} {f : δ → Access α β} {y : Except (Fault α) δ}
    {g : δ → γ} (asks : x s = some (y, s)) (h : keeps s)
    (rest : ∀ b, y = .ok b → Agrees keeps answer (f b s) (.ok (g b))) :
    Agrees keeps answer ((x >>= f) s) (y.map g) := by
  have hbind := agrees_bind (g := fun b => .ok (g b)) asks h rest
  cases y with
  | error fault => exact hbind
  | ok b => exact hbind

/-- The same for each of several items. -/
theorem agrees_each {δ : Type} {f : β → Access α Unit}
    {g : Draft α → δ → Except (Fault α) (Draft α)}
    {shape : δ → β}
    (step : ∀ (s : Indexed α) b, keeps s → Agrees keeps left (f (shape b) s) (g s.toDraft b))
    (items : List δ) (h : keeps s) :
    Agrees keeps left (each f (items.map shape) s) (items.foldlM g s.toDraft) := by
  induction items generalizing s with
  | nil => exact agrees_ok h ()
  | cons b items ih =>
    rw [List.map_cons, List.foldlM_cons, each]
    exact (step s b h).bind fun _ s' hs' => ih hs'

end Agrees

end Access

end Milp.Mps
