/-
The number of a line matters to its fault alone.

Every function of the reader is given the number of the line that it reads, and uses it
for nothing but the fault that names the line. `Alike` says this of one function at two
numbers: both succeed with the same result, or both refuse the line with the same words,
each under its own number. It is proved function by function and put together along the
lines.

So reading the same lines under other numbers has the same result up to the numbers
(`readLines_renumbered`), and every fault of the reader names one of the lines that it was
given (`line_of_readLines`). Both are read off `readLines_cases`.
-/
import Mathlib
import Milp.Mps.Reader

set_option autoImplicit false

namespace Milp

/-- The fault with the line that it names, if it names one, under another number. -/
def Fault.renumber {α : Type} (f : Nat → Nat) : Fault α → Fault α
  | .mps line detail => .mps (f line) detail
  | other => other

namespace Mps

variable {α β γ : Type} {line line' : Nat}

/-! ## Two numbers for one line -/

/-- Two readings of one line under two numbers: the same result, or the same words against
the line. -/
def Alike (line line' : Nat) (x y : Except (Fault α) β) : Prop :=
  ∃ z : Except String β, x = z.mapError (Fault.mps line) ∧ y = z.mapError (Fault.mps line')

namespace Alike

theorem ok (b : β) : Alike line line' (.ok b : Except (Fault α) β) (.ok b) :=
  ⟨.ok b, rfl, rfl⟩

theorem refuse (detail : String) :
    Alike line line' (refuse line detail : Except (Fault α) β) (refuse line' detail) :=
  ⟨.error detail, rfl, rfl⟩

theorem map {x y : Except (Fault α) β} (h : Alike line line' x y) (f : β → γ) :
    Alike line line' (x.map f) (y.map f) := by
  obtain ⟨z, rfl, rfl⟩ := h
  cases z with
  | error detail => exact refuse detail
  | ok b => exact ok (f b)

theorem bind {x y : Except (Fault α) β} {f g : β → Except (Fault α) γ}
    (first : Alike line line' x y) (next : ∀ b, Alike line line' (f b) (g b)) :
    Alike line line' (x >>= f) (y >>= g) := by
  obtain ⟨z, rfl, rfl⟩ := first
  cases z with
  | error detail => exact refuse detail
  | ok b => exact next b

theorem ite {p : Prop} [Decidable p] {x y x' y' : Except (Fault α) β}
    (yes : Alike line line' x y) (no : Alike line line' x' y') :
    Alike line line' (if p then x else x') (if p then y else y') := by
  by_cases hp : p
  · rwa [if_pos hp, if_pos hp]
  · rwa [if_neg hp, if_neg hp]

theorem foldlM {f g : γ → β → Except (Fault α) γ}
    (step : ∀ c b, Alike line line' (f c b) (g c b)) (items : List β) (c : γ) :
    Alike line line' (items.foldlM f c) (items.foldlM g c) := by
  induction items generalizing c with
  | nil => exact ok c
  | cons b items ih =>
    rw [List.foldlM_cons, List.foldlM_cons]
    exact (step c b).bind ih

/-- Two readings that agree on one number are the same reading. -/
theorem eq_of_mapError_eq {z w : Except String β}
    (h : (z.mapError (Fault.mps line) : Except (Fault α) β) = w.mapError (Fault.mps line)) :
    z = w := by
  cases z with
  | error detail =>
    cases w with
    | error detail' =>
      injection h with h
      injection h with _ hdetail
      rw [hdetail]
    | ok b => cases h
  | ok b =>
    cases w with
    | error detail => cases h
    | ok b' =>
      injection h with h
      rw [h]

/-- **One reading for all numbers**, where any two agree. -/
theorem exists_reading {x : Nat → Except (Fault α) β}
    (h : ∀ line line', Alike line line' (x line) (x line')) :
    ∃ z : Except String β, ∀ line, x line = z.mapError (Fault.mps line) := by
  obtain ⟨z, hz, -⟩ := h 0 0
  refine ⟨z, fun line => ?_⟩
  obtain ⟨w, hw, hline⟩ := h 0 line
  rw [hline, eq_of_mapError_eq (hz.symm.trans hw)]

end Alike

/-- Lines under other numbers. -/
def renumbered (f : Nat → Nat) (lines : List (Nat × Line)) : List (Nat × Line) :=
  lines.map fun l => (f l.1, l.2)

theorem renumbered_id (lines : List (Nat × Line)) : renumbered id lines = lines :=
  List.map_id lines

/-! ## Fields -/

theorem alike_readSense (line line' : Nat) (field : String) :
    Alike line line' (readSense line field : Except (Fault α) Sense) (readSense line' field) := by
  rw [readSense, readSense]
  exact .ite (.ok _) (.ite (.ok _) (.refuse _))

variable [Number α]

theorem alike_readNumber (line line' : Nat) (field : String) :
    Alike line line' (readNumber line field : Except (Fault α) α) (readNumber line' field) := by
  rw [readNumber, readNumber]
  cases Numeral.ofText field with
  | error e => exact .refuse _
  | ok numeral => exact .ite (.refuse _) (.ok _)

namespace Draft

variable (d : Draft α)

omit [Number α] in
theorem alike_readRow (line line' : Nat) (name : String) :
    Alike line line' (d.readRow line name) (d.readRow line' name) := by
  rw [readRow, readRow]
  cases d.rowIndex? name with
  | some row => exact .ok row
  | none => exact .refuse _

omit [Number α] in
theorem alike_readColumn (line line' : Nat) (name : String) :
    Alike line line' (d.readColumn line name) (d.readColumn line' name) := by
  rw [readColumn, readColumn]
  cases d.columnIndex? name with
  | some column => exact .ok column
  | none => exact .refuse _

/-! ## Sections -/

omit [Number α] in
theorem alike_header (line line' : Nat) (fields : List String) :
    Alike line line' (d.header line fields) (d.header line' fields) := by
  unfold header
  split
  case h_3 word _ => exact (alike_readSense line line' word).map _
  case h_10 => exact .refuse _
  all_goals exact .ok _

omit [Number α] in
theorem alike_readRowKind (line line' : Nat) (field : String) :
    Alike line line' (d.readRowKind line field) (d.readRowKind line' field) := by
  rw [readRowKind, readRowKind]
  exact .ite (.ok _) (.ite (.ok _) (.ite (.ok _) (.ite (.ok _) (.refuse _))))

theorem alike_rowLine (line line' : Nat) (fields : List String) :
    Alike line line' (d.rowLine line fields) (d.rowLine line' fields) := by
  unfold rowLine
  split
  · refine (d.alike_readRowKind line line' _).bind fun kind => ?_
    exact .ite (.refuse _) (.ok _)
  · exact .refuse _

omit [Number α] in
theorem alike_markerLine (line line' : Nat) (field : String) :
    Alike line line' (d.markerLine line field) (d.markerLine line' field) := by
  rw [markerLine, markerLine]
  exact .ite (.ok _) (.ite (.ok _) (.refuse _))

theorem alike_entry (column line line' : Nat) (pair : String × String) :
    Alike line line' (entry column line d pair) (entry column line' d pair) := by
  rw [entry, entry]
  refine (d.alike_readRow line line' pair.1).bind fun row => ?_
  refine (alike_readNumber line line' pair.2).bind fun value => ?_
  exact .ite (.ok _) (.refuse _)

theorem alike_entryLine (line line' : Nat) (fields : List String) :
    Alike line line' (d.entryLine line fields) (d.entryLine line' fields) := by
  unfold entryLine
  split
  · exact alike_entry _ _ line line' _
  · exact (alike_entry _ _ line line' _).bind fun d => d.alike_entry _ line line' _
  · exact .refuse _

theorem alike_columnLine (line line' : Nat) (fields : List String) :
    Alike line line' (d.columnLine line fields) (d.columnLine line' fields) := by
  unfold columnLine
  split
  · exact .ite (d.alike_markerLine line line' _) (d.alike_entryLine line line' _)
  · exact d.alike_entryLine line line' _

omit [Number α] in
theorem alike_pairs (line line' : Nat) (title : String) (fields : List String) :
    Alike line line' (pairs line title fields : Except (Fault α) _) (pairs line' title fields) := by
  unfold pairs
  split
  case h_5 => exact .refuse _
  all_goals exact .ok _

theorem alike_rhsLine (line line' : Nat) (fields : List String) :
    Alike line line' (d.rhsLine line fields) (d.rhsLine line' fields) := by
  rw [rhsLine, rhsLine]
  refine (alike_pairs line line' "RHS" fields).bind fun entries => ?_
  refine .foldlM (fun d pair => ?_) entries d
  rw [rhsPair, rhsPair]
  refine (d.alike_readRow line line' pair.1).bind fun row => ?_
  exact (alike_readNumber line line' pair.2).bind fun value => .ok _

theorem alike_rangePair (line line' : Nat) (pair : String × String) :
    Alike line line' (rangePair line d pair) (rangePair line' d pair) := by
  rw [rangePair, rangePair]
  refine (d.alike_readRow line line' pair.1).bind fun row => ?_
  refine (alike_readNumber line line' pair.2).bind fun value => ?_
  split
  · exact .ok _
  · exact .refuse _

theorem alike_rangeLine (line line' : Nat) (fields : List String) :
    Alike line line' (d.rangeLine line fields) (d.rangeLine line' fields) := by
  rw [rangeLine, rangeLine]
  refine (alike_pairs line line' "RANGES" fields).bind fun entries => ?_
  exact .foldlM (fun d pair => d.alike_rangePair line line' pair) entries d

/-! ## Bounds -/

theorem alike_boundFields (line line' : Nat) (kind : String) (fields : List String) :
    Alike line line' (d.boundFields line kind fields) (d.boundFields line' kind fields) := by
  unfold boundFields
  refine .ite ?_ ?_
  · split
    · exact (alike_readNumber line line' _).map _
    · exact (alike_readNumber line line' _).map _
    · exact .refuse _
  · split
    · exact .ok _
    · exact .ok _
    · exact .ite (.ok _) (.ok _)
    · exact .refuse _

theorem alike_boundLine (line line' : Nat) (fields : List String) :
    Alike line line' (d.boundLine line fields) (d.boundLine line' fields) := by
  unfold boundLine
  split
  · exact .ok d
  · rename_i field rest
    refine (d.alike_boundFields line line' (upperCase field) rest).bind fun target => ?_
    refine (d.alike_readColumn line line' target.1).bind fun column => ?_
    split
    · exact .ok _
    · exact .refuse _

/-! ## Lines -/

theorem alike_dataLine (part : Section) (line line' : Nat) (fields : List String) :
    Alike line line' (d.dataLine part line fields) (d.dataLine part line' fields) := by
  cases part with
  | start => exact .refuse _
  | objectiveSense => exact (alike_readSense line line' _).map _
  | rows => exact d.alike_rowLine line line' fields
  | columns => exact d.alike_columnLine line line' fields
  | rhs => exact d.alike_rhsLine line line' fields
  | ranges => exact d.alike_rangeLine line line' fields
  | bounds => exact d.alike_boundLine line line' fields
  | ended => exact .ok d

/-- **What lines come to**, whatever numbers they have: always the same draft, or always the
same words against the same line. -/
theorem readLines_cases (part : Section) (lines : List (Nat × Line)) :
    (∃ next, ∀ f, readLines d part (renumbered f lines) = .ok next)
      ∨ ∃ l ∈ lines, ∃ detail, ∀ f,
          readLines d part (renumbered f lines) = .error (.mps (f l.1) detail) := by
  induction lines generalizing d part with
  | nil => exact .inl ⟨d, fun _ => rfl⟩
  | cons l lines ih =>
    -- where the first line is read, the others decide
    have hgoesOn : ∀ next section', (∀ f, readLines d part (renumbered f (l :: lines))
        = readLines next section' (renumbered f lines)) →
        (∃ next, ∀ f, readLines d part (renumbered f (l :: lines)) = .ok next)
          ∨ ∃ k ∈ l :: lines, ∃ detail, ∀ f,
              readLines d part (renumbered f (l :: lines)) = .error (.mps (f k.1) detail) := by
      intro next section' hread
      simp only [hread]
      rcases ih next section' with hall | ⟨k, hk, hfails⟩
      · exact .inl hall
      · exact .inr ⟨k, List.mem_cons_of_mem l hk, hfails⟩
    obtain ⟨line, l⟩ := l
    cases l with
    | header fields =>
      obtain ⟨reading, hreading⟩ := Alike.exists_reading fun line line' =>
        d.alike_header line line' fields
      have hread : ∀ f, readLines d part (renumbered f ((line, .header fields) :: lines))
          = reading.mapError (Fault.mps (f line)) >>= fun read =>
              if read.1 = .ended then pure read.2
              else readLines read.2 read.1 (renumbered f lines) := by
        intro f
        rw [← hreading, renumbered, List.map_cons, readLines]
        rfl
      cases reading with
      | error detail => exact .inr ⟨_, List.mem_cons_self, detail, hread⟩
      | ok read =>
        by_cases hended : read.1 = .ended
        · exact .inl ⟨read.2, fun f => (hread f).trans (if_pos hended)⟩
        · exact hgoesOn read.2 read.1 fun f => (hread f).trans (if_neg hended)
    | data fields =>
      obtain ⟨reading, hreading⟩ := Alike.exists_reading fun line line' =>
        d.alike_dataLine part line line' fields
      have hread : ∀ f, readLines d part (renumbered f ((line, .data fields) :: lines))
          = reading.mapError (Fault.mps (f line)) >>= fun next =>
              readLines next part (renumbered f lines) := by
        intro f
        rw [← hreading, renumbered, List.map_cons, readLines]
        rfl
      cases reading with
      | error detail => exact .inr ⟨_, List.mem_cons_self, detail, hread⟩
      | ok next => exact hgoesOn next part hread

/-- **The same lines under other numbers** are read to the same draft, or refused at the
same line, under its other number. -/
theorem readLines_renumbered (f : Nat → Nat) (part : Section) (lines : List (Nat × Line)) :
    readLines d part (renumbered f lines)
      = (readLines d part lines).mapError (Fault.renumber f) := by
  have hsame : readLines d part lines = readLines d part (renumbered id lines) := by
    rw [renumbered_id]
  rw [hsame]
  rcases d.readLines_cases part lines with ⟨next, hread⟩ | ⟨l, -, detail, hfails⟩
  · rw [hread, hread]
    rfl
  · rw [hfails, hfails]
    rfl

/-- **A fault of the reader names a line** that it was given. -/
theorem line_of_readLines {part : Section} {lines : List (Nat × Line)} {fault : Fault α}
    (h : readLines d part lines = .error fault) :
    ∃ l ∈ lines, ∃ detail, fault = .mps l.1 detail := by
  rw [← renumbered_id lines] at h
  rcases d.readLines_cases part lines with ⟨next, hread⟩ | ⟨l, hl, detail, hfails⟩
  · rw [hread] at h
    cases h
  · rw [hfails] at h
    exact ⟨l, hl, detail, (Except.error.inj h).symm⟩

end Draft

end Mps

end Milp
