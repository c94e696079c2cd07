/-
The order of right-hand sides, ranges and bounds does not matter.

Behind rows and columns, a text may be put in another order: the lines of a section of
right-hand sides, ranges or bounds may trade places, and so may the sections
(`Rearranged`). It is read to the same model, if what its lines set is set once
(`EachOnce`): no row is given two right-hand sides or two ranges, and a column at most one
bound a side, or a single one of both sides.

Every line is read against the same rows and columns wherever it stands, so it still is
(`Milp.Proofs.Mps.Passages`). Two changes that trade places come from lines that name
different rows or columns, or from the two sides of a column (`apart_of_sources`), and such
changes commute (`Milp.Proofs.Mps.Changes`). That different names are different positions,
and that only one row is the objective, is the invariant of the tables.
-/
import Milp.Proofs.Mps.Passages
import Milp.Proofs.Mps.InRange
import Milp.Proofs.Mps.Layout

set_option autoImplicit false

namespace Milp.Mps

variable {α : Type} [Number α]

/-! ## What the lines of a body name -/

/-- The lines of data in the passages of a kind. -/
def entriesOf (kind : PassageKind) (body : List Passage) : List (List String) :=
  body.flatMap fun b => if b.kind = kind then b.entries else []

/-- The pairs of a row and a number on a line, without the name of the set. -/
def entryPairs : List String → List (String × String)
  | [row, value] | [_, row, value] => [(row, value)]
  | [row, value, row', value'] | [_, row, value, row', value'] => [(row, value), (row', value')]
  | _ => []

/-- The rows that lines of a kind give a number. -/
def rowsOf (kind : PassageKind) (body : List Passage) : List String :=
  ((entriesOf kind body).flatMap entryPairs).map Prod.fst

/-- The kind of bound on a line. -/
def boundKind (fields : List String) : String := upperCase (fields.headD "")

/-- The column on a line of bounds, where columns have these names. -/
def boundColumn? (columns : List String) : List String → Option String
  | [] => none
  | kind :: rest =>
    if Draft.takesValue (upperCase kind) then
      match rest with
      | [column, _] | [_, column, _] => some column
      | _ => none
    else
      match rest with
      | [column] | [_, column, _] => some column
      | [first, second] =>
        if upperCase kind == "BV" && columns.contains first then some first else some second
      | _ => none

/-- The lines of bounds of one column. -/
def boundsOf (columns : List String) (column : String) (body : List Passage) :
    List (List String) :=
  (entriesOf .bounds body).filter fun fields => boundColumn? columns fields == some column

/-- At most one line that sets the lower bound and at most one that sets the upper, or a
single line. -/
def OneASide (lines : List (List String)) : Prop :=
  lines.length ≤ 1
    ∨ (∀ l ∈ lines, isLowerSide (boundKind l) = true ∨ isUpperSide (boundKind l) = true)
      ∧ lines.countP (fun l => isLowerSide (boundKind l)) ≤ 1
      ∧ lines.countP (fun l => isUpperSide (boundKind l)) ≤ 1

/-- **What a body sets, it sets once.** -/
structure EachOnce (columns : List String) (body : List Passage) : Prop where
  rhs : (rowsOf .rhs body).Nodup
  ranges : (rowsOf .ranges body).Nodup
  bounds : ∀ column ∈ columns, OneASide (boundsOf columns column body)

/-! ## Other orders -/

/-- The same passage, with its lines in another order if they may move. -/
structure Shuffled (b b' : Passage) : Prop where
  kind : b'.kind = b.kind
  rest : b'.rest = b.rest
  entries : b.entries.Perm b'.entries
  kept : b.kind.moves = false → b'.entries = b.entries

/-- **Another order.** The lines of passages that may move trade places within their passages,
and these passages among all; the other passages keep their order. -/
def Rearranged (body body' : List Passage) : Prop :=
  ∃ between, List.Forall₂ Shuffled body between ∧ between.Perm body'
    ∧ (between.filter fun b => !b.kind.moves) = body'.filter fun b => !b.kind.moves

theorem Shuffled.placed_perm {b b' : Passage} (h : Shuffled b b') : b.placed.Perm b'.placed := by
  rw [Passage.placed, Passage.placed, h.kind, h.rest]
  exact (h.entries.map _).cons _

theorem Shuffled.eq_of_kept {b b' : Passage} (h : Shuffled b b') (kept : b.kind.moves = false) :
    b' = b := by
  obtain ⟨kind, rest, entries⟩ := b
  obtain ⟨kind', rest', entries'⟩ := b'
  rw [Passage.mk.injEq]
  exact ⟨h.kind, h.rest, h.kept kept⟩

theorem Rearranged.placed_perm {body body' : List Passage} (h : Rearranged body body') :
    (body.flatMap Passage.placed).Perm (body'.flatMap Passage.placed) := by
  obtain ⟨between, hshuffled, hperm, -⟩ := h
  refine .trans ?_ (hperm.flatMap_right Passage.placed)
  clear hperm
  induction hshuffled with
  | nil => exact .nil
  | cons hb _ ih => exact hb.placed_perm.append ih

/-- The lines that stay are those of the passages that stay. -/
theorem filter_placed (body : List Passage) :
    ((body.flatMap Passage.placed).filter fun l => !l.1.moves)
      = (body.filter fun b => !b.kind.moves).flatMap Passage.placed := by
  induction body with
  | nil => rfl
  | cons b body ih =>
    have hkind : ∀ l ∈ b.placed, l.1 = b.kind := by
      intro l hl
      rcases List.mem_cons.mp hl with rfl | hl
      · rfl
      · obtain ⟨fields, -, rfl⟩ := List.mem_map.mp hl
        rfl
    rw [List.flatMap_cons, List.filter_append, ih, List.filter_cons]
    cases hmoves : b.kind.moves with
    | true =>
      have hnone : (b.placed.filter fun l => !l.1.moves) = [] := by
        rw [List.filter_eq_nil_iff]
        intro l hl
        rw [hkind l hl, hmoves]
        exact Bool.false_ne_true
      rw [hnone]
      rfl
    | false =>
      have hall : (b.placed.filter fun l => !l.1.moves) = b.placed := by
        rw [List.filter_eq_self]
        intro l hl
        rw [hkind l hl, hmoves]
        rfl
      rw [hall]
      rfl

theorem Rearranged.placed_kept {body body' : List Passage} (h : Rearranged body body') :
    ((body.flatMap Passage.placed).filter fun l => !l.1.moves)
      = (body'.flatMap Passage.placed).filter fun l => !l.1.moves := by
  obtain ⟨between, hshuffled, -, hkept⟩ := h
  have hsame : (body.filter fun b => !b.kind.moves) = between.filter fun b => !b.kind.moves := by
    clear hkept
    induction hshuffled with
    | nil => rfl
    | cons hb _ ih =>
      rename_i b b' _ _
      rw [List.filter_cons, List.filter_cons, ih, hb.kind]
      split
      · rename_i hstays
        rw [hb.eq_of_kept (by simpa using hstays)]
      · rfl
  rw [filter_placed, filter_placed, hsame, hkept]

/-! ## Where changes come from -/

namespace Draft

/-- The lines of a body that make a change: a right-hand side, a range, or a bound. -/
inductive Source (frame : Draft α) (body : List Passage) (a : Change α) : Prop where
  | rhs (pair : String × String) (there : pair ∈ (entriesOf .rhs body).flatMap entryPairs)
      (makes : frame.rhsChange pair = .ok a)
  | range (pair : String × String) (there : pair ∈ (entriesOf .ranges body).flatMap entryPairs)
      (makes : frame.rangeChange pair = .ok a)
  | bound (fields : List String) (there : fields ∈ entriesOf .bounds body)
      (makes : frame.boundChanges fields = .ok [a])

omit [Number α] in
theorem entryPairs_of_pairs {title : String} {fields : List String}
    {entries : List (String × String)}
    (h : (pairs 0 title fields : Except (Fault α) _) = .ok entries) :
    entries = entryPairs fields := by
  unfold pairs at h
  split at h
  case h_5 => cases h
  all_goals exact (Except.ok.inj h).symm

variable {frame : Draft α} {body : List Passage}

theorem mem_entriesOf {b : Passage} (hb : b ∈ body) {fields : List String}
    (hfields : fields ∈ b.entries) : fields ∈ entriesOf b.kind body := by
  refine List.mem_flatMap.mpr ⟨b, hb, ?_⟩
  rw [if_pos rfl]
  exact hfields

theorem mem_made {l : PassageKind × Line} {a : Change α} (h : a ∈ frame.made l) :
    ∃ cs, frame.changes l = .ok cs ∧ a ∈ cs := by
  rw [made] at h
  cases hread : frame.changes l with
  | error fault =>
    rw [hread] at h
    cases h
  | ok cs =>
    rw [hread] at h
    exact ⟨cs, rfl, h⟩

omit [Number α] in
theorem isSome_columnIndex? (frame : Draft α) (name : String) :
    (frame.columnIndex? name).isSome = (frame.columns.map (·.name)).contains name := by
  rw [columnIndex?, List.findIdx?_isSome, List.contains_eq_any_beq, List.any_map]
  refine congrArg (List.any frame.columns) (funext fun c => ?_)
  exact Bool.beq_comm

/-- The column of a line of bounds is known from its fields. -/
theorem boundColumn?_of_boundFields {line : Nat} {kind : String} {rest : List String}
    {name : String} {value : α}
    (h : frame.boundFields line (upperCase kind) rest = .ok (name, value)) :
    boundColumn? (frame.columns.map (·.name)) (kind :: rest) = some name := by
  have hnumber : ∀ {column field : String},
      (readNumber line field).map (fun number : α => (column, number)) = .ok (name, value) →
      column = name := by
    intro column field hread
    obtain ⟨number, -, heq⟩ := Attempt.map_eq_ok_iff.mp hread
    exact (Prod.mk.inj heq).1
  unfold boundFields at h
  unfold boundColumn?
  dsimp only
  split at h
  · rename_i htakes
    rw [if_pos htakes]
    split at h
    · rw [hnumber h]
    · rw [hnumber h]
    · cases h
  · rename_i htakes
    rw [if_neg htakes]
    split at h
    · rw [(Prod.mk.inj (Except.ok.inj h)).1]
    · rw [(Prod.mk.inj (Except.ok.inj h)).1]
    · rw [isSome_columnIndex?] at h
      split at h
      · rename_i hfirst
        rw [← (Prod.mk.inj (Except.ok.inj h)).1]
        exact if_pos hfirst
      · rename_i hfirst
        rw [← (Prod.mk.inj (Except.ok.inj h)).1]
        exact if_neg hfirst
    · cases h

/-- What a line of bounds says, if it can be read. -/
theorem of_boundChanges {fields : List String} {cs : List (Change α)}
    (h : frame.boundChanges fields = .ok cs) :
    cs = [] ∨ ∃ name column value, boundColumn? (frame.columns.map (·.name)) fields = some name
      ∧ frame.columnIndex? name = some column ∧ cs = [.bound column (boundKind fields) value] := by
  cases fields with
  | nil => exact .inl (Except.ok.inj h).symm
  | cons kind rest =>
    obtain ⟨⟨name, value⟩, hfields, h⟩ := Attempt.bind_eq_ok_iff.mp h
    obtain ⟨column, hcolumn, h⟩ := Attempt.bind_eq_ok_iff.mp h
    refine .inr ⟨name, column, value, boundColumn?_of_boundFields hfields,
      readColumn_eq_ok_iff.mp hcolumn, ?_⟩
    split at h
    · exact (Except.ok.inj h).symm
    · cases h

/-- **A line that may move** makes changes that its entries stand for. -/
theorem source_of_made {l : PassageKind × Line} (hl : l ∈ body.flatMap Passage.placed)
    (moves : l.1.moves = true) {a : Change α} (ha : a ∈ frame.made l) :
    Source frame body a := by
  obtain ⟨cs, hcs, hmem⟩ := mem_made ha
  obtain ⟨⟨kind, rest, entries⟩, hb, hl⟩ := List.mem_flatMap.mp hl
  rcases List.mem_cons.mp hl with rfl | hl
  · -- these headers change nothing
    cases kind with
    | title => cases moves
    | sense => cases moves
    | _ =>
      obtain rfl := Except.ok.inj hcs
      cases hmem
  · obtain ⟨fields, hfields, rfl⟩ := List.mem_map.mp hl
    have hentries := mem_entriesOf hb hfields
    cases kind with
    | title => cases moves
    | sense => cases moves
    | rhs =>
      obtain ⟨pairs, hpairs, hmade⟩ := Attempt.bind_eq_ok_iff.mp hcs
      obtain ⟨pair, hpair, hchange⟩ := Attempt.exists_of_mem_mapM hmade hmem
      rw [entryPairs_of_pairs hpairs] at hpair
      exact .rhs pair (List.mem_flatMap.mpr ⟨fields, hentries, hpair⟩) hchange
    | ranges =>
      obtain ⟨pairs, hpairs, hmade⟩ := Attempt.bind_eq_ok_iff.mp hcs
      obtain ⟨pair, hpair, hchange⟩ := Attempt.exists_of_mem_mapM hmade hmem
      rw [entryPairs_of_pairs hpairs] at hpair
      exact .range pair (List.mem_flatMap.mpr ⟨fields, hentries, hpair⟩) hchange
    | bounds =>
      refine .bound fields hentries ?_
      rcases of_boundChanges hcs with rfl | ⟨name, column, value, -, -, rfl⟩
      · cases hmem
      · rw [List.mem_singleton.mp hmem]
        exact hcs

/-- The other lines set the title or the sense. -/
theorem made_of_kept {l : PassageKind × Line} (kept : l.1.moves = false) {a : Change α}
    (ha : a ∈ frame.made l) : (∃ name, a = .title name) ∨ ∃ sense, a = .sense sense := by
  obtain ⟨cs, hcs, hmem⟩ := mem_made ha
  have hsense : ∀ {x : Except (Fault α) Sense}, x.map (fun sense => [Change.sense sense]) = .ok cs →
      ∃ sense, a = .sense sense := by
    intro x hx
    obtain ⟨sense, -, rfl⟩ := Attempt.map_eq_ok_iff.mp hx
    exact ⟨sense, List.mem_singleton.mp hmem⟩
  obtain ⟨kind, line⟩ := l
  cases kind with
  | title =>
    cases line with
    | header fields =>
      obtain rfl := Except.ok.inj hcs
      exact .inl ⟨_, List.mem_singleton.mp hmem⟩
    | data fields => cases hcs
  | sense =>
    match line with
    | .header (_ :: word :: _) => exact .inr (hsense hcs)
    | .data fields => exact .inr (hsense hcs)
    | .header [] =>
      obtain rfl := Except.ok.inj hcs
      cases hmem
    | .header [_] =>
      obtain rfl := Except.ok.inj hcs
      cases hmem
  | _ => cases kept

/-! ## Changes that are apart -/

/-- What is found at one position under two names has both. -/
theorem name_of_findIdx? {β : Type} {items : List β} {nameOf : β → String} {name name' : String}
    {i : Nat} (h : (items.findIdx? fun b => nameOf b == name) = some i)
    (h' : (items.findIdx? fun b => nameOf b == name') = some i) : name = name' := by
  obtain ⟨_, hname, -⟩ := List.findIdx?_eq_some_iff_getElem.mp h
  obtain ⟨_, hname', -⟩ := List.findIdx?_eq_some_iff_getElem.mp h'
  exact (beq_iff_eq.mp hname).symm.trans (beq_iff_eq.mp hname')

/-- Pairs of rows that are named once are of different rows, or the same. -/
theorem eq_or_name_ne {pairs : List (String × String)} (once : (pairs.map Prod.fst).Nodup)
    {pair pair' : String × String} (h : pair ∈ pairs) (h' : pair' ∈ pairs) :
    pair = pair' ∨ pair.1 ≠ pair'.1 := by
  by_cases hsame : pair.1 = pair'.1
  · exact .inl (List.inj_on_of_nodup_map once h h' hsame)
  · exact .inr hsame

theorem of_rhsChange {pair : String × String} {a : Change α} (h : frame.rhsChange pair = .ok a) :
    ∃ row value, frame.rowIndex? pair.1 = some row
      ∧ a = if frame.rowKind? row == some .objective then .constant value else .rhs row value := by
  obtain ⟨row, hrow, h⟩ := Attempt.bind_eq_ok_iff.mp h
  obtain ⟨value, -, h⟩ := Attempt.bind_eq_ok_iff.mp h
  exact ⟨row, value, readRow_eq_ok_iff.mp hrow, (Except.ok.inj h).symm⟩

theorem of_rangeChange {pair : String × String} {a : Change α}
    (h : frame.rangeChange pair = .ok a) :
    ∃ row value, frame.rowIndex? pair.1 = some row ∧ a = .range row value := by
  obtain ⟨row, hrow, h⟩ := Attempt.bind_eq_ok_iff.mp h
  obtain ⟨value, -, h⟩ := Attempt.bind_eq_ok_iff.mp h
  refine ⟨row, value, readRow_eq_ok_iff.mp hrow, ?_⟩
  split at h
  · exact (Except.ok.inj h).symm
  · cases h

theorem of_boundChange {fields : List String} {a : Change α}
    (h : frame.boundChanges fields = .ok [a]) :
    ∃ name column value, boundColumn? (frame.columns.map (·.name)) fields = some name
      ∧ frame.columnIndex? name = some column ∧ a = .bound column (boundKind fields) value := by
  rcases of_boundChanges h with hnone | ⟨name, column, value, hname, hcolumn, hone⟩
  · cases hnone
  · exact ⟨name, column, value, hname, hcolumn, List.singleton_inj.mp hone⟩

/-- A list with one item at most has no two different ones. -/
theorem eq_of_length_le_one {β : Type} {items : List β} (h : items.length ≤ 1) {b c : β}
    (hb : b ∈ items) (hc : c ∈ items) : b = c := by
  match items, h with
  | [], _ => cases hb
  | [d], _ => rw [List.mem_singleton.mp hb, List.mem_singleton.mp hc]

/-- **Two bounds of one column** are of different sides, or the same line. -/
theorem sides_of_oneASide {lines : List (List String)} (once : OneASide lines)
    {fields fields' : List String} (h : fields ∈ lines) (h' : fields' ∈ lines) :
    fields = fields'
      ∨ (isLowerSide (boundKind fields) = true ∧ isUpperSide (boundKind fields') = true)
      ∨ (isUpperSide (boundKind fields) = true ∧ isLowerSide (boundKind fields') = true) := by
  rcases once with hone | ⟨hsides, hlower, hupper⟩
  · exact .inl (eq_of_length_le_one hone h h')
  · -- two lines of one side are the same line
    have hsame : ∀ {side : List String → Bool}, lines.countP side ≤ 1 → side fields = true →
        side fields' = true → fields = fields' := by
      intro side hcount hside hside'
      rw [List.countP_eq_length_filter] at hcount
      exact eq_of_length_le_one hcount (List.mem_filter.mpr ⟨h, hside⟩)
        (List.mem_filter.mpr ⟨h', hside'⟩)
    rcases hsides fields h with hl | hu
    · rcases hsides fields' h' with hl' | hu'
      · exact .inl (hsame hlower hl hl')
      · exact .inr (.inl ⟨hl, hu'⟩)
    · rcases hsides fields' h' with hl' | hu'
      · exact .inr (.inr ⟨hu, hl'⟩)
      · exact .inl (hsame hupper hu hu')

section SameKind

variable {a b : Change α}

/-- Right-hand sides of different rows are apart. -/
theorem apart_of_rhsChanges
    (objective : ∀ row row', frame.rowKind? row = some .objective →
      frame.rowKind? row' = some .objective → row = row')
    {pair pair' : String × String} (different : pair = pair' ∨ pair.1 ≠ pair'.1)
    (makes : frame.rhsChange pair = .ok a) (makes' : frame.rhsChange pair' = .ok b) :
    a = b ∨ a.Apart b := by
  rcases different with rfl | hne
  · exact .inl (Except.ok.inj (makes.symm.trans makes'))
  obtain ⟨row, value, hrow, rfl⟩ := of_rhsChange makes
  obtain ⟨row', value', hrow', rfl⟩ := of_rhsChange makes'
  have hrows : row ≠ row' := by
    rintro rfl
    exact hne (name_of_findIdx? hrow hrow')
  refine .inr ?_
  split
  · rename_i hkind
    split
    · -- only one row is the objective
      rename_i hkind'
      exact hrows (objective row row' (beq_iff_eq.mp hkind) (beq_iff_eq.mp hkind'))
    · trivial
  · split
    · trivial
    · exact hrows

/-- Ranges of different rows are apart. -/
theorem apart_of_rangeChanges {pair pair' : String × String}
    (different : pair = pair' ∨ pair.1 ≠ pair'.1)
    (makes : frame.rangeChange pair = .ok a) (makes' : frame.rangeChange pair' = .ok b) :
    a = b ∨ a.Apart b := by
  rcases different with rfl | hne
  · exact .inl (Except.ok.inj (makes.symm.trans makes'))
  obtain ⟨row, value, hrow, rfl⟩ := of_rangeChange makes
  obtain ⟨row', value', hrow', rfl⟩ := of_rangeChange makes'
  refine .inr ?_
  rintro rfl
  exact hne (name_of_findIdx? hrow hrow')

/-- Bounds of different columns are apart, and so are those of different sides of one. -/
theorem apart_of_boundChanges
    (once : ∀ column ∈ frame.columns.map (·.name),
      OneASide (boundsOf (frame.columns.map (·.name)) column body))
    {fields fields' : List String} (there : fields ∈ entriesOf .bounds body)
    (there' : fields' ∈ entriesOf .bounds body) (makes : frame.boundChanges fields = .ok [a])
    (makes' : frame.boundChanges fields' = .ok [b]) : a = b ∨ a.Apart b := by
  obtain ⟨name, column, value, hname, hcolumn, rfl⟩ := of_boundChange makes
  obtain ⟨name', column', value', hname', hcolumn', rfl⟩ := of_boundChange makes'
  by_cases hsame : column = column'
  · -- two bounds of one column
    obtain rfl : name = name' := by
      rw [← hsame] at hcolumn'
      exact name_of_findIdx? hcolumn hcolumn'
    have hmem : name ∈ frame.columns.map (·.name) := by
      have hsome := isSome_columnIndex? frame name
      rw [hcolumn] at hsome
      simpa using hsome.symm
    have hthere : fields ∈ boundsOf (frame.columns.map (·.name)) name body :=
      List.mem_filter.mpr ⟨there, beq_iff_eq.mpr hname⟩
    have hthere' : fields' ∈ boundsOf (frame.columns.map (·.name)) name body :=
      List.mem_filter.mpr ⟨there', beq_iff_eq.mpr hname'⟩
    rcases sides_of_oneASide (once name hmem) hthere hthere' with rfl | hsides
    · have heq := Except.ok.inj (makes.symm.trans makes')
      exact .inl (List.singleton_inj.mp heq)
    · exact .inr (.inr hsides)
  · exact .inr (.inl hsame)

end SameKind

/-- **Changes of lines that may move** are apart, or the same. -/
theorem apart_of_sources (once : EachOnce (frame.columns.map (·.name)) body)
    (objective : ∀ row row', frame.rowKind? row = some .objective →
      frame.rowKind? row' = some .objective → row = row')
    {a b : Change α} (ha : Source frame body a) (hb : Source frame body b) :
    a = b ∨ a.Apart b := by
  -- changes of different kinds set different fields, whatever they are of
  cases ha with
  | rhs pair there makes =>
    cases hb with
    | rhs pair' there' makes' =>
      exact apart_of_rhsChanges objective (eq_or_name_ne once.rhs there there') makes makes'
    | range pair' there' makes' =>
      obtain ⟨row, value, -, rfl⟩ := of_rhsChange makes
      obtain ⟨row', value', -, rfl⟩ := of_rangeChange makes'
      refine .inr ?_
      split <;> trivial
    | bound fields there' makes' =>
      obtain ⟨row, value, -, rfl⟩ := of_rhsChange makes
      obtain ⟨name, column, value', -, -, rfl⟩ := of_boundChange makes'
      refine .inr ?_
      split <;> trivial
  | range pair there makes =>
    cases hb with
    | rhs pair' there' makes' =>
      obtain ⟨row, value, -, rfl⟩ := of_rangeChange makes
      obtain ⟨row', value', -, rfl⟩ := of_rhsChange makes'
      refine .inr ?_
      split <;> trivial
    | range pair' there' makes' =>
      exact apart_of_rangeChanges (eq_or_name_ne once.ranges there there') makes makes'
    | bound fields there' makes' =>
      obtain ⟨row, value, -, rfl⟩ := of_rangeChange makes
      obtain ⟨name, column, value', -, -, rfl⟩ := of_boundChange makes'
      exact .inr trivial
  | bound fields there makes =>
    cases hb with
    | rhs pair' there' makes' =>
      obtain ⟨name, column, value, -, -, rfl⟩ := of_boundChange makes
      obtain ⟨row', value', -, rfl⟩ := of_rhsChange makes'
      refine .inr ?_
      split <;> trivial
    | range pair' there' makes' =>
      obtain ⟨name, column, value, -, -, rfl⟩ := of_boundChange makes
      obtain ⟨row', value', -, rfl⟩ := of_rangeChange makes'
      exact .inr trivial
    | bound fields' there' makes' =>
      exact apart_of_boundChanges once.bounds there there' makes makes'

/-- The title and the sense are apart from everything that may move. -/
theorem apart_of_kept {a b : Change α} (ha : Source frame body a)
    (hb : (∃ name, b = .title name) ∨ ∃ sense, b = .sense sense) : a.Apart b := by
  cases ha with
  | rhs pair there makes =>
    obtain ⟨row, value, -, rfl⟩ := of_rhsChange makes
    rcases hb with ⟨name, rfl⟩ | ⟨sense, rfl⟩ <;> split <;> trivial
  | range pair there makes =>
    obtain ⟨row, value, -, rfl⟩ := of_rangeChange makes
    rcases hb with ⟨name, rfl⟩ | ⟨sense, rfl⟩ <;> trivial
  | bound fields there makes =>
    obtain ⟨name, column, value, -, -, rfl⟩ := of_boundChange makes
    rcases hb with ⟨name, rfl⟩ | ⟨sense, rfl⟩ <;> trivial

/-- **A body in another order** is read to the same draft. -/
theorem body_rearranged {p q : Progress α} {body body' : List Passage} (h : p.part ≠ .ended)
    (once : EachOnce (p.draft.columns.map (·.name)) body)
    (objective : ∀ row row', p.draft.rowKind? row = some .objective →
      p.draft.rowKind? row' = some .objective → row = row')
    (rearranged : Rearranged body body')
    (hread : (body.flatMap Passage.lines).foldlM Progress.advance p = .ok q) :
    ∃ q', (body'.flatMap Passage.lines).foldlM Progress.advance p = .ok q'
      ∧ q'.draft = q.draft := by
  have hready : p.Ready p.draft := ⟨h, .refl p.draft⟩
  obtain ⟨hreadable, rfl⟩ := (Progress.body_eq_ok_iff hready).mp hread
  have hperm := rearranged.placed_perm
  have hreadable' : ∀ l ∈ body'.flatMap Passage.placed, p.draft.Readable l :=
    fun l hl => hreadable l (hperm.mem_iff.mpr hl)
  refine ⟨_, (Progress.body_eq_ok_iff hready).mpr ⟨hreadable', rfl⟩, ?_⟩
  refine (foldl_rearranged hperm rearranged.placed_kept (fun l hl k hk hmoves a ha b hb => ?_)
    p.draft).symm
  have hsource := source_of_made hl hmoves ha
  cases hkept : k.1.moves with
  | true => exact apart_of_sources once objective hsource (source_of_made hk hkept hb)
  | false => exact .inr (apart_of_kept hsource (made_of_kept hkept hb))

end Draft

/-! ## Texts -/

/-- The parts of what a text says: anything, then sections that leave rows and columns as
they are, and then the end of the data or nothing. -/
structure Parts (text : String) (head : List Line) (body : List Passage) (tail : List Line) :
    Prop where
  lines : said text = head ++ body.flatMap Passage.lines ++ tail
  ended : ∀ l ∈ tail.head?, ∃ fields, l = .header ("ENDATA" :: fields)

/-- Where the data end, the draft is what it was. -/
theorem tail_eq {tail : List Line}
    (ended : ∀ l ∈ tail.head?, ∃ fields, l = .header ("ENDATA" :: fields)) (p : Progress α) :
    ∃ q, tail.foldlM Progress.advance p = .ok q ∧ q.draft = p.draft := by
  by_cases hended : p.part = .ended
  · exact ⟨p, Progress.foldlM_advance_ended hended tail, rfl⟩
  · cases tail with
    | nil => exact ⟨p, rfl, rfl⟩
    | cons l tail =>
      obtain ⟨fields, rfl⟩ := ended l rfl
      refine ⟨⟨.ended, p.draft⟩, ?_, rfl⟩
      rw [List.foldlM_cons, Progress.advance, Progress.step, if_neg hended]
      exact Progress.foldlM_advance_ended rfl tail

/-- What has been read of the first lines of a text is in order. -/
theorem inOrder_of_head {text : String} {head rest : List Line} (h : said text = head ++ rest)
    {p : Progress α} (hread : head.foldlM Progress.advance .start = .ok p) :
    ∃ s : Indexed α, s.toDraft = p.draft ∧ s.InOrder := by
  have hlines : ((numberedLines text).take head.length).map Prod.snd = head := by
    rw [List.map_take, map_snd_numberedLines, h, List.take_left']
    rfl
  rw [← hlines, ← Progress.foldlM_step_eq_ok_iff] at hread
  obtain ⟨outcome, s, -, horder, hdraft⟩ := agrees_lines (α := α)
    (List.take_prefix head.length (numberedLines text))
  have hreader := Progress.readLines_eq (p := (.start : Progress α)) nofun
    ((numberedLines text).take head.length)
  rw [hread] at hreader
  have hkept : outcome.map (fun _ => s.toDraft) = .ok p.draft := hdraft.symm.trans hreader
  obtain ⟨part, -, hsame⟩ := Attempt.map_eq_ok_iff.mp hkept
  exact ⟨s, hsame, horder⟩

/-- The variables of a model that was read have the names of the columns. -/
theorem names_of_toModel {d : Draft α} {id : ModelId} {m : Model α} (h : d.toModel id = .ok m) :
    m.vars.map (·.name) = d.columns.map (·.name) := by
  have hrows : (d.rows.flatMap (Draft.rowSteps id)).filterMap BuildStep.newVariable? = [] := by
    rw [List.filterMap_eq_nil_iff]
    intro step hstep
    obtain ⟨r, -, hstep⟩ := List.mem_flatMap.mp hstep
    obtain ⟨name, relation, rhs, rfl⟩ := Draft.mem_rowSteps hstep
    rfl
  have hcolumns : ((d.columns.map fun c =>
      BuildStep.declare c.name c.kind ⟨c.lower, c.upper⟩).filterMap
        BuildStep.newVariable?).map (·.name) = d.columns.map (·.name) := by
    rw [List.filterMap_map, List.map_filterMap]
    exact congrFun (List.filterMap_eq_map (f := fun c : ColumnDraft α => c.name)) d.columns
  rw [(Model.build_history h).1, Model.declared, Draft.steps, List.filterMap_append,
    List.filterMap_append, hrows, List.append_nil, List.map_append, hcolumns]
  exact List.append_nil _

/-- **The order of right-hand sides, ranges and bounds does not matter** for a text that is
accepted. Where they set everything once, a text that has them in another order is accepted
too, and the model is the same, up to the identity that it gets. -/
theorem read_rearranged {text text' : String} {head tail : List Line} {body body' : List Passage}
    (parts : Parts text head body tail) (parts' : Parts text' head body' tail)
    (rearranged : Rearranged body body') {id : ModelId} {m : Model α}
    (accepted : Mps.read id text = .ok m) (once : EachOnce (m.vars.map (·.name)) body)
    (id' : ModelId) : Mps.read id' text' = .ok (m.renamed fun _ => id') := by
  obtain ⟨d, hread, hmade⟩ := Attempt.bind_eq_ok_iff.mp accepted
  obtain ⟨q, hrun, rfl⟩ := Draft.ofText_eq_ok_iff.mp hread
  rw [parts.lines, List.foldlM_append, List.foldlM_append] at hrun
  obtain ⟨p₁, hrun, htail⟩ := Attempt.bind_eq_ok_iff.mp hrun
  obtain ⟨p₀, hhead, hbody⟩ := Attempt.bind_eq_ok_iff.mp hrun
  -- the tail leaves the draft as it is, in both texts
  have hsame : q.draft = p₁.draft := by
    obtain ⟨q', hq', hdraft⟩ := tail_eq parts.ended p₁
    rw [htail] at hq'
    rw [Except.ok.inj hq', hdraft]
  have hbody' : ∃ p₁', (body'.flatMap Passage.lines).foldlM Progress.advance p₀ = .ok p₁'
      ∧ p₁'.draft = p₁.draft := by
    by_cases hended : p₀.part = .ended
    · rw [Progress.foldlM_advance_ended hended] at hbody
      obtain rfl := Except.ok.inj hbody
      exact ⟨p₀, Progress.foldlM_advance_ended hended _, rfl⟩
    · have hframe : Draft.SameFrame p₁.draft p₀.draft := by
        rw [((Progress.body_eq_ok_iff ⟨hended, .refl p₀.draft⟩).mp hbody).2]
        exact Draft.SameFrame.applyEach (.refl p₀.draft) _
      have hnames : m.vars.map (·.name) = p₀.draft.columns.map (·.name) := by
        rw [names_of_toModel hmade, hsame, hframe.columns]
      have hlines : said text = head ++ (body.flatMap Passage.lines ++ tail) := by
        rw [parts.lines, List.append_assoc]
      obtain ⟨s, hs, horder⟩ := inOrder_of_head hlines hhead
      rw [hnames] at once
      refine Draft.body_rearranged hended once (fun row row' hrow hrow' => ?_) rearranged hbody
      rw [← hs] at hrow hrow'
      exact horder.objective_unique hrow hrow'
  obtain ⟨p₁', hbody', hdraft⟩ := hbody'
  obtain ⟨q', htail', hdraft'⟩ := tail_eq parts'.ended p₁'
  have hread' : Draft.ofText text' = .ok q.draft := by
    refine Draft.ofText_eq_ok_iff.mpr ⟨q', ?_, by rw [hdraft', hdraft, hsame]⟩
    rw [parts'.lines, List.foldlM_append, List.foldlM_append, hhead]
    exact Attempt.bind_eq_ok_iff.mpr ⟨p₁', hbody', htail'⟩
  rw [Mps.read, hread']
  exact Draft.toModel_renamed hmade id'

/-! ### A right-hand side, a range and two bounds the other way round -/

def orderedText : String :=
  "ROWS\n N c\n L w\nCOLUMNS\n x w 1\nRHS\n c 5\n w 4\nRANGES\n w 3\nBOUNDS\n LO x -3\n UP x -1"

def rearrangedText : String :=
  "ROWS\n N c\n L w\nCOLUMNS\n x w 1\nBOUNDS\n UP x -1\n LO x -3\nRANGES\n w 3\nRHS\n w 4\n c 5"

def frameLines : List Line :=
  [.header ["ROWS"], .data ["N", "c"], .data ["L", "w"], .header ["COLUMNS"], .data ["x", "w", "1"]]

def orderedPassages : List Passage :=
  [⟨.rhs, [], [["c", "5"], ["w", "4"]]⟩, ⟨.ranges, [], [["w", "3"]]⟩,
    ⟨.bounds, [], [["LO", "x", "-3"], ["UP", "x", "-1"]]⟩]

def rearrangedPassages : List Passage :=
  [⟨.bounds, [], [["UP", "x", "-1"], ["LO", "x", "-3"]]⟩, ⟨.ranges, [], [["w", "3"]]⟩,
    ⟨.rhs, [], [["w", "4"], ["c", "5"]]⟩]

theorem rearranged_orderedPassages : Rearranged orderedPassages rearrangedPassages := by
  have hrhs : Shuffled ⟨.rhs, [], [["c", "5"], ["w", "4"]]⟩
      ⟨.rhs, [], [["w", "4"], ["c", "5"]]⟩ := ⟨rfl, rfl, .swap _ _ _, nofun⟩
  have hranges : Shuffled ⟨.ranges, [], [["w", "3"]]⟩ ⟨.ranges, [], [["w", "3"]]⟩ :=
    ⟨rfl, rfl, .refl _, nofun⟩
  have hbounds : Shuffled ⟨.bounds, [], [["LO", "x", "-3"], ["UP", "x", "-1"]]⟩
      ⟨.bounds, [], [["UP", "x", "-1"], ["LO", "x", "-3"]]⟩ := ⟨rfl, rfl, .swap _ _ _, nofun⟩
  exact ⟨_, .cons hrhs (.cons hranges (.cons hbounds .nil)), (List.reverse_perm _).symm, rfl⟩

theorem eachOnce_orderedPassages : EachOnce ["x"] orderedPassages where
  rhs := by decide
  ranges := by decide
  bounds column hcolumn := by
    obtain rfl := List.mem_singleton.mp hcolumn
    have hlines : boundsOf ["x"] "x" orderedPassages = [["LO", "x", "-3"], ["UP", "x", "-1"]] := by
      with_unfolding_all rfl
    have hlower : isLowerSide (boundKind ["LO", "x", "-3"]) = true := by with_unfolding_all rfl
    have hupper : isUpperSide (boundKind ["UP", "x", "-1"]) = true := by with_unfolding_all rfl
    rw [hlines]
    refine .inr ⟨?_, ?_, ?_⟩
    · exact List.forall_mem_cons.mpr ⟨.inl hlower, List.forall_mem_singleton.mpr (.inr hupper)⟩
    · exact Nat.le_of_eq (by with_unfolding_all rfl)
    · exact Nat.le_of_eq (by with_unfolding_all rfl)

/-- The row with a range stands in the model as two constraints. -/
def rangedModel (id : ModelId) : Model ExtRat where
  id := id
  name := ""
  vars := [⟨"x", .continuous, ⟨.fin (-3), .fin (-1)⟩⟩]
  constraints := [⟨"w_lo", [(⟨id, 0⟩, .fin 1)], .atLeast, .fin 1⟩,
    ⟨"w_hi", [(⟨id, 0⟩, .fin 1)], .atMost, .fin 4⟩]
  objective := ⟨.minimize, [], .fin (-5)⟩

/-- The lower bound is read after a negative upper one, and the range before the right-hand
side it goes with. -/
theorem read_rearranged_range :
    Mps.read ⟨1⟩ orderedText = .ok (rangedModel ⟨1⟩)
      ∧ Mps.read ⟨2⟩ rearrangedText = .ok (rangedModel ⟨2⟩) := by
  have hparts : Parts orderedText frameLines orderedPassages [] :=
    ⟨by with_unfolding_all rfl, nofun⟩
  have hparts' : Parts rearrangedText frameLines rearrangedPassages [] :=
    ⟨by with_unfolding_all rfl, nofun⟩
  have hread : Mps.read ⟨1⟩ orderedText = .ok (rangedModel ⟨1⟩) := by with_unfolding_all rfl
  exact ⟨hread, read_rearranged hparts hparts' rearranged_orderedPassages hread
    eachOnce_orderedPassages ⟨2⟩⟩

end Milp.Mps
