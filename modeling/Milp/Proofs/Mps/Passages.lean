/-
The sections behind rows and columns, line by line.

Such a section is a header and the lines of data after it (`Passage`). What one of its lines
does to a draft is a list of changes, and these depend on nothing but the line and the
*frame* of the draft: the names and kinds of the rows and the names of the columns. No line
of these sections touches the frame. So every line can be read against the draft with which
the first of them is met, and a whole stretch of sections is read exactly if each of its
lines is, to the changes of all of them in their order (`body_eq_ok_iff`).
-/
import Milp.Proofs.Mps.Changes
import Milp.Proofs.Mps.Steps
import Milp.Proofs.Mps.Tables

set_option autoImplicit false

namespace Milp.Mps

open Attempt (map_eq_ok_iff foldlM_eq_mapM)

/-! ## Passages -/

/-- The sections that leave rows and columns as they are. -/
inductive PassageKind where
  | title
  | sense
  | rhs
  | ranges
  | bounds
deriving DecidableEq

namespace PassageKind

def word : PassageKind → String
  | title => "NAME"
  | sense => "OBJSENSE"
  | rhs => "RHS"
  | ranges => "RANGES"
  | bounds => "BOUNDS"

/-- Where the lines after the header belong. -/
def part : PassageKind → Section
  | title => .start
  | sense => .objectiveSense
  | rhs => .rhs
  | ranges => .ranges
  | bounds => .bounds

/-- Whether the section and its lines may take another place. -/
def moves : PassageKind → Bool
  | title | sense => false
  | rhs | ranges | bounds => true

end PassageKind

/-- A section: the fields behind the first of its header, and its lines of data. -/
structure Passage where
  kind : PassageKind
  rest : List String
  entries : List (List String)
deriving DecidableEq

/-- A line of a passage, with what passage it is. -/
def Passage.placed (b : Passage) : List (PassageKind × Line) :=
  (b.kind, .header (b.kind.word :: b.rest)) :: b.entries.map fun fields => (b.kind, .data fields)

def Passage.lines (b : Passage) : List Line := b.placed.map Prod.snd

variable {α : Type} [Number α]

/-! ## Frames -/

namespace Draft

/-- The same rows and columns, whatever is said of them. -/
structure SameFrame (d frame : Draft α) : Prop where
  rows : (d.rows.map fun r => (r.name, r.kind)) = frame.rows.map fun r => (r.name, r.kind)
  columns : d.columns.map (·.name) = frame.columns.map (·.name)

variable {d frame : Draft α}

omit [Number α] in
theorem SameFrame.refl (d : Draft α) : SameFrame d d := ⟨rfl, rfl⟩

omit [Number α] in
theorem SameFrame.rowIndex? (h : SameFrame d frame) (name : String) :
    d.rowIndex? name = frame.rowIndex? name := by
  have hfind := congrArg (List.findIdx? fun r : String × RowKind => r.1 == name) h.rows
  rw [List.findIdx?_map, List.findIdx?_map] at hfind
  exact hfind

omit [Number α] in
theorem SameFrame.columnIndex? (h : SameFrame d frame) (name : String) :
    d.columnIndex? name = frame.columnIndex? name := by
  have hfind := congrArg (List.findIdx? fun c : String => c == name) h.columns
  rw [List.findIdx?_map, List.findIdx?_map] at hfind
  exact hfind

omit [Number α] in
theorem SameFrame.rowKind? (h : SameFrame d frame) (row : Nat) :
    d.rowKind? row = frame.rowKind? row := by
  have hget := congrArg (fun rows => (rows[row]?).map Prod.snd) h.rows
  simp only [List.getElem?_map, Option.map_map] at hget
  exact hget

omit [Number α] in
theorem SameFrame.readRow (h : SameFrame d frame) (line : Nat) (name : String) :
    d.readRow line name = frame.readRow line name := by
  rw [Draft.readRow, Draft.readRow, h.rowIndex?]

omit [Number α] in
theorem SameFrame.readColumn (h : SameFrame d frame) (line : Nat) (name : String) :
    d.readColumn line name = frame.readColumn line name := by
  rw [Draft.readColumn, Draft.readColumn, h.columnIndex?]

theorem SameFrame.boundFields (h : SameFrame d frame) (line : Nat) (kind : String)
    (fields : List String) :
    d.boundFields line kind fields = frame.boundFields line kind fields := by
  unfold Draft.boundFields
  simp only [h.columnIndex?]

/-- **No change touches the frame.** -/
theorem SameFrame.apply (h : SameFrame d frame) (c : Change α) :
    SameFrame (d.apply c) frame := by
  have hrows : ∀ (row : Nat) {f : RowDraft α → RowDraft α},
      (∀ r, ((f r).name, (f r).kind) = (r.name, r.kind)) → SameFrame (d.modifyRow row f) frame :=
    fun row f keeps => ⟨(map_modify_of_keeps keeps d.rows row).trans h.rows, h.columns⟩
  cases c with
  | rhs row value => exact hrows row fun _ => rfl
  | range row value => exact hrows row fun _ => rfl
  | bound column kind value =>
    have keeps : ∀ c : ColumnDraft α, (boundChange kind value c).name = c.name := by
      intro c
      rw [boundChange]
      cases hchange : boundChange? kind value with
      | none => rfl
      | some change => exact name_of_boundChange? hchange c
    exact ⟨h.rows, (map_modify_of_keeps keeps d.columns column).trans h.columns⟩
  | _ => exact ⟨h.rows, h.columns⟩

theorem SameFrame.applyEach (h : SameFrame d frame) (changes : List (Change α)) :
    SameFrame (d.applyEach changes) frame := by
  induction changes generalizing d with
  | nil => exact h
  | cons c changes ih => exact ih (h.apply c)

/-! ## What a line changes -/

/-- The change that a right-hand side makes. -/
def rhsChange (frame : Draft α) (pair : String × String) : Except (Fault α) (Change α) := do
  let row ← frame.readRow 0 pair.1
  let value ← readNumber 0 pair.2
  pure (if frame.rowKind? row == some .objective then .constant value else .rhs row value)

/-- The change that a range makes. -/
def rangeChange (frame : Draft α) (pair : String × String) : Except (Fault α) (Change α) := do
  let row ← frame.readRow 0 pair.1
  let value ← readNumber 0 pair.2
  match frame.rowKind? row with
  | some (.constraint _) => pure (.range row value)
  | _ => refuse 0 ("range on free row '" ++ pair.1 ++ "'")

/-- The change that a bound makes. -/
def boundChanges (frame : Draft α) (fields : List String) :
    Except (Fault α) (List (Change α)) :=
  match fields with
  | [] => .ok []
  | field :: rest => do
    let kind := upperCase field
    let (name, value) ← frame.boundFields 0 kind rest
    let column ← frame.readColumn 0 name
    match boundChange? kind value with
    | some _ => pure [.bound column kind value]
    | none => refuse 0 ("unknown bound type '" ++ kind ++ "'")

/-- The changes that a line of a passage makes. -/
def changes (frame : Draft α) : PassageKind × Line → Except (Fault α) (List (Change α))
  | (.title, .header fields) => .ok [.title (" ".intercalate fields.tail)]
  | (.sense, .header (_ :: word :: _)) => (readSense 0 word).map fun sense => [.sense sense]
  | (_, .header _) => .ok []
  | (.title, .data _) => refuse 0 "data line before any section"
  | (.sense, .data fields) => (readSense 0 (fields.headD "")).map fun sense => [.sense sense]
  | (.rhs, .data fields) => do (← pairs 0 "RHS" fields).mapM frame.rhsChange
  | (.ranges, .data fields) => do (← pairs 0 "RANGES" fields).mapM frame.rangeChange
  | (.bounds, .data fields) => frame.boundChanges fields

theorem rhsPair_eq (h : SameFrame d frame) (pair : String × String) :
    d.rhsPair 0 pair = (frame.rhsChange pair).map d.apply := by
  rw [rhsPair, rhsChange, h.readRow]
  cases frame.readRow 0 pair.1 with
  | error fault => rfl
  | ok row =>
    show (readNumber 0 pair.2 >>= fun value => pure (d.setRhs row value))
      = (readNumber 0 pair.2 >>= fun value =>
          pure (if frame.rowKind? row == some .objective then .constant value
            else .rhs row value)).map d.apply
    cases (readNumber 0 pair.2 : Except (Fault α) α) with
    | error fault => rfl
    | ok value =>
      show Except.ok (d.setRhs row value) = Except.ok (d.apply _)
      rw [setRhs, h.rowKind?]
      split <;> rfl

theorem rangePair_eq (h : SameFrame d frame) (pair : String × String) :
    d.rangePair 0 pair = (frame.rangeChange pair).map d.apply := by
  simp only [rangePair, rangeChange, h.readRow, h.rowKind?, bind, Except.bind]
  cases frame.readRow 0 pair.1 with
  | error fault => rfl
  | ok row =>
    cases (readNumber 0 pair.2 : Except (Fault α) α) with
    | error fault => rfl
    | ok value =>
      dsimp only
      cases frame.rowKind? row with
      | none => rfl
      | some kind => cases kind <;> rfl

theorem boundLine_eq (h : SameFrame d frame) (fields : List String) :
    d.boundLine 0 fields = (frame.boundChanges fields).map d.applyEach := by
  cases fields with
  | nil => rfl
  | cons field rest =>
    simp only [boundLine, boundChanges, h.boundFields, h.readColumn, bind, Except.bind]
    cases frame.boundFields 0 (upperCase field) rest with
    | error fault => rfl
    | ok target =>
      dsimp only
      cases frame.readColumn 0 target.1 with
      | error fault => rfl
      | ok column =>
        dsimp only
        cases hchange : boundChange? (upperCase field) target.2 with
        | none => rfl
        | some change =>
          have hsame : boundChange (upperCase field) target.2 = change := by
            rw [boundChange, hchange]
            rfl
          show Except.ok (d.modifyColumn column change)
            = Except.ok (d.modifyColumn column (boundChange (upperCase field) target.2))
          rw [hsame]

/-- **A line of data makes its changes.** -/
theorem dataLine_eq (h : SameFrame d frame) (kind : PassageKind) (fields : List String) :
    d.dataLine kind.part 0 fields = (frame.changes (kind, .data fields)).map d.applyEach := by
  cases kind with
  | title => rfl
  | sense =>
    show (readSense 0 (fields.headD "")).map _ = ((readSense 0 (fields.headD "")).map _).map _
    cases (readSense 0 (fields.headD "") : Except (Fault α) Sense) <;> rfl
  | rhs =>
    show d.rhsLine 0 fields = (pairs 0 "RHS" fields >>= fun entries => _).map _
    rw [rhsLine]
    cases (pairs 0 "RHS" fields : Except (Fault α) _) with
    | error fault => rfl
    | ok entries =>
      exact foldlM_eq_mapM (P := fun d => SameFrame d frame)
        (fun _ pair hd => rhsPair_eq hd pair) (fun _ c hd => hd.apply c)
        entries h
  | ranges =>
    show d.rangeLine 0 fields = (pairs 0 "RANGES" fields >>= fun entries => _).map _
    rw [rangeLine]
    cases (pairs 0 "RANGES" fields : Except (Fault α) _) with
    | error fault => rfl
    | ok entries =>
      exact foldlM_eq_mapM (P := fun d => SameFrame d frame)
        (fun _ pair hd => rangePair_eq hd pair) (fun _ c hd => hd.apply c)
        entries h
  | bounds => exact boundLine_eq h fields

/-- **A header makes its changes**, and opens its section. -/
theorem header_eq (d frame : Draft α) (kind : PassageKind) (rest : List String) :
    d.header 0 (kind.word :: rest)
      = (frame.changes (kind, .header (kind.word :: rest))).map fun changes =>
          (kind.part, d.applyEach changes) := by
  cases kind with
  | sense =>
    cases rest with
    | nil => rfl
    | cons word rest =>
      show (readSense 0 word).map _ = ((readSense 0 word).map _).map _
      cases (readSense 0 word : Except (Fault α) Sense) <;> rfl
  | _ => rfl

/-! ## Reading passages -/

/-- Whether a line can be read. -/
def Readable (frame : Draft α) (l : PassageKind × Line) : Prop :=
  ∃ changes, frame.changes l = .ok changes

/-- The changes of a line that can be read. -/
def made (frame : Draft α) (l : PassageKind × Line) : List (Change α) :=
  (frame.changes l).toOption.getD []

theorem changes_eq_ok_iff {l : PassageKind × Line} {cs : List (Change α)} :
    frame.changes l = .ok cs ↔ frame.Readable l ∧ cs = frame.made l := by
  rw [Readable, made]
  cases frame.changes l with
  | error fault => exact iff_of_false nofun fun h => nomatch h.1
  | ok read =>
    constructor
    · intro h
      exact ⟨⟨read, rfl⟩, (Except.ok.inj h).symm⟩
    · rintro ⟨-, rfl⟩
      rfl

end Draft

theorem Draft.applyEach_append (d : Draft α) (first second : List (Change α)) :
    d.applyEach (first ++ second) = (d.applyEach first).applyEach second :=
  List.foldl_append

namespace Progress

/-- Where a passage may start: the data have not ended, and the frame is known. -/
structure Ready (frame : Draft α) (p : Progress α) : Prop where
  goesOn : p.part ≠ .ended
  frame : p.draft.SameFrame frame

variable {p q : Progress α} {frame : Draft α}

theorem Ready.applyEach (h : p.Ready frame) (kind : PassageKind) (changes : List (Change α)) :
    (⟨kind.part, p.draft.applyEach changes⟩ : Progress α).Ready frame := by
  refine ⟨?_, h.frame.applyEach changes⟩
  cases kind <;> nofun

theorem advance_header (h : p.Ready frame) {kind : PassageKind} {rest : List String} :
    p.advance (.header (kind.word :: rest)) = .ok q
      ↔ frame.Readable (kind, .header (kind.word :: rest))
        ∧ q = ⟨kind.part, p.draft.applyEach (frame.made (kind, .header (kind.word :: rest)))⟩ := by
  rw [advance, step, if_neg h.goesOn]
  show (p.draft.header 0 (kind.word :: rest)).map _ = _ ↔ _
  rw [Draft.header_eq p.draft frame, map_eq_ok_iff]
  constructor
  · rintro ⟨read, hread, rfl⟩
    obtain ⟨changes, hchanges, rfl⟩ := map_eq_ok_iff.mp hread
    obtain ⟨hreadable, rfl⟩ := Draft.changes_eq_ok_iff.mp hchanges
    exact ⟨hreadable, rfl⟩
  · rintro ⟨hreadable, rfl⟩
    have hchanges := Draft.changes_eq_ok_iff.mpr ⟨hreadable, rfl⟩
    exact ⟨_, map_eq_ok_iff.mpr ⟨_, hchanges, rfl⟩, rfl⟩

theorem advance_data (h : p.Ready frame) {kind : PassageKind} (part : p.part = kind.part)
    {fields : List String} :
    p.advance (.data fields) = .ok q
      ↔ frame.Readable (kind, .data fields)
        ∧ q = ⟨kind.part, p.draft.applyEach (frame.made (kind, .data fields))⟩ := by
  rw [advance, step, if_neg h.goesOn]
  show (p.draft.dataLine p.part 0 fields).map _ = _ ↔ _
  rw [part, Draft.dataLine_eq h.frame, map_eq_ok_iff]
  constructor
  · rintro ⟨d, hd, rfl⟩
    obtain ⟨changes, hchanges, rfl⟩ := map_eq_ok_iff.mp hd
    obtain ⟨hreadable, rfl⟩ := Draft.changes_eq_ok_iff.mp hchanges
    exact ⟨hreadable, rfl⟩
  · rintro ⟨hreadable, rfl⟩
    have hchanges := Draft.changes_eq_ok_iff.mpr ⟨hreadable, rfl⟩
    exact ⟨_, map_eq_ok_iff.mpr ⟨_, hchanges, rfl⟩, rfl⟩

/-- The lines of data of a passage. -/
theorem entries_eq_ok_iff (h : p.Ready frame) {kind : PassageKind} (part : p.part = kind.part)
    {entries : List (List String)} :
    (entries.map Line.data).foldlM advance p = .ok q
      ↔ (∀ fields ∈ entries, frame.Readable (kind, .data fields))
        ∧ q = ⟨kind.part,
            p.draft.applyEach (entries.flatMap fun fields => frame.made (kind, .data fields))⟩ := by
  induction entries generalizing p with
  | nil =>
    rw [← part]
    constructor
    · intro hq
      exact ⟨List.forall_mem_nil _, (Except.ok.inj hq).symm⟩
    · rintro ⟨-, rfl⟩
      rfl
  | cons fields entries ih =>
    rw [List.map_cons, List.foldlM_cons, Attempt.bind_eq_ok_iff, List.forall_mem_cons,
      List.flatMap_cons, Draft.applyEach_append]
    constructor
    · rintro ⟨next, hnext, hrest⟩
      obtain ⟨hreadable, rfl⟩ := (advance_data h part).mp hnext
      obtain ⟨hentries, rfl⟩ := (ih (h.applyEach kind _) rfl).mp hrest
      exact ⟨⟨hreadable, hentries⟩, rfl⟩
    · rintro ⟨⟨hreadable, hentries⟩, rfl⟩
      exact ⟨_, (advance_data h part).mpr ⟨hreadable, rfl⟩,
        (ih (h.applyEach kind _) rfl).mpr ⟨hentries, rfl⟩⟩

/-- **A passage** is read if each of its lines is, to the changes of all of them. -/
theorem passage_eq_ok_iff (h : p.Ready frame) {b : Passage} :
    b.lines.foldlM advance p = .ok q
      ↔ (∀ l ∈ b.placed, frame.Readable l)
        ∧ q = ⟨b.kind.part, p.draft.applyEach (b.placed.flatMap frame.made)⟩ := by
  have hlines : b.lines = .header (b.kind.word :: b.rest) :: b.entries.map Line.data := by
    rw [Passage.lines, Passage.placed, List.map_cons, List.map_map]
    rfl
  have hmade : b.placed.flatMap frame.made
      = frame.made (b.kind, .header (b.kind.word :: b.rest))
        ++ b.entries.flatMap fun fields => frame.made (b.kind, .data fields) := by
    rw [Passage.placed, List.flatMap_cons, List.flatMap_map]
  rw [hlines, List.foldlM_cons, Attempt.bind_eq_ok_iff, Passage.placed, List.forall_mem_cons,
    List.forall_mem_map, ← Passage.placed, hmade, Draft.applyEach_append]
  constructor
  · rintro ⟨next, hnext, hrest⟩
    obtain ⟨hreadable, rfl⟩ := (advance_header h).mp hnext
    obtain ⟨hentries, rfl⟩ := (entries_eq_ok_iff (h.applyEach b.kind _) rfl).mp hrest
    exact ⟨⟨hreadable, hentries⟩, rfl⟩
  · rintro ⟨⟨hreadable, hentries⟩, rfl⟩
    exact ⟨_, (advance_header h).mpr ⟨hreadable, rfl⟩,
      (entries_eq_ok_iff (h.applyEach b.kind _) rfl).mpr ⟨hentries, rfl⟩⟩

/-- **Passages one after the other** are read if each of their lines is, to the changes of all
of them; the last passage says where the next line belongs. -/
theorem body_eq_ok_iff (h : p.Ready frame) {body : List Passage} :
    (body.flatMap Passage.lines).foldlM advance p = .ok q
      ↔ (∀ l ∈ body.flatMap Passage.placed, frame.Readable l)
        ∧ q = ⟨body.foldl (fun _ b => b.kind.part) p.part,
            p.draft.applyEach ((body.flatMap Passage.placed).flatMap frame.made)⟩ := by
  induction body generalizing p with
  | nil =>
    constructor
    · intro hq
      exact ⟨List.forall_mem_nil _, (Except.ok.inj hq).symm⟩
    · rintro ⟨-, rfl⟩
      rfl
  | cons b body ih =>
    rw [List.flatMap_cons, List.flatMap_cons, List.foldlM_append, Attempt.bind_eq_ok_iff,
      List.forall_mem_append, List.flatMap_append, Draft.applyEach_append]
    constructor
    · rintro ⟨next, hnext, hrest⟩
      obtain ⟨hpassage, rfl⟩ := (passage_eq_ok_iff h).mp hnext
      obtain ⟨hbody, rfl⟩ := (ih (h.applyEach b.kind _)).mp hrest
      exact ⟨⟨hpassage, hbody⟩, rfl⟩
    · rintro ⟨⟨hpassage, hbody⟩, rfl⟩
      exact ⟨_, (passage_eq_ok_iff h).mpr ⟨hpassage, rfl⟩,
        (ih (h.applyEach b.kind _)).mpr ⟨hbody, rfl⟩⟩

end Progress

end Milp.Mps
