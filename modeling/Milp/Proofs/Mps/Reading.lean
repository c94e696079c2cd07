/-
The reader reads what a text says.

The text of a document is read line by line, and each line that is written leads from the
draft of a content to that of the content with what the line says
(`Milp.Proofs.Mps.Drafting`). `Leads` says this of lines in a row, whatever their numbers
and whatever follows them; it is put together along the sections, by induction over the
lines of each, for all that has been read before.

The main statement is `read_text`: a proper document is read, and the model is the one that
its content describes. It holds over every carrier on which finite numbers combine to
numbers.
-/
import Milp.Proofs.Mps.Document
import Milp.Proofs.Mps.Drafting

set_option autoImplicit false

namespace Milp.Mps

open Number (Finitary)

variable {α : Type} [Number α]

/-! ## Lines in a row -/

/-- Reading lines leads from one draft and section to others, wherever the lines stand and
whatever comes after. -/
def Leads (d : Draft α) (part : Section) (lines : List WordLine) (d' : Draft α)
    (part' : Section) : Prop :=
  ∀ numbered rest, numbered.map Prod.snd = lines.map (·.line) →
    Draft.readLines d part (numbered ++ rest) = Draft.readLines d' part' rest

namespace Leads

variable {d d' d'' : Draft α} {part part' part'' : Section}

theorem nil (d : Draft α) (part : Section) : Leads d part [] d part := by
  intro numbered rest h
  rw [List.map_eq_nil_iff.mp h, List.nil_append]

theorem append {lines more : List WordLine} (first : Leads d part lines d' part')
    (second : Leads d' part' more d'' part'') : Leads d part (lines ++ more) d'' part'' := by
  intro numbered rest h
  rw [List.map_append] at h
  obtain ⟨before, after, rfl, hbefore, hafter⟩ := List.map_eq_append_iff.mp h
  rw [List.append_assoc, first before _ hbefore, second after rest hafter]

theorem header {first : Word} {fields : List Word} {visible : first.text.toList.head? ≠ some '*'}
    (h : ∀ line, d.header line ((first :: fields).map (·.text)) = .ok (part', d'))
    (goesOn : part' ≠ .ended) : Leads d part [.header first fields visible] d' part' := by
  intro numbered rest hlines
  obtain ⟨⟨line, l⟩, rest', rfl, hl, hnil⟩ := List.map_eq_cons_iff.mp hlines
  obtain rfl : l = .header ((first :: fields).map (·.text)) := hl
  rw [List.map_eq_nil_iff.mp hnil, List.singleton_append, Draft.readLines, h line]
  show (if part' = .ended then _ else _) = _
  rw [if_neg goesOn]

theorem data {first : Word} {fields : List Word}
    (h : ∀ line, d.dataLine part line ((first :: fields).map (·.text)) = .ok d') :
    Leads d part [.data first fields] d' part := by
  intro numbered rest hlines
  obtain ⟨⟨line, l⟩, rest', rfl, hl, hnil⟩ := List.map_eq_cons_iff.mp hlines
  obtain rfl : l = .data ((first :: fields).map (·.text)) := hl
  rw [List.map_eq_nil_iff.mp hnil, List.singleton_append, Draft.readLines, h line]
  rfl

/-- **A section is read item by item** where each item's lines lead from the draft of a
content to that of the content with the item, and leave the others to be read. -/
theorem run {ι : Type} {lines : ι → List WordLine} {add : Content α → ι → Content α}
    {P : Content α → List ι → Prop} {whole : Bool}
    (step : ∀ c i items, P c (i :: items) →
      Leads (c.draft whole) part (lines i) ((add c i).draft whole) part ∧ P (add c i) items)
    {c : Content α} {items more : List ι} (h : P c (items ++ more)) :
    Leads (c.draft whole) part (items.flatMap lines) ((items.foldl add c).draft whole) part
      ∧ P (items.foldl add c) more := by
  induction items generalizing c with
  | nil => exact ⟨nil _ part, h⟩
  | cons i items ih =>
    obtain ⟨hfirst, hleft⟩ := step c i _ h
    obtain ⟨hrest, hmore⟩ := ih hleft
    rw [List.flatMap_cons]
    exact ⟨hfirst.append hrest, hmore⟩

theorem runAll {ι : Type} {lines : ι → List WordLine} {add : Content α → ι → Content α}
    {P : Content α → List ι → Prop} {whole : Bool}
    (step : ∀ c i items, P c (i :: items) →
      Leads (c.draft whole) part (lines i) ((add c i).draft whole) part ∧ P (add c i) items)
    {c : Content α} {items : List ι} (h : P c items) :
    Leads (c.draft whole) part (items.flatMap lines) ((items.foldl add c).draft whole) part := by
  rw [← List.append_nil items] at h
  exact (run step h).1

end Leads

/-- The pairs of a line are read one by one in the same way. -/
theorem foldlM_draft {ι κ : Type} {f : Draft α → κ → Except (Fault α) (Draft α)} {g : ι → κ}
    {add : Content α → ι → Content α} {P : Content α → List ι → Prop} {whole : Bool}
    (step : ∀ c i items, P c (i :: items) →
      f (c.draft whole) (g i) = .ok ((add c i).draft whole) ∧ P (add c i) items)
    {c : Content α} {items more : List ι} (h : P c (items ++ more)) :
    (items.map g).foldlM f (c.draft whole) = .ok ((items.foldl add c).draft whole)
      ∧ P (items.foldl add c) more := by
  induction items generalizing c with
  | nil => exact ⟨rfl, h⟩
  | cons i items ih =>
    obtain ⟨hfirst, hrest⟩ := step c i _ h
    rw [List.map_cons, List.foldlM_cons, hfirst]
    exact ih hrest

omit [Number α] in
/-- Items that are added one by one at the end of a list are added all together. -/
theorem foldl_add {ι β : Type} {f : Content α → List β → Content α} (none : ∀ c, f c [] = c)
    (more : ∀ c items later, f (f c items) later = f c (items ++ later)) (g : ι → β)
    (items : List ι) (c : Content α) :
    items.foldl (fun c i => f c [g i]) c = f c (items.map g) := by
  induction items generalizing c with
  | nil => exact (none c).symm
  | cons i items ih => rw [List.foldl_cons, ih, more, List.map_cons, List.singleton_append]

/-! ## The rows -/

/-- Rows with new names are still to be declared, before anything is said of rows. -/
structure RowsLeft (c : Content α) (rows : List RowLine) : Prop where
  entries : c.entries = []
  rhs : c.rhs = []
  ranges : c.ranges = []
  distinct : ((c.rows ++ rows.map (·.row)).map (·.name)).Nodup

theorem leads_rowLine {c : Content α} {l : RowLine} {rows : List RowLine}
    (h : RowsLeft c (l :: rows)) :
    Leads (c.draft false) .rows [l.line] ((c.withRow l.row).draft false) .rows
      ∧ RowsLeft (c.withRow l.row) rows := by
  obtain ⟨hentries, hrhs, hranges, hdistinct⟩ := h
  have hsplit : c.rows ++ (l :: rows).map (·.row) = (c.withRow l.row).rows ++ rows.map (·.row) := by
    simp [Content.withRow]
  have hnew : l.row.name ∉ c.rowNames := by
    rw [List.map_append, List.map_cons, List.map_cons] at hdistinct
    intro hmem
    exact List.disjoint_of_nodup_append hdistinct hmem List.mem_cons_self
  refine ⟨Leads.data fun line => ?_, hentries, hrhs, hranges, hsplit ▸ hdistinct⟩
  exact Content.rowLine_draft hnew hentries hrhs hranges line

theorem leads_rows {c : Content α} {rows : List RowLine} (h : RowsLeft c rows) :
    Leads (c.draft false) .rows (rows.map (·.line))
      (Content.draft { c with rows := c.rows ++ rows.map (·.row) } false) .rows := by
  have hlines := Leads.runAll (fun (c : Content α) l rows hleft => leads_rowLine hleft) h
  have hadded := foldl_add (f := fun c more => { c with rows := c.rows ++ more }) (by simp)
    (by simp) RowLine.row rows c
  rw [← List.map_eq_flatMap] at hlines
  exact hadded ▸ hlines

/-! ## Right-hand sides and ranges -/

/-- The number that was written is read. -/
theorem readNumber_figure [Finitary α] {f : Figure} (finite : Number.isFinite (f.value α) = true)
    (line : Nat) : readNumber line f.word.text = .ok (f.value α) := by
  have hnumber : Number.isNaN (Number.ofNumeral f.numeral : α) = false :=
    Finitary.isNaN_of_isFinite _ finite
  rw [readNumber, f.spelled]
  dsimp only
  rw [hnumber]
  rfl

/-- A pair as its two fields. -/
def Pair.texts (q : Pair) : String × String := (q.row.text, q.figure.word.text)

omit [Number α] in
/-- The pairs of a line are found, whether or not it names its set. -/
theorem pairs_line (l : SetLine) (line : Nat) (title : String) :
    ∃ first fields, l.line = .data first fields
      ∧ Draft.pairs (α := α) line title ((first :: fields).map (·.text))
        = .ok (l.pairs.list.map Pair.texts) := by
  obtain ⟨name, first, second⟩ := l
  cases name <;> cases second <;> exact ⟨_, _, rfl, rfl⟩

/-- Of each row at most one thing is said, before and later on. -/
structure Left (said : List (String × α)) (About : String → Prop) (pairs : List Pair) : Prop where
  known : ∀ q ∈ pairs, About q.row.text ∧ Number.isFinite (q.figure.value α) = true
  once : ((said ++ pairs.map (Pair.said α)).map Prod.fst).Nodup

theorem Left.new {said : List (String × α)} {About : String → Prop} {q : Pair}
    {pairs : List Pair} (h : Left said About (q :: pairs)) : q.row.text ∉ said.map Prod.fst := by
  have honce := h.once
  rw [List.map_append, List.map_cons, List.map_cons] at honce
  exact fun hmem => List.disjoint_of_nodup_append honce hmem List.mem_cons_self

theorem Left.later {said : List (String × α)} {About : String → Prop} {q : Pair}
    {pairs : List Pair} (h : Left said About (q :: pairs)) :
    Left (said ++ [q.said α]) About pairs where
  known := fun p hp => h.known p (List.mem_cons_of_mem _ hp)
  once := by simpa using h.once

/-- Right-hand sides that are still to be read. -/
def RhsLeft (c : Content α) (pairs : List Pair) : Prop :=
  c.rowNames.Nodup ∧ Left c.rhs (· ∈ c.rowNames) pairs

/-- Ranges that are still to be read. -/
def RangesLeft (c : Content α) (pairs : List Pair) : Prop :=
  c.rowNames.Nodup
    ∧ Left c.ranges (fun name => ∃ r ∈ c.rows, r.name = name ∧ r.letter ≠ .free) pairs

/-- **A section of pairs is read** where each pair is. -/
theorem leads_setLines {part : Section} {title : String}
    {pair : Nat → Draft α → String × String → Except (Fault α) (Draft α)}
    {add : Content α → Pair → Content α} {P : Content α → List Pair → Prop}
    (reads : ∀ (d : Draft α) line fields, d.dataLine part line fields
      = Draft.pairs line title fields >>= fun pairs => pairs.foldlM (pair line) d)
    (step : ∀ line c q pairs, P c (q :: pairs) →
      pair line (c.draft false) q.texts = .ok ((add c q).draft false) ∧ P (add c q) pairs)
    {c : Content α} {lines : List SetLine} (h : P c (lines.flatMap (·.pairs.list))) :
    Leads (c.draft false) part (lines.map (·.line))
      (((lines.flatMap (·.pairs.list)).foldl add c).draft false) part := by
  rw [List.foldl_flatMap, List.map_eq_flatMap]
  refine Leads.runAll (P := fun c lines => P c (lines.flatMap (·.pairs.list)))
    (fun c l lines hleft => ?_) h
  have hpairs := fun line => foldlM_draft (step line) hleft
  refine ⟨?_, (hpairs 0).2⟩
  obtain ⟨first, fields, hline, -⟩ := pairs_line (α := α) l 0 title
  rw [hline]
  refine Leads.data fun line => ?_
  obtain ⟨first', fields', hline', hfound⟩ := pairs_line (α := α) l line title
  rw [hline] at hline'
  obtain ⟨rfl, rfl⟩ := WordLine.data.inj hline'
  rw [reads, hfound]
  exact (hpairs line).1

section Pairs

variable [Finitary α] {c : Content α}

theorem rhsPair_left (line : Nat) (c : Content α) (q : Pair) (pairs : List Pair)
    (h : RhsLeft c (q :: pairs)) :
    Draft.rhsPair line (c.draft false) q.texts
        = .ok ((c.withRhs q.row.text (q.figure.value α)).draft false)
      ∧ RhsLeft (c.withRhs q.row.text (q.figure.value α)) pairs := by
  obtain ⟨hdistinct, hleft⟩ := h
  obtain ⟨hknown, hfinite⟩ := hleft.known q List.mem_cons_self
  exact ⟨Content.rhsPair_draft hdistinct hknown hleft.new (readNumber_figure hfinite line),
    hdistinct, hleft.later⟩

theorem rangePair_left (line : Nat) (c : Content α) (q : Pair) (pairs : List Pair)
    (h : RangesLeft c (q :: pairs)) :
    Draft.rangePair line (c.draft false) q.texts
        = .ok ((c.withRange q.row.text (q.figure.value α)).draft false)
      ∧ RangesLeft (c.withRange q.row.text (q.figure.value α)) pairs := by
  obtain ⟨hdistinct, hleft⟩ := h
  obtain ⟨⟨r, hr, hname, hbound⟩, hfinite⟩ := hleft.known q List.mem_cons_self
  have hnew := hleft.new
  have hread := readNumber_figure hfinite line
  refine ⟨?_, hdistinct, hleft.later⟩
  rw [← hname] at hnew
  rw [Pair.texts, ← hname]
  exact Content.rangePair_draft hdistinct hr hbound hnew hread

theorem leads_rhs {lines : List SetLine} (h : RhsLeft c (lines.flatMap (·.pairs.list))) :
    Leads (c.draft false) .rhs (lines.map (·.line))
      ({ c with rhs := c.rhs ++ lines.flatMap fun l : SetLine => l.pairs.said α }.draft false)
      .rhs := by
  have hadded := foldl_add (f := fun c more => { c with rhs := c.rhs ++ more }) (by simp)
    (by simp) (Pair.said α) (lines.flatMap (·.pairs.list)) c
  have hreads : ∀ (d : Draft α) line fields, d.dataLine .rhs line fields
      = Draft.pairs line "RHS" fields >>= fun pairs => pairs.foldlM (Draft.rhsPair line) d :=
    fun _ _ _ => rfl
  have hlines := leads_setLines hreads rhsPair_left h
  rw [List.map_flatMap] at hadded
  exact hadded ▸ hlines

theorem leads_ranges {lines : List SetLine} (h : RangesLeft c (lines.flatMap (·.pairs.list))) :
    Leads (c.draft false) .ranges (lines.map (·.line))
      ({ c with ranges := c.ranges ++ lines.flatMap fun l : SetLine => l.pairs.said α }.draft false)
      .ranges := by
  have hadded := foldl_add (f := fun c more => { c with ranges := c.ranges ++ more }) (by simp)
    (by simp) (Pair.said α) (lines.flatMap (·.pairs.list)) c
  have hreads : ∀ (d : Draft α) line fields, d.dataLine .ranges line fields
      = Draft.pairs line "RANGES" fields >>= fun pairs => pairs.foldlM (Draft.rangePair line) d :=
    fun _ _ _ => rfl
  have hlines := leads_setLines hreads rangePair_left h
  rw [List.map_flatMap] at hadded
  exact hadded ▸ hlines

end Pairs

/-! ## The columns -/

/-- Lines with entries that are still to be read, where no bounds have been read. -/
structure EntriesLeft (c : Content α) (lines : List EntryLine) : Prop where
  limits : c.limits = []
  distinct : c.rowNames.Nodup
  unmarked : ∀ r ∈ c.rows, unquote r.name ≠ "MARKER"
  mentioned : ∀ e ∈ c.entries, e.column ∈ c.columns
  known : ∀ l ∈ lines, ∀ q ∈ l.pairs.list,
    q.row.text ∈ c.rowNames ∧ Number.isFinite (q.figure.value α) = true

/-- What a line with entries says is taken over. -/
def addEntries (whole : Bool) (c : Content α) (l : EntryLine) : Content α :=
  { c with
    mentions := c.mentions ++ [(l.column.text, whole)]
    entries := c.entries ++ l.entries α }

/-- A line with entries is about one column. -/
theorem entryLine_eq (d : Draft α) (line : Nat) (l : EntryLine) :
    d.entryLine line ((l.column :: l.pairs.first.row :: l.pairs.tail).map (·.text))
      = (l.pairs.list.map Pair.texts).foldlM
          (Draft.entry (d.ensureColumn l.column.text).1 line)
          (d.ensureColumn l.column.text).2 := by
  obtain ⟨column, first, second⟩ := l
  cases second with
  | none =>
    show Draft.entry _ line _ _ = Draft.entry _ line _ _ >>= pure
    rw [bind_pure]
    rfl
  | some second =>
    show _ = Draft.entry _ line _ _ >>= fun d => Draft.entry _ line d _ >>= pure
    simp only [bind_pure]
    rfl

/-- Entries of a line that are still to be read, where the columns are known. -/
def PairsLeft (columns : List String) (c : Content α) (pairs : List Pair) : Prop :=
  c.columns = columns ∧ c.rowNames.Nodup ∧ ∀ q ∈ pairs,
    q.row.text ∈ c.rowNames ∧ Number.isFinite (q.figure.value α) = true

theorem entry_left [Finitary α] {columns : List String} (column : String) (whole : Bool)
    (line : Nat) (c : Content α) (q : Pair) (pairs : List Pair)
    (h : PairsLeft columns c (q :: pairs)) :
    Draft.entry (columns.idxOf column) line (c.draft whole) q.texts
        = .ok ((c.withEntry ⟨column, q.row.text, q.figure.value α⟩).draft whole)
      ∧ PairsLeft columns (c.withEntry ⟨column, q.row.text, q.figure.value α⟩) pairs := by
  obtain ⟨rfl, hdistinct, hknown⟩ := h
  obtain ⟨⟨hrow, hfinite⟩, hlater⟩ := List.forall_mem_cons.mp hknown
  exact ⟨Content.entry_draft (e := ⟨column, q.row.text, q.figure.value α⟩) hdistinct hrow hfinite
    (readNumber_figure hfinite line), rfl, hdistinct, hlater⟩

/-- The entries of a line, whose column has its place. -/
theorem foldlM_entry [Finitary α] {c : Content α} (column : String) (whole : Bool)
    {pairs : List Pair} (h : PairsLeft c.columns c pairs) (line : Nat) :
    (pairs.map Pair.texts).foldlM (Draft.entry (c.columns.idxOf column) line) (c.draft whole)
      = .ok (Content.draft
          { c with entries := c.entries
              ++ pairs.map fun q => ⟨column, q.row.text, q.figure.value α⟩ } whole) := by
  rw [← List.append_nil pairs] at h
  have hpairs := (foldlM_draft (entry_left column whole line) h).1
  have hadded := foldl_add (f := fun c more => { c with entries := c.entries ++ more }) (by simp)
    (by simp) (fun q : Pair => (⟨column, q.row.text, q.figure.value α⟩ : Entry α)) pairs c
  exact hadded ▸ hpairs

/-- **A line with entries** is read, and what it says taken over. -/
theorem leads_entryLine [Finitary α] {c : Content α} {l : EntryLine} {lines : List EntryLine}
    (h : EntriesLeft c (l :: lines)) (whole : Bool) :
    Leads (c.draft whole) .columns [l.line] ((addEntries whole c l).draft whole) .columns := by
  obtain ⟨hlimits, hdistinct, hunmarked, hmentioned, hknown⟩ := h
  have hpairs := hknown l List.mem_cons_self
  have hfirst : (unquote l.pairs.first.row.text == "MARKER") = false := by
    rw [beq_eq_false_iff_ne]
    obtain ⟨r, hr, hname⟩ := List.mem_map.mp (hpairs l.pairs.first List.mem_cons_self).1
    rw [← hname]
    exact hunmarked r hr
  refine Leads.data fun line => ?_
  have hentry : (c.draft whole).dataLine .columns line
        ((l.column :: l.pairs.first.row :: l.pairs.tail).map (·.text))
      = (c.draft whole).entryLine line
          ((l.column :: l.pairs.first.row :: l.pairs.tail).map (·.text)) := by
    rw [Pairs.tail, List.map_cons, List.map_cons, List.map_cons, Draft.dataLine, Draft.columnLine,
      hfirst, if_neg Bool.false_ne_true]
  rw [hentry, entryLine_eq, Content.ensureColumn_draft hlimits hmentioned]
  exact foldlM_entry (c := c.withMention l.column.text whole) _ _ ⟨rfl, hdistinct, hpairs⟩ line

theorem EntriesLeft.later {c : Content α} {l : EntryLine} {lines : List EntryLine}
    (h : EntriesLeft c (l :: lines)) (whole : Bool) : EntriesLeft (addEntries whole c l) lines where
  limits := h.limits
  distinct := h.distinct
  unmarked := h.unmarked
  mentioned := by
    intro e he
    rw [Content.mem_columns, addEntries, List.map_append, List.mem_append]
    rcases List.mem_append.mp he with hold | hnew
    · exact .inl (Content.mem_columns.mp (h.mentioned e hold))
    · obtain ⟨q, -, rfl⟩ := List.mem_map.mp hnew
      exact .inr List.mem_cons_self
  known := fun k hk => h.known k (List.mem_cons_of_mem _ hk)

/-- What a block says is taken over. -/
def addBlock (c : Content α) (b : Block) : Content α :=
  { c with
    mentions := c.mentions ++ b.lines.map fun l => (l.column.text, b.whole)
    entries := c.entries ++ b.lines.flatMap (·.entries α) }

theorem foldl_addEntries (whole : Bool) (lines : List EntryLine) (c : Content α) :
    lines.foldl (addEntries whole) c = addBlock c ⟨whole, lines⟩ := by
  induction lines generalizing c with
  | nil => simp [addBlock]
  | cons l lines ih =>
    rw [List.foldl_cons, ih, addEntries, addBlock, addBlock]
    simp

theorem foldl_addBlock (blocks : List Block) (c : Content α) :
    blocks.foldl addBlock c
      = { c with
          mentions := c.mentions
            ++ blocks.flatMap fun b => b.lines.map fun l => (l.column.text, b.whole)
          entries := c.entries ++ blocks.flatMap fun b => b.lines.flatMap (·.entries α) } := by
  induction blocks generalizing c with
  | nil => simp
  | cons b blocks ih =>
    rw [List.foldl_cons, ih, addBlock]
    simp

/-- A marker opens or closes a block of whole columns. -/
theorem leads_marker (c : Content α) (opens whole : Bool) :
    Leads (c.draft whole) .columns [markerLine opens] (c.draft opens) .columns := by
  have hkeyword : (unquote "'MARKER'" == "MARKER") = true := by decide
  have hopening : (unquote "'INTORG'" == "INTORG") = true := by decide
  have hclosing : (unquote "'INTEND'" == "INTORG") = false := by decide
  have hclosed : (unquote "'INTEND'" == "INTEND") = true := by decide
  refine Leads.data fun line => ?_
  cases opens with
  | true =>
    simp only [List.map_cons, List.map_nil, Draft.dataLine, Draft.columnLine, if_true, hkeyword,
      Draft.markerLine, hopening]
    rfl
  | false =>
    simp only [List.map_cons, List.map_nil, Draft.dataLine, Draft.columnLine, if_true, hkeyword,
      Draft.markerLine, hclosing, hclosed, if_false, Bool.false_eq_true]
    rfl

/-- **A block is read**, between markers or without. -/
theorem leads_block [Finitary α] {c : Content α} {b : Block} {more : List EntryLine}
    (h : EntriesLeft c (b.lines ++ more)) :
    Leads (c.draft false) .columns b.wordLines ((addBlock c b).draft false) .columns
      ∧ EntriesLeft (addBlock c b) more := by
  obtain ⟨hlines, hmore⟩ := Leads.run
    (fun (c : Content α) _ _ hleft => ⟨leads_entryLine hleft b.whole, hleft.later b.whole⟩) h
  rw [foldl_addEntries, ← List.map_eq_flatMap] at hlines
  rw [foldl_addEntries] at hmore
  refine ⟨?_, hmore⟩
  obtain ⟨whole, lines⟩ := b
  cases whole with
  | false => exact hlines
  | true =>
    exact ((leads_marker c true false).append hlines).append (leads_marker _ false true)

theorem leads_blocks [Finitary α] {c : Content α} {blocks : List Block}
    (h : EntriesLeft c (blocks.flatMap (·.lines))) :
    Leads (c.draft false) .columns (blocks.flatMap (·.wordLines))
      (Content.draft
        { c with
          mentions := c.mentions
            ++ blocks.flatMap fun b => b.lines.map fun l => (l.column.text, b.whole)
          entries := c.entries ++ blocks.flatMap fun b => b.lines.flatMap (·.entries α) }
        false) .columns := by
  rw [← foldl_addBlock]
  exact Leads.runAll (P := fun c blocks => EntriesLeft c (blocks.flatMap fun b : Block => b.lines))
    (fun c b blocks hleft => leads_block hleft) h

/-! ## The bounds -/

/-- Bounds that are still to be read. -/
structure BoundsLeft (c : Content α) (lines : List BoundLine) : Prop where
  known : ∀ l ∈ lines, l.column.text ∈ c.columns
    ∧ ∀ f ∈ l.limit.value?, Number.isFinite (f.value α) = true
  unnamed : ∀ l ∈ lines, l.limit.keyword = "BV" → ∀ s ∈ l.set?, s.text ∉ c.columns
  once : (c.limits ++ lines.map (·.said α)).Pairwise fun l k => l.1 = k.1 → l.2.Compatible k.2

/-- What a line with a bound says is taken over. -/
def addBound (c : Content α) (l : BoundLine) : Content α :=
  c.withLimit l.column.text (l.limit.map (Figure.value α))

/-- A figure as its text and its number. -/
def Figure.reading (α : Type) [Number α] (f : Figure) : String × α := (f.word.text, f.value α)

theorem map_reading (l : Limit Figure) :
    (l.map (Figure.reading α)).map Prod.snd = l.map (Figure.value α) := by
  cases l <;> rfl

/-- The fields of a line with a bound. -/
theorem boundLine_fields (l : BoundLine) :
    (l.set?.toList ++ l.column :: (l.limit.value?.map (·.word)).toList).map (·.text)
      = (l.set?.map (·.text)).toList ++ l.column.text
        :: ((l.limit.map (Figure.reading α)).value?.map Prod.fst).toList := by
  obtain ⟨name, column, limit⟩ := l
  cases name <;> cases limit <;> rfl

/-- **A line with a bound** is read, and what it says taken over. -/
theorem boundLine_left [Finitary α] {c : Content α} {l : BoundLine} {lines : List BoundLine}
    (h : BoundsLeft c (l :: lines)) :
    Leads (c.draft false) .bounds [l.line] ((addBound c l).draft false) .bounds
      ∧ BoundsLeft (addBound c l) lines := by
  obtain ⟨hknown, hunnamed, honce⟩ := h
  obtain ⟨hcolumn, hfinite⟩ := hknown l List.mem_cons_self
  have hsplit : c.limits ++ (l :: lines).map (·.said α)
      = (addBound c l).limits ++ lines.map (·.said α) := by
    simp [addBound, Content.withLimit, BoundLine.said]
  refine ⟨Leads.data fun line => ?_, fun k hk => hknown k (List.mem_cons_of_mem _ hk),
    fun k hk => hunnamed k (List.mem_cons_of_mem _ hk), hsplit ▸ honce⟩
  have hreads : ∀ p ∈ (l.limit.map (Figure.reading α)).value?,
      readNumber line p.1 = .ok p.2 := by
    intro p hp
    rw [Content.value?_map] at hp
    obtain ⟨f, hf, rfl⟩ := Option.map_eq_some_iff.mp hp
    exact readNumber_figure (hfinite f hf) line
  -- what the column has already comes before this line in a list of compatible bounds
  have hfits : ∀ k ∈ c.limitsOf l.column.text,
      k.Compatible ((l.limit.map (Figure.reading α)).map Prod.snd) := by
    intro k hk
    rw [map_reading]
    obtain ⟨⟨column, k⟩, hmem, rfl⟩ := List.mem_map.mp hk
    obtain ⟨hmem, hsame⟩ := List.mem_filter.mp hmem
    exact (List.pairwise_append.mp honce).2.2 _ hmem _ (List.mem_map_of_mem List.mem_cons_self)
      (eq_of_beq hsame)
  have hset : (l.limit.map (Figure.reading α)).keyword = "BV" →
      ∀ s ∈ l.set?.map (·.text), s ∉ c.columns := by
    intro hkeyword s hs
    rw [Content.keyword_map] at hkeyword
    obtain ⟨w, hw, rfl⟩ := Option.map_eq_some_iff.mp hs
    exact hunnamed l List.mem_cons_self hkeyword w hw
  have hline : (c.draft false).boundLine line _ = _ :=
    Content.boundLine_draft hreads hcolumn hfits hset
  rw [map_reading, Content.keyword_map, ← boundLine_fields] at hline
  rw [List.map_cons]
  exact hline

theorem leads_bounds [Finitary α] {c : Content α} {lines : List BoundLine}
    (h : BoundsLeft c lines) :
    Leads (c.draft false) .bounds (lines.map (·.line))
      (Content.draft { c with limits := c.limits ++ lines.map (·.said α) } false) .bounds := by
  have hlines := Leads.runAll (fun (c : Content α) l lines hleft => boundLine_left hleft) h
  have hadded := foldl_add (f := fun c more => { c with limits := c.limits ++ more }) (by simp)
    (by simp) (BoundLine.said α) lines c
  rw [← List.map_eq_flatMap] at hlines
  exact hadded ▸ hlines

/-! ## The title and the sense -/

omit [Number α] in
/-- A word for a sense is read as that sense. -/
theorem readSense_spelling (s : Spelling) (line : Nat) :
    readSense (α := α) line s.word.text = .ok s.sense := by
  obtain ⟨word, sense, spelled⟩ := s
  have hword : ∀ w, upperCase word.text = w →
      readSense (α := α) line word.text
        = if w == "MAX" || w == "MAXIMIZE" || w == "MAXIMISE" then .ok .maximize
          else if w == "MIN" || w == "MINIMIZE" || w == "MINIMISE" then .ok .minimize
          else refuse line ("unknown objective sense '" ++ w ++ "'") := by
    rintro w rfl
    rfl
  cases sense with
  | maximize =>
    simp only [spellings, List.mem_cons, List.not_mem_nil, or_false] at spelled
    rcases spelled with h | h | h <;> exact hword _ h
  | minimize =>
    simp only [spellings, List.mem_cons, List.not_mem_nil, or_false] at spelled
    rcases spelled with h | h | h <;> exact hword _ h

/-- The sense is read wherever it is said. -/
theorem leads_sense {c : Content α} (small : c.sense = .minimize) (note : SenseNote) :
    ∃ part, Leads (c.draft false) .start note.lines
      (Content.draft { c with sense := note.sense } false) part := by
  have hsame : { c with sense := Sense.minimize } = c := by
    rw [← small]
  cases note with
  | leftOut =>
    refine ⟨.start, ?_⟩
    rw [SenseNote.sense, hsame]
    exact Leads.nil _ _
  | bare =>
    refine ⟨.objectiveSense, ?_⟩
    rw [SenseNote.sense, hsame]
    exact Leads.header (fun line => rfl) (by decide)
  | beside s =>
    refine ⟨.objectiveSense, Leads.header (fun line => ?_) (by decide)⟩
    show (readSense line s.word.text).map _ = _
    rw [readSense_spelling]
    rfl
  | below s =>
    have hheader : Leads (c.draft false) .start
        [.header ⟨"OBJSENSE", by decide⟩ [] (by decide)] (c.draft false) .objectiveSense :=
      Leads.header (fun line => rfl) (by decide)
    refine ⟨.objectiveSense, hheader.append (Leads.data fun line => ?_)⟩
    show (readSense line s.word.text).map _ = _
    rw [readSense_spelling]
    rfl

/-! ## The text -/

/-- A section is read if it is there; if not, it adds nothing. -/
theorem leads_section {ι : Type} (lines? : Option (List ι)) (line : ι → WordLine)
    {d d' : Draft α} {part : Section} {first : Word}
    {visible : first.text.toList.head? ≠ some '*'}
    (opens : ∀ number, d.header number [first.text] = .ok (part, d))
    (goesOn : part ≠ .ended) (absent : lines? = none → d' = d)
    (body : Leads d part ((lines?.getD []).map line) d' part) (before : Section) :
    ∃ after, Leads d before (sectionLines (.header first [] visible) (lines?.map (·.map line))) d'
      after := by
  cases lines? with
  | none =>
    rw [absent rfl]
    exact ⟨before, Leads.nil _ _⟩
  | some lines => exact ⟨part, (Leads.header opens goesOn).append body⟩

/-- Nothing is read after the end of the data. -/
theorem ofText_of_leads {lines : List WordLine} {d : Draft α} {part : Section}
    (h : Leads .initial .start lines d part) :
    Draft.ofText (written (lines ++ [.header ⟨"ENDATA", by decide⟩ [] (by decide)])) = .ok d := by
  have hlines : (lines.zipIdx.map fun l => (l.2 + 1, l.1.line)).map Prod.snd
      = lines.map (·.line) := by
    have hfst := List.zipIdx_map_fst 0 lines
    nth_rewrite 2 [← hfst]
    rw [List.map_map, List.map_map]
    rfl
  rw [Draft.ofText, numberedLines_written, List.zipIdx_append, List.map_append, h _ _ hlines]
  rfl

/-- What has been read of a content when a section begins. -/
def Content.before (c : Content α) : Section → Content α
  | .start => ⟨c.name, .minimize, [], [], [], [], [], []⟩
  | .objectiveSense => ⟨c.name, .minimize, [], [], [], [], [], []⟩
  | .rows => ⟨c.name, c.sense, [], [], [], [], [], []⟩
  | .columns => ⟨c.name, c.sense, c.rows, [], [], [], [], []⟩
  | .rhs => ⟨c.name, c.sense, c.rows, c.mentions, c.entries, [], [], []⟩
  | .ranges => ⟨c.name, c.sense, c.rows, c.mentions, c.entries, c.rhs, [], []⟩
  | .bounds => ⟨c.name, c.sense, c.rows, c.mentions, c.entries, c.rhs, c.ranges, []⟩
  | .ended => c

namespace Document

variable [Finitary α] {d : Document}

omit [Finitary α] in
theorem IsProper.rowsLeft (h : d.IsProper α) : RowsLeft ((d.content α).before .rows) d.rows where
  entries := rfl
  rhs := rfl
  ranges := rfl
  distinct := h.content.rows

omit [Finitary α] in
theorem IsProper.entriesLeft (h : d.IsProper α) :
    EntriesLeft ((d.content α).before .columns) (d.blocks.flatMap (·.lines)) where
  limits := rfl
  distinct := h.content.rows
  unmarked := by
    intro r hr
    obtain ⟨l, hl, rfl⟩ := List.mem_map.mp hr
    exact h.unmarked l hl
  mentioned := fun e he => by cases he
  known := by
    intro l hl q hq
    obtain ⟨b, hb, hl⟩ := List.mem_flatMap.mp hl
    exact h.content.entries ⟨l.column.text, q.row.text, q.figure.value α⟩
      (List.mem_flatMap.mpr ⟨b, hb, List.mem_flatMap.mpr ⟨l, hl, List.mem_map_of_mem hq⟩⟩)

omit [Finitary α] in
/-- What is said of rows once is said once by the lines of a section. -/
theorem left_lines {lines : List SetLine} {About : String → Prop}
    (known : ∀ p ∈ lines.flatMap (·.pairs.said α), About p.1 ∧ Number.isFinite p.2 = true)
    (once : ((lines.flatMap (·.pairs.said α)).map Prod.fst).Nodup) :
    Left ([] : List (String × α)) About (lines.flatMap (·.pairs.list)) where
  known := by
    intro q hq
    obtain ⟨l, hl, hq⟩ := List.mem_flatMap.mp hq
    exact known (q.said α) (List.mem_flatMap.mpr ⟨l, hl, List.mem_map_of_mem hq⟩)
  once := by
    rw [List.nil_append, List.map_flatMap]
    exact once

omit [Finitary α] in
theorem IsProper.rhsLeft (h : d.IsProper α) :
    RhsLeft ((d.content α).before .rhs) ((d.rhs?.getD []).flatMap (·.pairs.list)) :=
  ⟨h.content.rows, left_lines h.content.rhs h.content.rhsOnce⟩

omit [Finitary α] in
theorem IsProper.rangesLeft (h : d.IsProper α) :
    RangesLeft ((d.content α).before .ranges) ((d.ranges?.getD []).flatMap (·.pairs.list)) :=
  ⟨h.content.rows, left_lines h.content.ranges h.content.rangesOnce⟩

omit [Finitary α] in
theorem IsProper.boundsLeft (h : d.IsProper α) :
    BoundsLeft ((d.content α).before .bounds) (d.bounds?.getD []) where
  known := by
    intro l hl
    obtain ⟨hcolumn, hfinite⟩ := h.content.limits (l.said α) (List.mem_map_of_mem hl)
    refine ⟨hcolumn, fun f hf => hfinite (f.value α) ?_⟩
    rw [BoundLine.said, Content.value?_map]
    exact Option.mem_map_of_mem _ hf
  unnamed := h.unnamed
  once := h.content.limitsOnce

/-- **The draft of what the document says** is what the reader has in the end. -/
theorem ofText_text (h : d.IsProper α) :
    Draft.ofText d.text = .ok ((d.content α).draft false) := by
  have hname : Leads (.initial : Draft α) .start [.header ⟨"NAME", by decide⟩ d.title (by decide)]
      (((d.content α).before .start).draft false) .start :=
    Leads.header (fun line => rfl) (by decide)
  obtain ⟨part, hsense⟩ := leads_sense (c := (d.content α).before .start) rfl d.sense
  have hrows : Leads (((d.content α).before .rows).draft false) part
      (.header ⟨"ROWS", by decide⟩ [] (by decide) :: d.rows.map (·.line))
      (((d.content α).before .columns).draft false) .rows :=
    (Leads.header (fun line => rfl) (by decide)).append (leads_rows h.rowsLeft)
  have hcolumns : Leads (((d.content α).before .columns).draft false) .rows
      (.header ⟨"COLUMNS", by decide⟩ [] (by decide) :: d.blocks.flatMap (·.wordLines))
      (((d.content α).before .rhs).draft false) .columns :=
    (Leads.header (fun line => rfl) (by decide)).append (leads_blocks h.entriesLeft)
  -- a section that is left out leaves the reader where it is
  obtain ⟨part, hrhs⟩ : ∃ part, Leads (((d.content α).before .rhs).draft false) .columns
      (sectionLines (.header ⟨"RHS", by decide⟩ [] (by decide)) (d.rhs?.map (·.map (·.line))))
      (((d.content α).before .ranges).draft false) part :=
    leads_section d.rhs? SetLine.line (fun line => rfl) (by decide)
      (fun habsent => by simp [Content.before, content, habsent]) (leads_rhs h.rhsLeft) _
  obtain ⟨part, hranges⟩ : ∃ after, Leads (((d.content α).before .ranges).draft false) part
      (sectionLines (.header ⟨"RANGES", by decide⟩ [] (by decide))
        (d.ranges?.map (·.map (·.line))))
      (((d.content α).before .bounds).draft false) after :=
    leads_section d.ranges? SetLine.line (fun line => rfl) (by decide)
      (fun habsent => by simp [Content.before, content, habsent]) (leads_ranges h.rangesLeft) _
  obtain ⟨part, hbounds⟩ : ∃ after, Leads (((d.content α).before .bounds).draft false) part
      (sectionLines (.header ⟨"BOUNDS", by decide⟩ [] (by decide))
        (d.bounds?.map (·.map (·.line))))
      ((d.content α).draft false) after :=
    leads_section d.bounds? BoundLine.line (fun line => rfl) (by decide)
      (fun habsent => by simp [Content.before, content, habsent]) (leads_bounds h.boundsLeft) _
  have hall := hname.append hsense |>.append hrows |>.append hcolumns |>.append hrhs
    |>.append hranges |>.append hbounds
  exact ofText_of_leads hall

/-- **The reader reads what the document says.** For every document that can be read, the
text is read without a fault, and the model is the one that the document describes. -/
theorem read_text (h : d.IsProper α) (id : ModelId) :
    Mps.read id d.text = .ok ((d.content α).model id) := by
  rw [Mps.read, ofText_text h]
  exact Content.toModel_draft h.content (d.mentioned α) false

end Document

/-! ### A document with a little of everything -/

namespace Sample

def cost : Word := ⟨"cost", by decide⟩

def cap : Word := ⟨"cap", by decide⟩

def balance : Word := ⟨"balance", by decide⟩

def x : Word := ⟨"x", by decide⟩

def n : Word := ⟨"n", by decide⟩

def y : Word := ⟨"y", by decide⟩

def one : Figure := ⟨⟨"1", by decide⟩, .finite false 1 0, by rfl⟩

def minusOne : Figure := ⟨⟨"-1", by decide⟩, .finite true 1 0, by rfl⟩

def two : Figure := ⟨⟨"2.0", by decide⟩, .finite false 20 (-1), by rfl⟩

def minusTwo : Figure := ⟨⟨"-2", by decide⟩, .finite true 2 0, by rfl⟩

def ten : Figure := ⟨⟨"1e1", by decide⟩, .finite false 1 1, by rfl⟩

theorem upperCase_max : upperCase "Max" = "MAX" := by
  rw [upperCase, ← String.toList_inj, String.toList_map]
  decide

/-- A row that comes twice in a column, a second free row, a range below zero, an upper end
below zero, and sets that are named on some lines. -/
def document : Document where
  title := [⟨"SAMPLE", by decide⟩]
  sense := .below ⟨⟨"Max", by decide⟩, .maximize, by rw [upperCase_max]; decide⟩
  rows := [⟨.free, cost⟩, ⟨.atMost, cap⟩, ⟨.equal, balance⟩, ⟨.free, ⟨"spare", by decide⟩⟩]
  blocks := [
    ⟨false, [⟨x, ⟨cost, two⟩, some ⟨cap, two⟩⟩, ⟨x, ⟨cap, one⟩, none⟩]⟩,
    ⟨true, [⟨n, ⟨cost, one⟩, some ⟨balance, one⟩⟩]⟩,
    ⟨false, [⟨y, ⟨balance, minusOne⟩, some ⟨⟨"spare", by decide⟩, ten⟩⟩]⟩]
  rhs? := some [⟨some ⟨"SET", by decide⟩, ⟨cap, ten⟩, some ⟨cost, minusTwo⟩⟩,
    ⟨none, ⟨balance, one⟩, none⟩]
  ranges? := some [⟨none, ⟨balance, minusTwo⟩, none⟩]
  bounds? := some [⟨none, y, .upper false minusTwo⟩, ⟨some ⟨"BND", by decide⟩, x, .binary⟩]

/-- What the document describes: two and two halves. -/
def model : Model ExtRat where
  id := ⟨1⟩
  name := "SAMPLE"
  vars := [⟨"x", .binary, ⟨.fin 0, .fin 1⟩⟩, ⟨"n", .integer, ⟨.fin 0, .posInf⟩⟩,
    ⟨"y", .continuous, ⟨.negInf, .fin (-2)⟩⟩]
  constraints := [⟨"cap", [(⟨⟨1⟩, 0⟩, .fin 3)], .atMost, .fin 10⟩,
    ⟨"balance_lo", [(⟨⟨1⟩, 1⟩, .fin 1), (⟨⟨1⟩, 2⟩, .fin (-1))], .atLeast, .fin (-1)⟩,
    ⟨"balance_hi", [(⟨⟨1⟩, 1⟩, .fin 1), (⟨⟨1⟩, 2⟩, .fin (-1))], .atMost, .fin 1⟩]
  objective := ⟨.maximize, [(⟨⟨1⟩, 0⟩, .fin 2), (⟨⟨1⟩, 1⟩, .fin 1)], .fin 2⟩

theorem isProper_document : document.IsProper ExtRat where
  content := {
    rows := by decide
    entries := by decide
    rhs := by decide
    rhsOnce := by decide
    ranges := by decide
    rangesOnce := by decide
    limits := by decide
    limitsOnce := by decide
    bounds := by decide +kernel }
  unmarked := by decide
  unnamed := by decide

theorem model_document : (document.content ExtRat).model ⟨1⟩ = model := by
  with_unfolding_all rfl

end Sample

/-- The sample is proper, looks as one would write it, and is read as it is described. -/
theorem Document.read_text_sample :
    Sample.document.IsProper ExtRat
      ∧ Text.lines Sample.document.text
        = ["NAME SAMPLE", "OBJSENSE", " Max",
            "ROWS", " N cost", " L cap", " E balance", " N spare",
            "COLUMNS", " x cost 2.0 cap 2.0", " x cap 1",
            " MARKER 'MARKER' 'INTORG'", " n cost 1 balance 1", " MARKER 'MARKER' 'INTEND'",
            " y balance -1 spare 1e1",
            "RHS", " SET cap 1e1 cost -2", " balance 1",
            "RANGES", " balance -2",
            "BOUNDS", " UP y -2", " BV BND x", "ENDATA"].map String.toList
      ∧ Mps.read ⟨1⟩ Sample.document.text = .ok Sample.model := by
  refine ⟨Sample.isProper_document, ?_, ?_⟩
  · rw [Document.text, lines_written]
    decide +kernel
  · rw [← Sample.model_document]
    exact Document.read_text Sample.isProper_document ⟨1⟩

end Milp.Mps
