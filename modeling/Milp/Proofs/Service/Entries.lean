/-
How a message is read, entry by entry.

A message is a list of entries: its variables, then its constraints, then its objective.
They are taken in this order, and each is first read as a build step, which is then carried
out on the model so far (`Entry.addTo_eq`). Which step an entry says is known from the
message alone (`Says`), and so is what keeps an entry from being read (`Misread`): a number
that stands for nothing, or a name that no variable has.

The reader looks names up in the model that it builds. That comes to the same, because all
variables stand before the entries that refer to them, so the names of the model and those
that are still to come are together those of the message. This is the invariant (`Awaits`)
that goes along with the entries.
-/
import Milp.Proofs.Model.Accepted
import Milp.Proofs.Service.Mapping

set_option autoImplicit false

namespace Milp.Service

open Attempt (bind_eq_ok_iff bind_eq_error_iff map_eq_ok_iff map_eq_error_iff)

/-! ## Entries -/

/-- A part of a message that the model is extended by. -/
inductive Entry (α : Type) where
  | var (v : VariableMessage α)
  | constraint (c : ConstraintMessage α)
  | objective (o : ObjectiveMessage α)
deriving Repr

variable {α : Type}

/-- The name of the variable that an entry declares. -/
def Entry.declares? : Entry α → Option String
  | .var v => some v.name
  | .constraint _ | .objective _ => none

namespace ModelMessage

/-- **The entries of a message** in their order. -/
def entries (message : ModelMessage α) : List (Entry α) :=
  message.vars.map .var ++ (message.constraints.map .constraint
    ++ message.objective.toList.map .objective)

def varNames (message : ModelMessage α) : List String := message.vars.map (·.name)

end ModelMessage

/-! ### What an entry says -/

/-- A name and a coefficient stand for a term: it is of the variable with that name, where
the variables have these names, and the coefficient is the same. -/
def Stands (id : ModelId) (names : List String) (named : String × α) (t : Handle × α) : Prop :=
  t.1.model = id ∧ names[t.1.index]? = some named.1 ∧ t.2 = named.2

/-- The first name in terms that no variable has. -/
def FirstUndeclared (names : List String) (terms : List (String × α)) (name : String) : Prop :=
  ∃ before c after, terms = before ++ (name, c) :: after ∧ (∀ t ∈ before, t.1 ∈ names)
    ∧ name ∉ names

/-- **What keeps an entry from being read**, where the variables have these names. -/
inductive Misread (names : List String) : Entry α → Fault α → Prop where
  | kind {v : VariableMessage α} (unknown : kindOfNumber? v.kind = none) :
    Misread names (.var v) (.configuration
      ("invalid type " ++ toString v.kind ++ " for variable '" ++ v.name ++ "'"))
  | term {c : ConstraintMessage α} {name : String}
      (undeclared : FirstUndeclared names c.terms name) :
    Misread names (.constraint c) (.unboundVariable (.described ("'" ++ name ++ "'")))
  | relation {c : ConstraintMessage α} (declared : ∀ t ∈ c.terms, t.1 ∈ names)
      (unknown : relationOfNumber? c.relation = none) :
    Misread names (.constraint c) (.configuration
      ("invalid relation " ++ toString c.relation ++ " in constraint '" ++ c.name ++ "'"))
  | sense {o : ObjectiveMessage α} (unknown : senseOfNumber? o.sense = none) :
    Misread names (.objective o)
      (.configuration ("invalid optimization type " ++ toString o.sense))
  | objectiveTerm {o : ObjectiveMessage α} {sense : Sense} {name : String}
      (known : senseOfNumber? o.sense = some sense)
      (undeclared : FirstUndeclared names o.terms name) :
    Misread names (.objective o) (.unboundVariable (.described ("'" ++ name ++ "'")))

variable [Number α]

/-- **The step that an entry says**, in a model of this identity whose variables have these
names. Absent bounds are zero below and infinite above. -/
inductive Says (id : ModelId) (names : List String) : Entry α → BuildStep α → Prop where
  | declare {v : VariableMessage α} {kind : VariableKind}
      (known : kindOfNumber? v.kind = some kind) :
    Says id names (.var v)
      (.declare v.name kind ⟨v.lower.getD 0, v.upper.getD Number.posInf⟩)
  | constrain {c : ConstraintMessage α} {relation : Relation} {terms : List (Handle × α)}
      (known : relationOfNumber? c.relation = some relation)
      (stand : List.Forall₂ (Stands id names) c.terms terms) :
    Says id names (.constraint c) (.constrain c.ownName? (.ofTerms terms) relation c.rhs)
  | optimize {o : ObjectiveMessage α} {sense : Sense} {terms : List (Handle × α)}
      (known : senseOfNumber? o.sense = some sense)
      (stand : List.Forall₂ (Stands id names) o.terms terms) :
    Says id names (.objective o) (.optimize ((Affine.ofTerms terms).withConstant o.constant) sense)

/-- **An entry offends**: it cannot be read, or the model so far refuses the step that it
says. -/
inductive Offends (id : ModelId) (names : List String) (m : Model α) (entry : Entry α)
    (fault : Fault α) : Prop where
  | misread (wrong : Misread names entry fault)
  | refused (step : BuildStep α) (said : Says id names entry step)
      (refuses : m.apply step = .error fault)

/-! ## Reading -/

namespace Entry

/-- Read the step that an entry says. -/
def read (m : Model α) : Entry α → Except (Fault α) (BuildStep α)
  | .var v => v.readKind.map fun kind => .declare v.name kind v.bounds
  | .constraint c => do
    let e ← readExpression m c.terms
    let relation ← c.readRelation
    pure (.constrain c.ownName? e relation c.rhs)
  | .objective o => do
    let sense ← o.readSense
    let e ← readExpression m o.terms
    pure (.optimize (e.withConstant o.constant) sense)

/-- Extend a model by an entry. -/
def addTo (m : Model α) : Entry α → Except (Fault α) (Model α)
  | .var v => v.addTo m
  | .constraint c => c.addTo m
  | .objective o => o.addTo m

/-- **An entry is read and then carried out.** -/
theorem addTo_eq (m : Model α) (entry : Entry α) : entry.addTo m = entry.read m >>= m.apply := by
  cases entry with
  | var v =>
    rw [addTo, VariableMessage.addTo, read]
    cases v.readKind with
    | error fault => rfl
    | ok kind =>
      show (m.declare v.name kind v.bounds >>= _) = (m.declare v.name kind v.bounds).map _
      cases m.declare v.name kind v.bounds <;> rfl
  | constraint c =>
    rw [addTo, ConstraintMessage.addTo, read, bind_assoc]
    refine bind_congr fun e => ?_
    rw [bind_assoc]
    refine bind_congr fun relation => ?_
    show _ = (m.addConstraint c.ownName? e relation c.rhs).map _
    cases m.addConstraint c.ownName? e relation c.rhs <;> rfl
  | objective o =>
    rw [addTo, ObjectiveMessage.addTo, read, bind_assoc]
    refine bind_congr fun sense => ?_
    rw [bind_assoc]
    exact bind_congr fun e => rfl

end Entry

/-- **The model of a message** is extended by one entry after the other. -/
theorem ModelMessage.toModel_eq (message : ModelMessage α) (id : ModelId) :
    message.toModel id = message.entries.foldlM Entry.addTo (Model.empty id message.name) := by
  rw [toModel, entries, List.foldlM_append, List.foldlM_map]
  refine bind_congr fun declared => ?_
  rw [List.foldlM_append, List.foldlM_map]
  refine bind_congr fun posed => ?_
  cases message.objective with
  | none => rfl
  | some o => exact (bind_pure (o.addTo posed)).symm

/-! ### Names -/

section Names

variable {m : Model α} {names : List String}

omit [Number α] in
/-- **A name is looked up** among the variables. -/
theorem readTerm_eq_ok_iff_stands (h : m.IsWellFormed) (all : m.vars.map (·.name) = names)
    {named : String × α} {t : Handle × α} :
    readTerm m named = .ok t ↔ Stands m.id names named t := by
  rw [readTerm_eq_ok_iff, h.handleOf?_eq_some_iff, Stands, ← all, List.getElem?_map,
    Option.map_eq_some_iff, and_assoc, eq_comm (a := named.2)]

omit [Number α] in
theorem readTerm_eq_error_iff (h : m.IsWellFormed) (all : m.vars.map (·.name) = names)
    {named : String × α} {fault : Fault α} :
    readTerm m named = .error fault
      ↔ named.1 ∉ names ∧ fault = .unboundVariable (.described ("'" ++ named.1 ++ "'")) := by
  have hsome := h.isSome_handleOf? named.1
  rw [all] at hsome
  rw [readTerm, ← hsome]
  cases m.handleOf? named.1 with
  | none => simp [eq_comm]
  | some k => simp

omit [Number α] in
theorem exists_readTerm_iff (h : m.IsWellFormed) (all : m.vars.map (·.name) = names)
    {named : String × α} : (∃ t, readTerm m named = .ok t) ↔ named.1 ∈ names := by
  by_contra hdiffer
  cases hread : readTerm m named with
  | error fault =>
    have hnot := ((readTerm_eq_error_iff h all).mp hread).1
    exact hdiffer (by simp [hread, hnot])
  | ok t =>
    have hmem : named.1 ∈ names :=
      List.mem_of_getElem? ((readTerm_eq_ok_iff_stands h all).mp hread).2.1
    exact hdiffer (by simp [hread, hmem])

theorem readExpression_eq_ok_iff (h : m.IsWellFormed) (all : m.vars.map (·.name) = names)
    {terms : List (String × α)} {e : Affine α} :
    readExpression m terms = .ok e
      ↔ ∃ read, List.Forall₂ (Stands m.id names) terms read ∧ .ofTerms read = e := by
  rw [readExpression, map_eq_ok_iff]
  refine exists_congr fun read => and_congr_left' ?_
  rw [Attempt.mapM_eq_ok_iff]
  have hsame : (fun named t => readTerm m named = .ok t) = Stands m.id names :=
    funext₂ fun named t => propext (readTerm_eq_ok_iff_stands h all)
  rw [hsame]

theorem readExpression_eq_error_iff (h : m.IsWellFormed) (all : m.vars.map (·.name) = names)
    {terms : List (String × α)} {fault : Fault α} :
    readExpression m terms = .error fault
      ↔ ∃ name, FirstUndeclared names terms name
        ∧ fault = .unboundVariable (.described ("'" ++ name ++ "'")) := by
  rw [readExpression, map_eq_error_iff, Attempt.mapM_eq_error_iff]
  constructor
  · rintro ⟨before, ⟨name, c⟩, after, hterms, hbefore, hfails⟩
    obtain ⟨hnew, rfl⟩ := (readTerm_eq_error_iff h all).mp hfails
    refine ⟨name, ⟨before, c, after, hterms, fun t ht => ?_, hnew⟩, rfl⟩
    exact (exists_readTerm_iff h all).mp (hbefore t ht)
  · rintro ⟨name, ⟨before, c, after, hterms, hbefore, hnew⟩, rfl⟩
    exact ⟨before, (name, c), after, hterms,
      fun t ht => (exists_readTerm_iff h all).mpr (hbefore t ht),
      (readTerm_eq_error_iff h all).mpr ⟨hnew, rfl⟩⟩

theorem exists_readExpression (h : m.IsWellFormed) (all : m.vars.map (·.name) = names)
    {terms : List (String × α)} (declared : ∀ t ∈ terms, t.1 ∈ names) :
    ∃ e, readExpression m terms = .ok e := by
  obtain ⟨read, hread⟩ := Attempt.exists_mapM_eq_ok fun t ht =>
    (exists_readTerm_iff h all).mpr (declared t ht)
  exact ⟨.ofTerms read, by rw [readExpression, hread]; rfl⟩

omit [Number α] in
/-- Where every term stands for one, every name is declared. -/
theorem mem_of_stands {id : ModelId} {terms : List (String × α)} {read : List (Handle × α)}
    (h : List.Forall₂ (Stands id names) terms read) : ∀ t ∈ terms, t.1 ∈ names := by
  intro t ht
  induction h with
  | nil => cases ht
  | cons first _ ih =>
    rcases List.mem_cons.mp ht with rfl | ht
    · exact List.mem_of_getElem? first.2.1
    · exact ih ht

end Names

/-! ### Numbers that stand for something -/

section Codes

variable {fault : Fault α}

omit [Number α] in
theorem readKind_eq_ok_iff {v : VariableMessage α} {kind : VariableKind} :
    v.readKind = .ok kind ↔ kindOfNumber? v.kind = some kind := by
  rw [VariableMessage.readKind]
  cases kindOfNumber? v.kind <;> simp

omit [Number α] in
theorem readKind_eq_error_iff {v : VariableMessage α} :
    v.readKind = .error fault ↔ kindOfNumber? v.kind = none
      ∧ fault = .configuration
        ("invalid type " ++ toString v.kind ++ " for variable '" ++ v.name ++ "'") := by
  rw [VariableMessage.readKind]
  cases kindOfNumber? v.kind <;> simp [eq_comm]

omit [Number α] in
theorem readRelation_eq_ok_iff {c : ConstraintMessage α} {relation : Relation} :
    c.readRelation = .ok relation ↔ relationOfNumber? c.relation = some relation := by
  rw [ConstraintMessage.readRelation]
  cases relationOfNumber? c.relation <;> simp

omit [Number α] in
theorem readRelation_eq_error_iff {c : ConstraintMessage α} :
    c.readRelation = .error fault ↔ relationOfNumber? c.relation = none
      ∧ fault = .configuration
        ("invalid relation " ++ toString c.relation ++ " in constraint '" ++ c.name ++ "'") := by
  rw [ConstraintMessage.readRelation]
  cases relationOfNumber? c.relation <;> simp [eq_comm]

omit [Number α] in
theorem readSense_eq_ok_iff {o : ObjectiveMessage α} {sense : Sense} :
    o.readSense = .ok sense ↔ senseOfNumber? o.sense = some sense := by
  rw [ObjectiveMessage.readSense]
  cases senseOfNumber? o.sense <;> simp

omit [Number α] in
theorem readSense_eq_error_iff {o : ObjectiveMessage α} :
    o.readSense = .error fault ↔ senseOfNumber? o.sense = none
      ∧ fault = .configuration ("invalid optimization type " ++ toString o.sense) := by
  rw [ObjectiveMessage.readSense]
  cases senseOfNumber? o.sense <;> simp [eq_comm]

end Codes

/-! ## The entries of a message -/

/-- **Entries that are still to come**, for a model of an identity. Its names and those that
the entries declare are together the given ones, and the entries that declare something come
first. -/
structure Awaits (id : ModelId) (names : List String) (m : Model α) (entries : List (Entry α)) :
    Prop where
  wellFormed : m.IsWellFormed
  identity : m.id = id
  names : m.vars.map (·.name) ++ entries.filterMap Entry.declares? = names
  first : entries.Pairwise fun a b => a.declares? = none → b.declares? = none

section Awaits

variable {id : ModelId} {names : List String} {m grown : Model α} {entry : Entry α}
  {entries : List (Entry α)} {step : BuildStep α} {fault : Fault α}

omit [Number α] in
/-- An entry that declares nothing finds all names declared. -/
theorem Awaits.all_declared (h : Awaits id names m (entry :: entries))
    (declares : entry.declares? = none) : m.vars.map (·.name) = names := by
  have hrest : (entry :: entries).filterMap Entry.declares? = [] := by
    rw [List.filterMap_eq_nil_iff]
    exact List.forall_mem_cons.mpr
      ⟨declares, fun b hb => (List.pairwise_cons.mp h.first).1 b hb declares⟩
  rw [← h.names, hrest, List.append_nil]

theorem Awaits.readExpression_eq_ok_iff (h : Awaits id names m (entry :: entries))
    (declares : entry.declares? = none) {terms : List (String × α)} {e : Affine α} :
    readExpression m terms = .ok e
      ↔ ∃ read, List.Forall₂ (Stands id names) terms read ∧ .ofTerms read = e := by
  rw [← h.identity]
  exact Service.readExpression_eq_ok_iff h.wellFormed (h.all_declared declares)

theorem Awaits.readExpression_eq_error_iff (h : Awaits id names m (entry :: entries))
    (declares : entry.declares? = none) {terms : List (String × α)} :
    readExpression m terms = .error fault
      ↔ ∃ name, FirstUndeclared names terms name
        ∧ fault = .unboundVariable (.described ("'" ++ name ++ "'")) :=
  Service.readExpression_eq_error_iff h.wellFormed (h.all_declared declares)

/-- **What an entry is read as** is what it says. -/
theorem Awaits.read_iff (h : Awaits id names m (entry :: entries)) :
    entry.read m = .ok step ↔ Says id names entry step := by
  cases entry with
  | var v =>
    rw [Entry.read, map_eq_ok_iff]
    constructor
    · rintro ⟨kind, hkind, rfl⟩
      exact .declare (readKind_eq_ok_iff.mp hkind)
    · rintro ⟨known⟩
      exact ⟨_, readKind_eq_ok_iff.mpr known, rfl⟩
  | constraint c =>
    rw [Entry.read, bind_eq_ok_iff]
    constructor
    · rintro ⟨e, he, hread⟩
      obtain ⟨relation, hrelation, hread⟩ := bind_eq_ok_iff.mp hread
      obtain ⟨terms, hstand, rfl⟩ := (h.readExpression_eq_ok_iff rfl).mp he
      obtain rfl := Except.ok.inj hread
      exact .constrain (readRelation_eq_ok_iff.mp hrelation) hstand
    · rintro ⟨⟩
      rename_i relation terms known hstand
      exact ⟨_, (h.readExpression_eq_ok_iff rfl).mpr ⟨terms, hstand, rfl⟩,
        bind_eq_ok_iff.mpr ⟨relation, readRelation_eq_ok_iff.mpr known, rfl⟩⟩
  | objective o =>
    rw [Entry.read, bind_eq_ok_iff]
    constructor
    · rintro ⟨sense, hsense, hread⟩
      obtain ⟨e, he, hread⟩ := bind_eq_ok_iff.mp hread
      obtain ⟨terms, hstand, rfl⟩ := (h.readExpression_eq_ok_iff rfl).mp he
      obtain rfl := Except.ok.inj hread
      exact .optimize (readSense_eq_ok_iff.mp hsense) hstand
    · rintro ⟨⟩
      rename_i sense terms known hstand
      exact ⟨sense, readSense_eq_ok_iff.mpr known,
        bind_eq_ok_iff.mpr ⟨_, (h.readExpression_eq_ok_iff rfl).mpr ⟨terms, hstand, rfl⟩, rfl⟩⟩

/-- **Why an entry cannot be read.** -/
theorem Awaits.misread_iff (h : Awaits id names m (entry :: entries)) :
    entry.read m = .error fault ↔ Misread names entry fault := by
  cases entry with
  | var v =>
    rw [Entry.read, map_eq_error_iff, readKind_eq_error_iff]
    constructor
    · rintro ⟨unknown, rfl⟩
      exact .kind unknown
    · rintro ⟨unknown⟩
      exact ⟨unknown, rfl⟩
  | constraint c =>
    -- the terms are looked up first, so a relation is at fault only if they are declared
    rw [Entry.read, bind_eq_error_iff, h.readExpression_eq_error_iff rfl]
    constructor
    · rintro (⟨name, undeclared, rfl⟩ | ⟨e, he, hread⟩)
      · exact .term undeclared
      · obtain ⟨terms, hstand, rfl⟩ := (h.readExpression_eq_ok_iff rfl).mp he
        rcases bind_eq_error_iff.mp hread with hread | ⟨_, _, hread⟩
        · obtain ⟨unknown, rfl⟩ := readRelation_eq_error_iff.mp hread
          exact .relation (mem_of_stands hstand) unknown
        · cases hread
    · intro wrong
      cases wrong with
      | term undeclared => exact .inl ⟨_, undeclared, rfl⟩
      | relation declared unknown =>
        obtain ⟨e, he⟩ := exists_readExpression h.wellFormed (h.all_declared rfl) declared
        refine .inr ⟨e, he, bind_eq_error_iff.mpr (.inl ?_)⟩
        exact readRelation_eq_error_iff.mpr ⟨unknown, rfl⟩
  | objective o =>
    -- here it is the other way round
    rw [Entry.read, bind_eq_error_iff]
    constructor
    · rintro (hread | ⟨sense, hsense, hread⟩)
      · obtain ⟨unknown, rfl⟩ := readSense_eq_error_iff.mp hread
        exact .sense unknown
      · rcases bind_eq_error_iff.mp hread with hread | ⟨_, _, hread⟩
        · obtain ⟨name, undeclared, rfl⟩ := (h.readExpression_eq_error_iff rfl).mp hread
          exact .objectiveTerm (readSense_eq_ok_iff.mp hsense) undeclared
        · cases hread
    · intro wrong
      cases wrong with
      | sense unknown => exact .inl (readSense_eq_error_iff.mpr ⟨unknown, rfl⟩)
      | objectiveTerm known undeclared =>
        refine .inr ⟨_, readSense_eq_ok_iff.mpr known, bind_eq_error_iff.mpr (.inl ?_)⟩
        exact (h.readExpression_eq_error_iff rfl).mpr ⟨_, undeclared, rfl⟩

theorem Awaits.addTo_eq_ok_iff (h : Awaits id names m (entry :: entries)) :
    entry.addTo m = .ok grown ↔ ∃ step, Says id names entry step ∧ m.apply step = .ok grown := by
  rw [Entry.addTo_eq, bind_eq_ok_iff]
  exact exists_congr fun step => and_congr_left' h.read_iff

theorem Awaits.addTo_eq_error_iff (h : Awaits id names m (entry :: entries)) :
    entry.addTo m = .error fault ↔ Offends id names m entry fault := by
  rw [Entry.addTo_eq, bind_eq_error_iff, h.misread_iff]
  constructor
  · rintro (wrong | ⟨step, hread, refuses⟩)
    · exact .misread wrong
    · exact .refused step (h.read_iff.mp hread) refuses
  · rintro (wrong | ⟨step, said, refuses⟩)
    · exact .inl wrong
    · exact .inr ⟨step, h.read_iff.mpr said, refuses⟩

/-- **One entry less** is to come. -/
theorem Awaits.apply (h : Awaits id names m (entry :: entries)) (said : Says id names entry step)
    (hok : m.apply step = .ok grown) : Awaits id names grown entries where
  wellFormed := h.wellFormed.apply hok
  identity := (Model.id_name_of_apply hok).1.trans h.identity
  names := by
    rw [← h.names, Model.vars_of_apply hok, List.map_append, List.append_assoc]
    refine congrArg (m.vars.map (·.name) ++ ·) ?_
    cases said <;> rfl
  first := (List.pairwise_cons.mp h.first).2

/-- **Entries one after the other** are read as the steps that they say. -/
theorem Awaits.foldlM_eq_ok_iff {before after : List (Entry α)}
    (h : Awaits id names m (before ++ after)) :
    before.foldlM Entry.addTo m = .ok grown
      ↔ ∃ steps, List.Forall₂ (Says id names) before steps ∧ m.applyAll steps = .ok grown := by
  induction before generalizing m with
  | nil =>
    constructor
    · intro hread
      exact ⟨[], .nil, hread⟩
    · rintro ⟨steps, hsaid, hbuilt⟩
      cases hsaid
      exact hbuilt
  | cons entry before ih =>
    rw [List.foldlM_cons, bind_eq_ok_iff]
    constructor
    · rintro ⟨next, hentry, hrest⟩
      obtain ⟨step, hsaid, hstep⟩ := h.addTo_eq_ok_iff.mp hentry
      obtain ⟨steps, hall, hbuilt⟩ := (ih (h.apply hsaid hstep)).mp hrest
      exact ⟨step :: steps, .cons hsaid hall,
        Model.applyAll_cons_eq_ok_iff.mpr ⟨next, hstep, hbuilt⟩⟩
    · rintro ⟨steps, hsaid, hbuilt⟩
      cases hsaid with
      | cons hfirst hall =>
        obtain ⟨next, hstep, hrest⟩ := Model.applyAll_cons_eq_ok_iff.mp hbuilt
        exact ⟨next, h.addTo_eq_ok_iff.mpr ⟨_, hfirst, hstep⟩,
          (ih (h.apply hfirst hstep)).mpr ⟨_, hall, hrest⟩⟩

theorem Awaits.applyAll {before after : List (Entry α)} {steps : List (BuildStep α)}
    (h : Awaits id names m (before ++ after)) (said : List.Forall₂ (Says id names) before steps)
    (hok : m.applyAll steps = .ok grown) : Awaits id names grown after := by
  induction said generalizing m with
  | nil =>
    obtain rfl : m = grown := Except.ok.inj hok
    exact h
  | cons hfirst _ ih =>
    obtain ⟨next, hstep, hrest⟩ := Model.applyAll_cons_eq_ok_iff.mp hok
    exact ih (h.apply hfirst hstep) hrest

omit [Number α] in
theorem filterMap_entries {β : Type} (part? : Entry α → Option β) (message : ModelMessage α) :
    message.entries.filterMap part?
      = message.vars.filterMap (fun v => part? (.var v))
        ++ (message.constraints.filterMap (fun c => part? (.constraint c))
          ++ message.objective.toList.filterMap fun o => part? (.objective o)) := by
  rw [ModelMessage.entries, List.filterMap_append, List.filterMap_append, List.filterMap_map,
    List.filterMap_map, List.filterMap_map]
  rfl

omit [Number α] in
/-- What stands behind the variables declares nothing. -/
theorem declares?_eq_none (message : ModelMessage α) :
    ∀ entry ∈ message.constraints.map Entry.constraint
      ++ message.objective.toList.map Entry.objective, entry.declares? = none := by
  rw [List.forall_mem_append, List.forall_mem_map, List.forall_mem_map]
  exact ⟨fun _ _ => rfl, fun _ _ => rfl⟩

/-- **The empty model awaits every message.** -/
theorem awaits_entries (id : ModelId) (message : ModelMessage α) :
    Awaits id message.varNames (Model.empty id message.name) message.entries where
  wellFormed := Model.isWellFormed_empty id message.name
  identity := rfl
  names := by
    rw [filterMap_entries]
    simp [Entry.declares?, ModelMessage.varNames, Model.empty]
  first := by
    have hrest := declares?_eq_none message
    rw [ModelMessage.entries, List.pairwise_append]
    refine ⟨List.pairwise_map.mpr (List.pairwise_of_forall fun _ _ hnone => ?_),
      List.pairwise_of_forall_mem_list fun _ _ b hb _ => hrest b hb, fun _ _ b hb _ => hrest b hb⟩
    -- a variable declares its name
    cases hnone

end Awaits

end Milp.Service
