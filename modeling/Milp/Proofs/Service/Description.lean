/-
What the model of a message holds.

A message is read entry by entry (`Milp.Proofs.Service.Entries`), so its model is built from
the steps that the entries say, and what a model that was built holds is known from its steps
(`Milp.Proofs.Model.History`). Here both are put together: the model has the variables of the
message, its constraints, each under its own name or that of its position, and its objective
(`Describes`).

A model stores the coefficients of a variable merged. Names are distinct and stand for one
variable each, so what is merged for a variable are the coefficients that the message gives
to its name (`coefficientsOf_of_stands`).
-/
import Milp.Proofs.Affine.Coefficients
import Milp.Proofs.Number.Finite
import Milp.Proofs.Service.Entries

set_option autoImplicit false

namespace Milp.Service

open Number (Finitary)

variable {α : Type} [Number α]

/-! ## What a message describes -/

omit [Number α] in
/-- The coefficients that terms give to a name, in their order. -/
def coefficientsNamed (terms : List (String × α)) (name : String) : List α :=
  (terms.filter fun t => t.1 == name).map Prod.snd

/-- **The sums of terms.** What is stored names a variable at most once. It has a coefficient
for a variable exactly if the terms name that variable and what they give to it does not add
up to zero, and then this sum is the coefficient. -/
structure StoresSums (id : ModelId) (names : List String) (terms : List (String × α))
    (stored : List (Handle × α)) : Prop where
  distinct : (stored.map Prod.fst).Nodup
  sums : ∀ h total, (h, total) ∈ stored ↔ h.model = id ∧ ∃ name, names[h.index]? = some name
    ∧ Affine.IsSumOf (coefficientsNamed terms name) total ∧ (total == 0) = false

/-- A variable with the bounds of its message; absent bounds are zero below and infinite
above, and those of a binary variable are cut down. -/
structure VariableMessage.Describes (v : VariableMessage α) (w : Variable α) : Prop where
  name : w.name = v.name
  kind : kindOfNumber? v.kind = some w.kind
  bounds : w.bounds = w.kind.effectiveBounds ⟨v.lower.getD 0, v.upper.getD Number.posInf⟩

/-- A constraint at a position, which gives it a name if it has none of its own. -/
structure ConstraintMessage.Describes (id : ModelId) (names : List String) (position : Nat)
    (c : ConstraintMessage α) (k : Constraint α) : Prop where
  name : k.name = if c.name.isEmpty then "c" ++ toString position else c.name
  relation : relationOfNumber? c.relation = some k.relation
  terms : StoresSums id names c.terms k.terms
  rhs : k.rhs = c.rhs

structure ObjectiveMessage.Describes (id : ModelId) (names : List String)
    (o : ObjectiveMessage α) (k : Objective α) : Prop where
  sense : senseOfNumber? o.sense = some k.sense
  terms : StoresSums id names o.terms k.terms
  constant : k.constant = o.constant

/-- **A model as a message describes it.** -/
structure ModelMessage.Describes (id : ModelId) (message : ModelMessage α) (m : Model α) :
    Prop where
  identity : m.id = id
  name : m.name = message.name
  vars : List.Forall₂ VariableMessage.Describes message.vars m.vars
  constraints : List.Forall₂
    (fun c k => c.1.Describes id message.varNames c.2 k) message.constraints.zipIdx m.constraints
  /-- Without an objective in the message, zero is minimized. -/
  objective : match message.objective with
    | some o => o.Describes id message.varNames m.objective
    | none => m.objective = .initial

/-! ## Sums -/

section Sums

variable {id : ModelId} {names : List String} {terms : List (String × α)}
  {read : List (Handle × α)}

omit [Number α] in
/-- **A name and the variable it stands for** are given the same coefficients. -/
theorem coefficientsOf_of_stands (distinct : names.Nodup)
    (h : List.Forall₂ (Stands id names) terms read) {k : Handle} (own : k.model = id)
    {name : String} (named : names[k.index]? = some name) :
    Affine.coefficientsOf read k = coefficientsNamed terms name := by
  induction h with
  | nil => rfl
  | @cons term t _ _ first _ ih =>
    obtain ⟨hmodel, hname, hcoefficient⟩ := first
    -- the names are distinct, so another name is another variable
    have hsame : (t.1 == k) = (term.1 == name) := by
      rw [Bool.eq_iff_iff, beq_iff_eq, beq_iff_eq]
      constructor
      · rintro rfl
        exact Option.some.inj (hname.symm.trans named)
      · intro heq
        rw [heq] at hname
        obtain ⟨hlt, -⟩ := List.getElem?_eq_some_iff.mp hname
        have hindex := (List.getElem?_inj hlt distinct).mp (hname.trans named.symm)
        rw [show t.1 = ⟨t.1.model, t.1.index⟩ from rfl, hmodel, hindex, ← own]
    rw [Affine.coefficientsOf, coefficientsNamed, List.filter_cons, List.filter_cons, hsame]
    cases term.1 == name with
    | true =>
      show t.2 :: Affine.coefficientsOf _ k = term.2 :: coefficientsNamed _ name
      rw [ih, hcoefficient]
    | false => exact ih

omit [Number α] in
theorem stands_of_mem (h : List.Forall₂ (Stands id names) terms read) {t : Handle × α}
    (ht : t ∈ read) : t.1.model = id ∧ ∃ name, names[t.1.index]? = some name := by
  induction h with
  | nil => cases ht
  | cons first _ ih =>
    rcases List.mem_cons.mp ht with rfl | ht
    · exact ⟨first.1, _, first.2.1⟩
    · exact ih ht

/-- **What is stored of terms** are their sums. -/
theorem storesSums_normalizedTerms (distinct : names.Nodup)
    (h : List.Forall₂ (Stands id names) terms read) {e : Affine α} (he : e.terms = read) :
    StoresSums id names terms e.normalizedTerms where
  distinct := Affine.nodup_handles_normalizedTerms e
  sums k total := by
    rw [Affine.mem_normalizedTerms_iff, he]
    constructor
    · rintro ⟨hsum, hnonzero⟩
      have ⟨first, rest, hcoefficients, _⟩ := hsum
      have hmem : (k, first) ∈ read :=
        Affine.mem_of_mem_coefficientsOf (by rw [hcoefficients]; exact List.mem_cons_self)
      obtain ⟨hmodel, name, hname⟩ := stands_of_mem h hmem
      rw [coefficientsOf_of_stands distinct h hmodel hname] at hsum
      exact ⟨hmodel, name, hname, hsum, hnonzero⟩
    · rintro ⟨hmodel, name, hname, hsum, hnonzero⟩
      rw [← coefficientsOf_of_stands distinct h hmodel hname] at hsum
      exact ⟨hsum, hnonzero⟩

end Sums

/-! ## From the steps -/

def Entry.var? : Entry α → Option (VariableMessage α)
  | .var v => some v
  | _ => none

def Entry.constraint? : Entry α → Option (ConstraintMessage α)
  | .constraint c => some c
  | _ => none

def Entry.objective? : Entry α → Option (ObjectiveMessage α)
  | .objective o => some o
  | _ => none

section Steps

variable {id : ModelId} {names : List String} {entries : List (Entry α)}
  {steps : List (BuildStep α)}

/-- A constraint is posed as a message has it. -/
structure ConstraintMessage.Poses (id : ModelId) (names : List String) (c : ConstraintMessage α)
    (q : Posed α) : Prop where
  name : q.name = c.ownName?
  relation : relationOfNumber? c.relation = some q.relation
  terms : List.Forall₂ (Stands id names) c.terms q.expression.terms
  constant : q.expression.constant = 0
  rhs : q.rhs = c.rhs

theorem describes_declared (said : List.Forall₂ (Says id names) entries steps) :
    List.Forall₂ VariableMessage.Describes (entries.filterMap Entry.var?)
      (Model.declared steps) := by
  refine List.rel_filterMap (R := Says id names) ?_ said
  rintro _ _ (known | _ | _)
  · exact .some ⟨rfl, known, rfl⟩
  · exact .none
  · exact .none

theorem poses_posed (said : List.Forall₂ (Says id names) entries steps) :
    List.Forall₂ (ConstraintMessage.Poses id names) (entries.filterMap Entry.constraint?)
      (Model.posed steps) := by
  refine List.rel_filterMap (R := Says id names) ?_ said
  rintro _ _ (_ | ⟨known, stand⟩ | _)
  · exact .none
  · exact .some ⟨rfl, known, stand, rfl, rfl⟩
  · exact .none

/-- An objective is set as a message has it. -/
structure ObjectiveMessage.Sets (id : ModelId) (names : List String) (o : ObjectiveMessage α)
    (set : Affine α × Sense) : Prop where
  sense : senseOfNumber? o.sense = some set.2
  terms : List.Forall₂ (Stands id names) o.terms set.1.terms
  constant : set.1.constant = o.constant

theorem sets_objectives (said : List.Forall₂ (Says id names) entries steps) :
    List.Forall₂ (ObjectiveMessage.Sets id names) (entries.filterMap Entry.objective?)
      (steps.filterMap BuildStep.newObjective?) := by
  refine List.rel_filterMap (R := Says id names) ?_ said
  rintro _ _ (_ | _ | ⟨known, stand⟩)
  · exact .none
  · exact .none
  · exact .some ⟨known, stand, rfl⟩

theorem describes_stored [Finitary α] (distinct : names.Nodup) {c : ConstraintMessage α}
    {q : Posed α} (poses : c.Poses id names q) (number : Number.isNaN q.rhs = false)
    (position : Nat) : c.Describes id names position (q.stored position) where
  name := by
    rw [Posed.stored, poses.name, ConstraintMessage.ownName?]
    cases c.name.isEmpty <;> rfl
  relation := poses.relation
  terms := storesSums_normalizedTerms distinct poses.terms rfl
  rhs := by
    show q.rhs - q.expression.constant = c.rhs
    rw [poses.constant, Finitary.sub_zero q.rhs number, poses.rhs]

theorem describes_ofAffine (distinct : names.Nodup) {o : ObjectiveMessage α}
    {set : Affine α × Sense} (sets : o.Sets id names set) :
    o.Describes id names (Objective.ofAffine set.1 set.2) :=
  ⟨sets.sense, storesSums_normalizedTerms distinct sets.terms rfl, sets.constant⟩

end Steps

/-! ## The model of a message -/

section Model

variable {id : ModelId} {message : ModelMessage α} {steps : List (BuildStep α)} {m : Model α}

omit [Number α] in
theorem vars_entries (message : ModelMessage α) :
    message.entries.filterMap Entry.var? = message.vars := by
  simp [filterMap_entries, Entry.var?]

omit [Number α] in
theorem constraints_entries (message : ModelMessage α) :
    message.entries.filterMap Entry.constraint? = message.constraints := by
  simp [filterMap_entries, Entry.constraint?]

omit [Number α] in
theorem objective_entries (message : ModelMessage α) :
    message.entries.filterMap Entry.objective? = message.objective.toList := by
  simp [filterMap_entries, Entry.objective?]

/-- **What is built from the steps of a message** is as the message describes it. -/
theorem describes_of_build [Finitary α]
    (said : List.Forall₂ (Says id message.varNames) message.entries steps)
    (built : Model.build id message.name steps = .ok m) : message.Describes id m := by
  have hawaits := awaits_entries id message
  rw [← List.append_nil message.entries] at hawaits
  have hread := hawaits.applyAll said built
  have hnames : m.vars.map (·.name) = message.varNames := by
    rw [← hread.names]
    exact (List.append_nil _).symm
  -- no name is declared twice, or there would be no model
  have distinct : message.varNames.Nodup := hnames ▸ hread.wellFormed.names
  obtain ⟨hvars, hconstraints, hobjective⟩ := Model.build_history built
  refine ⟨hread.identity, ?_, ?_, ?_, ?_⟩
  · exact Model.build_induction (P := fun m => m.name = message.name) built rfl
      fun _ _ _ hm hok => (Model.id_name_of_apply hok).2.trans hm
  · rw [hvars, ← vars_entries message]
    exact describes_declared said
  · have hposed := poses_posed said
    rw [constraints_entries, List.forall₂_iff_get] at hposed
    rw [hconstraints, List.forall₂_iff_get]
    refine ⟨by simpa using hposed.1, fun i hi hi' => ?_⟩
    rw [List.length_zipIdx] at hi
    rw [List.length_mapIdx] at hi'
    have hdescribes := describes_stored distinct (hposed.2 i hi hi')
      (Model.passed_of_mem_posed built (List.getElem_mem hi')).1 i
    simpa using hdescribes
  · rw [hobjective, Model.lastObjective]
    have hset := sets_objectives said
    rw [objective_entries] at hset
    cases hmessage : message.objective with
    | none =>
      rw [hmessage] at hset
      rw [List.forall₂_nil_left_iff.mp hset]
      rfl
    | some o =>
      rw [hmessage] at hset
      obtain ⟨set, _, hsets, hrest, heq⟩ := List.forall₂_cons_left_iff.mp hset
      rw [heq, List.forall₂_nil_left_iff.mp hrest]
      exact describes_ofAffine distinct hsets

/-- **A message is read as its entries say.** It has a model exactly if every entry says a
step and the steps build that model; the model is as the message describes it; and there is
a fault exactly if one of the entries offends with that fault, while those before it are
built. -/
theorem toModel_of_entries [Finitary α] (id : ModelId) (message : ModelMessage α) :
    (∀ m, message.toModel id = .ok m
      ↔ ∃ steps, List.Forall₂ (Says id message.varNames) message.entries steps
        ∧ Model.build id message.name steps = .ok m)
    ∧ (∀ m, message.toModel id = .ok m → message.Describes id m)
    ∧ ∀ fault, message.toModel id = .error fault
      ↔ ∃ before entry after steps m, message.entries = before ++ entry :: after
        ∧ List.Forall₂ (Says id message.varNames) before steps
        ∧ Model.build id message.name steps = .ok m
        ∧ Offends id message.varNames m entry fault := by
  have hbuilds : ∀ m, message.toModel id = .ok m
      ↔ ∃ steps, List.Forall₂ (Says id message.varNames) message.entries steps
        ∧ Model.build id message.name steps = .ok m := by
    intro m
    have hawaits := awaits_entries id message
    rw [← List.append_nil message.entries] at hawaits
    rw [message.toModel_eq]
    exact hawaits.foldlM_eq_ok_iff
  refine ⟨hbuilds, fun m hm => ?_, fun fault => ?_⟩
  · obtain ⟨steps, said, built⟩ := (hbuilds m).mp hm
    exact describes_of_build said built
  · have hawaits := awaits_entries id message
    rw [message.toModel_eq, Attempt.foldlM_eq_error_iff]
    -- both sides split the entries in the same place
    constructor
    · rintro ⟨before, entry, after, m, hentries, hbefore, hfails⟩
      rw [hentries] at hawaits
      obtain ⟨steps, said, built⟩ := hawaits.foldlM_eq_ok_iff.mp hbefore
      have hoffends := (hawaits.applyAll said built).addTo_eq_error_iff.mp hfails
      exact ⟨before, entry, after, steps, m, hentries, said, built, hoffends⟩
    · rintro ⟨before, entry, after, steps, m, hentries, said, built, hoffends⟩
      rw [hentries] at hawaits
      have hfails := (hawaits.applyAll said built).addTo_eq_error_iff.mpr hoffends
      have hbefore := hawaits.foldlM_eq_ok_iff.mpr ⟨steps, said, built⟩
      exact ⟨before, entry, after, m, hentries, hbefore, hfails⟩

/-! ### A name that comes more than once -/

/-- The second constraint names `y` with coefficients that cancel, and has a name of its
own. -/
def repeating : ModelMessage ExtRat where
  name := "plan"
  vars := [⟨"x", 0, none, none⟩, ⟨"y", 2, none, some (.fin 5)⟩]
  constraints := [⟨"", 0, [("x", .fin 1), ("y", .fin 2), ("x", .fin 3)], .fin 4⟩,
    ⟨"cap", 2, [("y", .fin 1), ("x", .fin 1), ("y", .fin (-1))], .fin 0⟩]
  objective := some ⟨1, [("y", .fin 1)], .fin 7⟩

def repeatingModel : Model ExtRat where
  id := ⟨1⟩
  name := "plan"
  vars := [⟨"x", .continuous, ⟨.fin 0, .posInf⟩⟩, ⟨"y", .binary, ⟨.fin 0, .fin 1⟩⟩]
  constraints := [⟨"c0", [(⟨⟨1⟩, 0⟩, .fin 4), (⟨⟨1⟩, 1⟩, .fin 2)], .atMost, .fin 4⟩,
    ⟨"cap", [(⟨⟨1⟩, 0⟩, .fin 1)], .atLeast, .fin 0⟩]
  objective := ⟨.maximize, [(⟨⟨1⟩, 1⟩, .fin 1)], .fin 7⟩

/-- The same message with a constraint that names something else. -/
def misnaming : ModelMessage ExtRat :=
  { repeating with constraints := [⟨"", 0, [("x", .fin 1), ("z", .fin 2)], .fin 4⟩] }

theorem toModel_of_entries_repeating :
    repeating.toModel ⟨1⟩ = .ok repeatingModel ∧ repeating.Describes ⟨1⟩ repeatingModel
      ∧ misnaming.toModel ⟨1⟩ = .error (.unboundVariable (.described ("'" ++ "z" ++ "'"))) := by
  have hread : repeating.toModel ⟨1⟩ = .ok repeatingModel := by with_unfolding_all rfl
  have hvars : Model.build ⟨1⟩ "plan"
      [.declare "x" .continuous ⟨0, Number.posInf⟩, .declare "y" .binary ⟨0, .fin 5⟩]
        = .ok (Model.ofVariables ⟨1⟩ "plan" repeatingModel.vars) := by
    with_unfolding_all rfl
  have hundeclared : FirstUndeclared misnaming.varNames [("x", ExtRat.fin 1), ("z", .fin 2)] "z" :=
    ⟨[("x", .fin 1)], .fin 2, [], rfl, by decide, by decide⟩
  refine ⟨hread, (toModel_of_entries ⟨1⟩ repeating).2.1 _ hread, ?_⟩
  exact ((toModel_of_entries ⟨1⟩ misnaming).2.2 _).mpr ⟨_, _, _, _, _, rfl,
    .cons (.declare rfl) (.cons (.declare rfl) .nil), hvars, .misread (.term hundeclared)⟩

end Model

end Milp.Service
