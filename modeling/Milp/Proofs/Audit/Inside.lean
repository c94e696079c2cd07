/-
Where the values that are handed on lie.

A value that passes the check need not lie inside the bounds of its variable, only within the
tolerance of them. Cleaning moves it: to the nearest number inside, or where only whole numbers
are allowed to the nearest whole number. The first is inside. The second has never been compared
with the bounds, which need not be whole (`Variable.Receives`): with a tolerance below a half it
is outside exactly if it is a bound that is not whole, rounded outwards.

Nothing here depends on how the numbers are represented. The carrier may round differences, as
long as it does not round them past its own numbers.
-/
import Milp.Proofs.Audit.Outcomes
import Milp.Proofs.Interval.Readings
import Milp.Proofs.Model.History

set_option autoImplicit false

namespace Milp

open Number (Faithful)

variable {α : Type} [Number α]

/-- What a variable may receive for a value that passed with a tolerance. -/
structure Variable.Receives (v : Variable α) (tolerance value received : α) : Prop where
  inside : v.isIntegral = false → received = v.bounds.clamp value ∧ v.bounds.Has received
  whole : v.isIntegral = true → received = Number.round value ∧ Number.isFinite received = true
    ∧ Number.isWhole received = true
  outside : v.isIntegral = true → Number.lt tolerance 0.5 = true →
    (¬ v.bounds.Has received ↔ v.bounds.IsRoundedOut received)

namespace Audit

variable {tolerance : α} {m : Model α}

theorem checkValue_of_ok {v : Variable α} {value : α} {r : CheckedValue α}
    (h : checkValue tolerance v value = .ok r) :
    Number.isFinite value = true
      ∧ Number.gt (v.bounds.violation value) tolerance = false
      ∧ (v.isIntegral = true → Number.gt (Number.integralityGap value) tolerance = false
          ∧ r.value = Number.round value)
      ∧ (v.isIntegral = false → r.value = v.bounds.clamp value) := by
  rw [checkValue] at h
  dsimp only at h
  split_ifs at h with hfinite hinside hintegral hgap
  · cases h
  · cases h
  · cases h
  · obtain rfl := Except.ok.inj h
    simp_all
  · obtain rfl := Except.ok.inj h
    simp_all

/-- Value by value, what is returned is what a variable's check made of the value. -/
theorem checked_of_check {values cleaned : List α} {quality : Quality α}
    (h : check tolerance m values = .ok (cleaned, quality)) :
    values.length = m.vars.length
      ∧ List.Forall₂ (fun (entry : Variable α × α) y =>
          ∃ r, checkValue tolerance entry.1 entry.2 = .ok r ∧ y = r.value)
        (m.vars.zip values) cleaned := by
  obtain ⟨len, checked, violations, hchecked, -, rfl, -⟩ := check_ok_iff.mp h
  rw [checkValues, Attempt.mapM_eq_ok_iff] at hchecked
  refine ⟨len, ?_⟩
  rw [List.forall₂_map_right_iff]
  exact hchecked.imp fun entry r hr => ⟨r, hr, rfl⟩

section Faithful

variable [Faithful α]

theorem receives_of_checkValue {v : Variable α} (valid : v.bounds.isValid = true) {value : α}
    {r : CheckedValue α} (h : checkValue tolerance v value = .ok r) :
    v.Receives tolerance value r.value := by
  obtain ⟨finite, inside, hintegral, hother⟩ := checkValue_of_ok h
  constructor
  · intro hkind
    rw [hother hkind]
    exact ⟨rfl, Interval.has_clamp valid finite⟩
  · intro hkind
    rw [(hintegral hkind).2]
    exact ⟨rfl, Number.isFinite_round finite, Number.isWhole_round finite⟩
  · intro hkind ht
    obtain ⟨whole, hround⟩ := hintegral hkind
    rw [hround]
    exact Interval.not_has_round_iff valid ht finite inside whole

/-- **Where handed on values lie.** Of a model that was built, whatever a solver answers: if the
outcome has an assignment, it consists of one value for each variable. A value that need not be
whole is inside the declared bounds. Every other value is the whole number nearest to what the
solver reported; with a tolerance below a half it is outside the declared bounds exactly if it is
a bound that is not whole, rounded outwards. -/
theorem outcome_hands_on {id : ModelId} {name : String} {steps : List (BuildStep α)}
    (built : Model.build id name steps = .ok m) {backend : String} {answer : Answer α}
    {o : Outcome α} (passes : outcome tolerance m backend answer = .ok o) {a : Assignment α}
    (there : o.assignment = some a) :
    ∃ reported, answer.values = some reported ∧ reported.length = m.vars.length
      ∧ List.Forall₂ (fun (entry : Variable α × α) y => entry.1.Receives tolerance entry.2 y)
        (m.vars.zip reported) a.values := by
  obtain ⟨reported, hreported, hcheck, -⟩ := (outcome_eq_ok_iff.mp passes).assignment there
  obtain ⟨len, hchecked⟩ := checked_of_check hcheck
  refine ⟨reported, hreported, len, ?_⟩
  rw [List.forall₂_iff_zip] at hchecked ⊢
  refine ⟨hchecked.1, fun {entry y} hmem => ?_⟩
  obtain ⟨r, hr, rfl⟩ := hchecked.2 hmem
  have hentry := List.of_mem_zip (List.of_mem_zip hmem).1
  exact receives_of_checkValue (Model.isValid_of_build built _ hentry.1) hr

end Faithful

/-- Maximize a whole `x` up to just below 3. -/
def shelfSteps : List (BuildStep ExtRat) :=
  [.declare "x" .integer ⟨.fin 0, .fin (29999995 / 10000000)⟩,
    .optimize (.ofHandle ⟨⟨1⟩, 0⟩) .maximize]

/-- The model that these steps build. -/
def shelf : Model ExtRat where
  id := ⟨1⟩
  name := ""
  vars := [⟨"x", .integer, ⟨.fin 0, .fin (29999995 / 10000000)⟩⟩]
  constraints := []
  objective := ⟨.maximize, [(⟨⟨1⟩, 0⟩, .fin 1)], .fin 0⟩

theorem shelf_built : Model.build ⟨1⟩ "" shelfSteps = .ok shelf := by
  with_unfolding_all rfl

/-- An answer that goes as far as the bound allows. -/
def fullShelf : Answer ExtRat :=
  ⟨.optimal, some [.fin (29999995 / 10000000)], none, 0, 0, "", none⟩

theorem fullShelf_passes : ∃ o a, outcome (.fin (1 / 1000000)) shelf "lp" fullShelf = .ok o
    ∧ o.assignment = some a ∧ a.values = [.fin 3] := by
  have hrun : (outcome (.fin (1 / 1000000)) shelf "lp" fullShelf).toOption.bind
      (fun o => o.assignment.map (·.values)) = some [.fin 3] := by decide +kernel
  obtain ⟨o, ho, ha⟩ := Option.bind_eq_some_iff.mp hrun
  obtain ⟨a, ha, hvalues⟩ := Option.map_eq_some_iff.mp ha
  exact ⟨o, a, Attempt.eq_ok_of_toOption ho, ha, hvalues⟩

/-- The value is inside its bounds, and what it is rounded to is the upper one rounded up. -/
theorem outcome_hands_on_shelf :
    ∃ o a, outcome (.fin (1 / 1000000)) shelf "lp" fullShelf = .ok o ∧ o.assignment = some a
      ∧ a.values = [.fin 3]
      ∧ Interval.IsRoundedOut ⟨.fin 0, .fin (29999995 / 10000000)⟩ (ExtRat.fin 3)
      ∧ ¬ Interval.Has ⟨.fin 0, .fin (29999995 / 10000000)⟩ (ExtRat.fin 3) := by
  obtain ⟨o, a, passes, there, hvalues⟩ := fullShelf_passes
  refine ⟨o, a, passes, there, hvalues, ?_⟩
  obtain ⟨reported, hreported, -, hreceives⟩ := outcome_hands_on shelf_built passes there
  obtain rfl : [.fin (29999995 / 10000000)] = reported := Option.some.inj hreported
  rw [hvalues] at hreceives
  have hiff := (List.forall₂_cons.mp hreceives).1.outside rfl (by decide +kernel)
  have hout : ¬ Interval.Has ⟨.fin 0, .fin (29999995 / 10000000)⟩ (ExtRat.fin 3) := by
    intro h
    exact absurd h.2 (by decide +kernel)
  exact ⟨hiff.mp hout, hout⟩

/-- **A value outside.** Rounding can leave the declared bounds, and nothing notices. -/
theorem shelf_overfull :
    ∃ (m : Model ExtRat) (answer : Answer ExtRat) (o : Outcome ExtRat) (a : Assignment ExtRat),
      Model.build ⟨1⟩ "" shelfSteps = .ok m
        ∧ outcome (.fin (1 / 1000000)) m "lp" answer = .ok o ∧ o.assignment = some a
        ∧ ¬ List.Forall₂ (fun (v : Variable ExtRat) y => v.bounds.Has y) m.vars a.values := by
  obtain ⟨o, a, passes, there, hvalues⟩ := fullShelf_passes
  refine ⟨shelf, fullShelf, o, a, shelf_built, passes, there, ?_⟩
  rw [hvalues]
  intro h
  exact absurd (List.forall₂_cons.mp h).1.2 (by decide +kernel)

end Audit

end Milp
