/-
Which reported objectives are believed.

A solver may report the objective of its assignment. The audit computes the objective of the
cleaned values itself and rejects an answer whose report differs from it by more than a leeway,
ten tolerances times the size of the objective. A report that is within the leeway is near, and
a number that is near is finite unless the leeway is not.

The rejection is a comparison that has to succeed. It fails too where a side of it is no
number, and nothing exceeds an infinite leeway. So two more kinds of reports are believed: what
is no number, and anything at all about an objective that is not finite. All other reports are
judged as they should be (`objectiveDiffers_eq_false_iff`), and what is believed decides
whether the answer has the outcome that it has without a report (`outcome_of_reported`).
-/
import Milp.Proofs.Audit.Outcomes
import Milp.Proofs.Number.Scaling

set_option autoImplicit false

namespace Milp.Audit

open Number (exact IsRational Lawful Special Unital Scaling)

variable {α : Type} [Number α]

/-! ## Reports -/

/-- How far a report may be from the objective. -/
def leeway (tolerance objective : α) : α :=
  tolerance * 10 * Number.max (Number.abs objective) 1

/-- A report is within the leeway of the objective, and finite if the leeway is. -/
structure IsNear (tolerance reported objective : α) : Prop where
  within : Number.le (Number.abs (reported - objective)) (leeway tolerance objective) = true
  finite : Number.isFinite (leeway tolerance objective) = true → Number.isFinite reported = true

/-- A report passes: it is near, it is no number, or the objective is not finite. -/
def IsBelieved (tolerance reported objective : α) : Prop :=
  IsNear tolerance reported objective ∨ Number.isNaN reported = true
    ∨ Number.isFinite objective = false

section Scaling

variable [Scaling α] {tolerance reported objective : α}

theorem zero_le_mul_ten (nonneg : Number.le 0 tolerance = true)
    (finite : Number.isFinite tolerance = true) : Number.le 0 (tolerance * 10) = true := by
  have hten : Number.le 0 (10 : α) = true := by
    rw [Lawful.le_eq, Lawful.exact_zero, Scaling.exact_ten]
    exact (ExtRat.le_fin 0 10).trans (decide_eq_true (by norm_num))
  exact Scaling.mul_nonneg _ _ ((Number.isFinite_iff_isRational _).mp finite)
    ⟨10, Scaling.exact_ten⟩ nonneg hten

theorem isNaN_leeway (nonneg : Number.le 0 tolerance = true)
    (finite : Number.isFinite tolerance = true) (there : Number.isFinite objective = true) :
    Number.isNaN (leeway tolerance objective) = false := by
  have hsize : IsRational (Number.max (Number.abs objective) 1) := by
    obtain ⟨q, hq⟩ := Number.isRational_abs ((Number.isFinite_iff_isRational _).mp there)
    exact ⟨max q 1, by rw [Number.exact_max, hq, Unital.exact_one, ExtRat.max_fin]⟩
  exact Number.isNaN_mul_eq_false (zero_le_mul_ten nonneg finite) (Number.one_le_max_one _) hsize

/-- Nothing differs from an objective that is not finite. -/
theorem objectiveDiffers_of_not_isFinite (nonneg : Number.le 0 tolerance = true)
    (finite : Number.isFinite tolerance = true) (infinite : Number.isFinite objective = false)
    (reported : α) : objectiveDiffers tolerance reported objective = false := by
  by_cases hnan : Number.isNaN objective = true
  · -- the difference is no number
    rw [objectiveDiffers, Number.gt_eq_false_iff, Number.isNaN_abs, Number.isNaN_sub_iff]
    exact .inl (.inr (.inl hnan))
  · -- the leeway is infinite, or no number
    rw [Bool.not_eq_true] at hnan
    have hsize := Number.exact_max_of_left_infinite 1
      (Number.exact_abs_of_not_isFinite hnan infinite)
    exact Number.gt_mul_of_infinite (zero_le_mul_ten nonneg finite) hsize _

/-- What is within a finite leeway is finite. -/
theorem isFinite_of_within (there : Number.isFinite objective = true)
    (within : Number.le (Number.abs (reported - objective)) (leeway tolerance objective) = true)
    (finite : Number.isFinite (leeway tolerance objective) = true) :
    Number.isFinite reported = true := by
  by_contra hinfinite
  rw [Bool.not_eq_true] at hinfinite
  have hnumber : Number.isNaN (reported - objective) = false := by
    rw [← Number.isNaN_abs, Number.isNaN_eq_false_iff]
    exact (Number.exact_ne_nan_of_le within).1
  have hdistance := Number.exact_abs_of_not_isFinite hnumber
    (Number.isFinite_sub_of_not_isFinite hinfinite there)
  have hleeway := Number.exact_eq_posInf_of_le hdistance within
  exact Number.not_isRational_of_posInf hleeway ((Number.isFinite_iff_isRational _).mp finite)

/-- **Which reports are believed.** -/
theorem objectiveDiffers_eq_false_iff (nonneg : Number.le 0 tolerance = true)
    (finite : Number.isFinite tolerance = true) :
    objectiveDiffers tolerance reported objective = false
      ↔ IsBelieved tolerance reported objective := by
  cases there : Number.isFinite objective with
  | false =>
    exact iff_of_true (objectiveDiffers_of_not_isFinite nonneg finite there reported)
      (.inr (.inr there))
  | true =>
    have hleeway : ¬ Number.isNaN (leeway tolerance objective) = true := by
      rw [isNaN_leeway nonneg finite there, Bool.not_eq_true]
    rw [objectiveDiffers, ← leeway, Number.gt_eq_false_iff, Number.isNaN_abs,
      Number.isNaN_sub_of_isFinite reported there]
    constructor
    · rintro (hnan | hnan | hwithin)
      · exact .inr (.inl hnan)
      · exact absurd hnan hleeway
      · exact .inl ⟨hwithin, isFinite_of_within there hwithin⟩
    · rintro (hnear | hnan | hinfinite)
      · exact .inr (.inr hnear.within)
      · exact .inl hnan
      · rw [there] at hinfinite
        cases hinfinite

end Scaling

/-! ## Answers with a report -/

section Answers

variable {tolerance : α} {m : Model α} {backend : String} {answer : Answer α} {o : Outcome α}

/-- The answer without the objective that it reports. -/
def unreported (answer : Answer α) : Answer α := { answer with objective := none }

/-- Values are accepted with a report exactly if they are without one and the report does not
differ. -/
theorem accept_some_eq_ok_iff {reported : α} {values : List α} {a : Assignment α}
    {quality : Quality α} :
    accept tolerance m backend (some reported) values = .ok (a, quality)
      ↔ accept tolerance m backend none values = .ok (a, quality)
        ∧ objectiveDiffers tolerance reported a.objective = false := by
  rw [accept_eq_ok_iff, accept_eq_ok_iff]
  constructor
  · rintro ⟨hcheck, hnames, hobjective, hdiffers⟩
    exact ⟨⟨hcheck, hnames, hobjective, nofun⟩, hdiffers reported rfl⟩
  · rintro ⟨⟨hcheck, hnames, hobjective, -⟩, hdiffers⟩
    refine ⟨hcheck, hnames, hobjective, fun _ hsame => ?_⟩
    rwa [← Option.some.inj hsame]

/-- An answer passes with a report as it does without one, unless it comes with an assignment
whose objective differs. -/
theorem passes_iff_unreported {reported : α} (report : answer.objective = some reported) :
    Passes tolerance m backend answer o
      ↔ Passes tolerance m backend (unreported answer) o
        ∧ ∀ a, o.assignment = some a →
            objectiveDiffers tolerance reported a.objective = false := by
  constructor
  · intro h
    cases h with
    | unsolved status => exact ⟨.unsolved status, nofun⟩
    | valueless status values => exact ⟨.valueless status values, nofun⟩
    | solved status values there a quality accepted =>
      rw [report, accept_some_eq_ok_iff] at accepted
      refine ⟨@Passes.solved _ _ _ _ _ (unreported answer) status values there a quality accepted.1,
        fun _ hsame => ?_⟩
      rw [← Option.some.inj hsame]
      exact accepted.2
  · rintro ⟨h, hdiffers⟩
    cases h with
    | unsolved status => exact .unsolved status
    | valueless status values => exact .valueless status values
    | solved status values there a quality accepted =>
      have with_report : accept tolerance m backend answer.objective values = .ok (a, quality) := by
        rw [report, accept_some_eq_ok_iff]
        exact ⟨accepted, hdiffers a rfl⟩
      exact @Passes.solved _ _ _ _ _ answer status values there a quality with_report

/-- **What a report decides.** With a reported objective an answer has the outcome that it has
without, and no other, unless this comes with an assignment whose objective does not let the
report be believed. The objective is that of the model at the cleaned values. -/
theorem outcome_of_reported [Scaling α] (nonneg : Number.le 0 tolerance = true)
    (finite : Number.isFinite tolerance = true) {reported : α}
    (report : answer.objective = some reported) :
    (outcome tolerance m backend answer = .ok o
        ↔ outcome tolerance m backend (unreported answer) = .ok o
          ∧ ∀ a, o.assignment = some a → IsBelieved tolerance reported a.objective)
      ∧ (outcome tolerance m backend answer = .ok o → ∀ a, o.assignment = some a →
          ∃ values, answer.values = some values
            ∧ check tolerance m values = .ok (a.values, o.quality)
            ∧ a.objective = m.objective.evaluate a.values) := by
  rw [outcome_eq_ok_iff, outcome_eq_ok_iff]
  constructor
  · rw [passes_iff_unreported report]
    simp only [objectiveDiffers_eq_false_iff nonneg finite]
  · intro passes a there
    obtain ⟨values, hvalues, hcheck, -, hobjective⟩ := passes.assignment there
    exact ⟨values, hvalues, hcheck, hobjective⟩

end Answers

/-- Maximize a whole `x` from 0 to 10. -/
def upToTen : Model ExtRat where
  id := ⟨1⟩
  name := ""
  vars := [⟨"x", .integer, ⟨.fin 0, .fin 10⟩⟩]
  constraints := []
  objective := ⟨.maximize, [(⟨⟨1⟩, 0⟩, .fin 1)], .fin 0⟩

/-- The answer that `x` is 4, with a report. -/
def four (reported : ExtRat) : Answer ExtRat :=
  ⟨.optimal, some [.fin 4], some reported, 0, 0, "", none⟩

theorem unreported_four (reported : ExtRat) :
    ∃ o a, outcome (.fin (1 / 1000000)) upToTen "lp" (unreported (four reported)) = .ok o
      ∧ o.assignment = some a ∧ a.objective = .fin 4 := by
  have hrun : (outcome (.fin (1 / 1000000)) upToTen "lp"
      ⟨.optimal, some [.fin 4], none, 0, 0, "", none⟩).toOption.bind
        (fun o => o.assignment.map (·.objective)) = some (.fin 4) := by decide +kernel
  obtain ⟨o, ho, ha⟩ := Option.bind_eq_some_iff.mp hrun
  obtain ⟨a, ha, hobjective⟩ := Option.map_eq_some_iff.mp ha
  exact ⟨o, a, Attempt.eq_ok_of_toOption ho, ha, hobjective⟩

/-- A report of a little more than 4 is believed, one of 5 is not. -/
theorem outcome_of_reported_four :
    ∃ o a, outcome (.fin (1 / 1000000)) upToTen "lp" (four (.fin (400001 / 100000))) = .ok o
      ∧ o.assignment = some a ∧ a.objective = .fin 4
      ∧ outcome (.fin (1 / 1000000)) upToTen "lp" (four (.fin 5)) ≠ .ok o := by
  obtain ⟨o, a, passes, there, hobjective⟩ := unreported_four (.fin 4)
  refine ⟨o, a, ?_, there, hobjective, fun h => ?_⟩
  · refine (outcome_of_reported (by decide +kernel) rfl rfl).1.mpr ⟨passes, fun a' there' => ?_⟩
    obtain rfl : a = a' := Option.some.inj (there.symm.trans there')
    rw [hobjective]
    exact .inl ⟨by decide +kernel, fun _ => rfl⟩
  · have hbelieved := ((outcome_of_reported (by decide +kernel) rfl rfl).1.mp h).2 a there
    rw [hobjective] at hbelieved
    rcases hbelieved with hnear | hnan | hinfinite
    · exact absurd hnear.within (by decide +kernel)
    · exact absurd hnan (by decide +kernel)
    · cases hinfinite

/-- It is not so that only a report is believed that is finite and within the leeway. -/
theorem nan_believed :
    ¬ ∀ (t : ExtRat) (m : Model ExtRat) (backend : String) (answer : Answer ExtRat) (r : ExtRat)
      (o : Outcome ExtRat) (a : Assignment ExtRat),
      Number.le 0 t = true → Number.isFinite t = true → answer.objective = some r →
      outcome t m backend answer = .ok o → o.assignment = some a →
        Number.isFinite r = true
          ∧ Number.le (Number.abs (r - a.objective)) (leeway t a.objective) = true := by
  intro h
  obtain ⟨o, a, passes, there, hobjective⟩ := unreported_four .nan
  have believed : outcome (.fin (1 / 1000000)) upToTen "lp" (four .nan) = .ok o := by
    rw [outcome_eq_ok_iff] at passes ⊢
    refine (passes_iff_unreported rfl).mpr ⟨passes, fun a' there' => ?_⟩
    obtain rfl : a = a' := Option.some.inj (there.symm.trans there')
    rw [hobjective]
    decide +kernel
  have hfinite := (h _ _ _ _ .nan o a (by decide +kernel) rfl rfl believed there).1
  cases hfinite

end Milp.Audit
