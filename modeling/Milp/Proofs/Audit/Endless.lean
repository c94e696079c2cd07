/-
Constraints with an infinite right-hand side.

A model takes any right-hand side that is a number, an infinity too. Some constraints then hold
at every finite point, and some at none (`Constraint.IsHopeless`): no finite number is at most
minus infinity. By how much such a constraint is missed is infinite.

What a constraint may be missed by is a tolerance times a size, though, and the magnitude of
the right-hand side is part of the size. So an infinite miss is held against an infinite
allowance, and passes. The audit decides as if these constraints were not there, and so does
the test of a program's rows, where their left sides are finite
(`endless_overlooked`). All that is left of a hopeless one is an infinity in the quality of the
outcome.
-/
import Milp.Proofs.Audit.Outcomes
import Milp.Proofs.Number.Scaling
import Milp.Proofs.Program.Lowering

set_option autoImplicit false

namespace Milp

open Number (exact Lawful Special Scaling)

variable {α : Type} [Number α]

/-! ## Infinite right-hand sides -/

/-- A number that is not finite. -/
def Number.isInfinite (x : α) : Bool := !Number.isNaN x && !Number.isFinite x

namespace Constraint

/-- The right-hand side is infinite. -/
def isEndless (c : Constraint α) : Bool := Number.isInfinite c.rhs

/-- No finite left-hand side is in the relation to the right-hand side. -/
def IsHopeless (c : Constraint α) : Prop :=
  ∀ v, Number.isFinite v = true → c.relation.relates v c.rhs = false

end Constraint

/-- The model without the constraints whose right-hand side is infinite. -/
def Model.withoutEndless (m : Model α) : Model α :=
  { m with constraints := m.constraints.filter fun c => !c.isEndless }

namespace Number

theorem isInfinite_cases [Special α] {x : α} (h : isInfinite x = true) :
    isNaN x = false ∧ (exact x = .posInf ∨ exact x = .negInf) := by
  obtain ⟨hnumber, hinfinite⟩ := Bool.and_eq_true_iff.mp h
  rw [Bool.not_eq_true'] at hnumber hinfinite
  refine ⟨hnumber, ?_⟩
  rw [isNaN_eq_false_iff] at hnumber
  rw [← Bool.not_eq_true, isFinite_iff_isRational] at hinfinite
  cases hx : exact x with
  | nan => exact absurd hx hnumber
  | fin q => exact absurd ⟨q, hx⟩ hinfinite
  | posInf => exact .inl rfl
  | negInf => exact .inr rfl

theorem exact_abs_of_isInfinite [Scaling α] {x : α} (h : isInfinite x = true) :
    exact (abs x) = .posInf := by
  obtain ⟨hnumber, hinfinite⟩ := Bool.and_eq_true_iff.mp h
  rw [Bool.not_eq_true'] at hnumber hinfinite
  exact exact_abs_of_not_isFinite hnumber hinfinite

end Number

/-! ## What is missed -/

namespace Relation

variable [Scaling α] {left right : α}

/-- A finite left side misses by a number. -/
theorem isNaN_violation (r : Relation) (finite : Number.isFinite left = true)
    (number : Number.isNaN right = false) : Number.isNaN (r.violation left right) = false := by
  have hzero : ∀ x : α, Number.isNaN (Number.max x 0) = false := by
    intro x
    rw [Number.isNaN_eq_false_iff]
    exact (Number.exact_ne_nan_of_le (Number.le_max_right_of_lawful x Number.isNaN_zero)).2
  cases r with
  | atMost => exact hzero _
  | atLeast => exact hzero _
  | differs =>
    rw [violation]
    by_cases hsame : (left == right) = true
    · rw [if_pos hsame]
      exact Number.isNaN_one
    · rw [if_neg hsame]
      exact Number.isNaN_zero
  | equal =>
    rw [violation, Number.isNaN_abs, ← Bool.not_eq_true, Number.isNaN_sub_iff]
    rintro (hleft | hright | ⟨-, hinfinite⟩)
    · rw [Number.isNaN_of_isFinite finite] at hleft
      cases hleft
    · rw [number] at hright
      cases hright
    · rw [finite] at hinfinite
      cases hinfinite

/-- A finite left side that is not in the relation to an infinity misses it infinitely. -/
theorem exact_violation_of_isInfinite (r : Relation) (finite : Number.isFinite left = true)
    (infinite : Number.isInfinite right = true) (missed : r.relates left right = false) :
    exact (r.violation left right) = .posInf := by
  -- both differences are exact, as only one side is rational
  obtain ⟨q, hq⟩ := (Number.isFinite_iff_isRational left).mp finite
  obtain ⟨-, hright⟩ := Number.isInfinite_cases infinite
  have hirrational : ¬ Number.IsRational right := by
    rintro ⟨p, hp⟩
    rw [hp] at hright
    rcases hright with h | h <;> cases h
  have hleft : exact (left - right) = .fin q - exact right := by
    rw [Special.exact_sub left right fun h => hirrational h.2, hq]
  have hback : exact (right - left) = exact right - .fin q := by
    rw [Special.exact_sub right left fun h => hirrational h.1, hq]
  cases r with
  | atMost =>
    rw [relates, Lawful.le_eq, hq] at missed
    rw [violation, Number.exact_max, Lawful.exact_zero, hleft]
    rcases hright with h | h
    · rw [h] at missed
      cases missed
    · rw [h, ExtRat.fin_sub_negInf, ExtRat.max_posInf_fin]
  | atLeast =>
    rw [relates, Lawful.le_eq, hq] at missed
    rw [violation, Number.exact_max, Lawful.exact_zero, hback]
    rcases hright with h | h
    · rw [h, ExtRat.posInf_sub_fin, ExtRat.max_posInf_fin]
    · rw [h] at missed
      cases missed
  | equal =>
    rw [violation, Number.exact_abs, hleft]
    rcases hright with h | h <;> rw [h] <;> rfl
  | differs =>
    rw [relates, Lawful.beq_eq, hq] at missed
    rcases hright with h | h <;> rw [h] at missed <;> cases missed

end Relation

/-! ## What is let pass -/

namespace Audit

/-- **The values first, then the constraints.** The cleaned values are those that the model
without its constraints gives, if every constraint passes. -/
theorem map_fst_check (tolerance : α) (m : Model α) (values : List α) :
    (check tolerance m values).map Prod.fst
      = check tolerance { m with constraints := [] } values >>= fun (cleaned, _) =>
          m.constraints.mapM (checkConstraint tolerance values) >>= fun _ => .ok cleaned := by
  rw [check, check]
  by_cases len : values.length = m.vars.length
  · rw [if_neg (not_not.mpr len), if_neg (not_not.mpr len)]
    cases checkValues tolerance m.vars values with
    | error fault => rfl
    | ok checked => cases m.constraints.mapM (checkConstraint tolerance values) <;> rfl
  · rw [if_pos len, if_pos len]
    rfl

section Scaling

variable [Scaling α] {tolerance : α} {values : List α} {c : Constraint α}

/-- Nothing exceeds the allowance of an endless constraint. -/
theorem checkConstraint_of_isEndless (nonneg : Number.le 0 tolerance = true)
    (endless : c.isEndless = true) :
    checkConstraint tolerance values c
      = .ok (c.relation.violation (c.lhs values) c.rhs) := by
  have hsize := Number.exact_max_of_left_infinite 1 (Number.exact_max_of_right_infinite
    (c.activity values) (Number.exact_abs_of_isInfinite endless))
  have hpasses := Number.gt_mul_of_infinite nonneg hsize
    (c.relation.violation (c.lhs values) c.rhs)
  rw [checkConstraint]
  exact if_neg (by rw [allowance, hpasses]; exact Bool.false_ne_true)

/-- **The audit overlooks endless constraints.** -/
theorem check_withoutEndless (nonneg : Number.le 0 tolerance = true) (m : Model α)
    (values : List α) :
    (check tolerance m.withoutEndless values).map Prod.fst
      = (check tolerance m values).map Prod.fst := by
  -- what is left out never stops the run over the constraints
  have hpasses : ∀ c ∈ m.constraints, (!c.isEndless) = false →
      ∃ violation, checkConstraint tolerance values c = .ok violation := by
    intro c _ hendless
    exact ⟨_, checkConstraint_of_isEndless nonneg (by simpa using hendless)⟩
  rw [map_fst_check, map_fst_check]
  simp only [Model.withoutEndless, Attempt.mapM_filter_bind hpasses]

/-- An infinity among some violations is the worst of them. -/
theorem exact_worst_of_mem {violations : List α} {violation : α} (there : violation ∈ violations)
    (infinite : exact violation = .posInf) : exact (worst violations) = .posInf := by
  -- the maximum stays infinite, whatever comes after
  have hstays : ∀ (rest : List α) (start : α), exact start = .posInf →
      exact (rest.foldl Number.max start) = .posInf := by
    intro rest
    induction rest with
    | nil => exact fun _ h => h
    | cons x rest ih =>
      intro start h
      exact ih _ (Number.exact_max_of_left_infinite x h)
  obtain ⟨before, after, rfl⟩ := List.append_of_mem there
  rw [worst, List.foldl_append, List.foldl_cons]
  exact hstays after _ (Number.exact_max_of_right_infinite _ infinite)

/-- **What is left of a hopeless constraint**: an infinite quality. -/
theorem quality_of_isHopeless {m : Model α} {cleaned : List α} {quality : Quality α}
    (nonneg : Number.le 0 tolerance = true)
    (passes : check tolerance m values = .ok (cleaned, quality)) (there : c ∈ m.constraints)
    (endless : c.isEndless = true) (hopeless : c.IsHopeless)
    (finite : Number.isFinite (c.lhs values) = true) :
    exact quality.constraint = .posInf := by
  obtain ⟨-, checked, violations, -, hviolations, -, rfl⟩ := check_ok_iff.mp passes
  rw [Attempt.mapM_eq_ok_iff] at hviolations
  obtain ⟨i, hi, rfl⟩ := List.getElem_of_mem there
  have hchecked := hviolations.get hi (hviolations.length_eq ▸ hi)
  rw [List.get_eq_getElem, List.get_eq_getElem, checkConstraint_of_isEndless nonneg endless]
    at hchecked
  refine exact_worst_of_mem (List.getElem_mem (hviolations.length_eq ▸ hi)) ?_
  rw [← Except.ok.inj hchecked]
  exact Relation.exact_violation_of_isInfinite _ finite endless (hopeless _ finite)

end Scaling

end Audit

/-! ## Rows -/

theorem Capabilities.checkSupport_withoutEndless {m : Model α} {capabilities : Capabilities}
    {backend : String} (h : capabilities.checkSupport backend m = .ok ()) :
    capabilities.checkSupport backend m.withoutEndless = .ok () := by
  rw [Capabilities.checkSupport_eq_ok_iff] at h ⊢
  rintro (⟨r, hr, hnot⟩ | hkinds)
  · obtain ⟨c, hc, rfl⟩ := List.mem_map.mp hr
    exact h (.inl ⟨c.relation, List.mem_map_of_mem (List.mem_of_mem_filter hc), hnot⟩)
  · exact h (.inr hkinds)

namespace Program

variable [Scaling α] {tolerance : α} {values : List α}

/-- A row whose right-hand side is infinite holds wherever its left side is finite. -/
theorem holds_of_isInfinite {r : Row α} (positive : Number.lt 0 tolerance = true)
    (finite : Number.isFinite tolerance = true) (endless : Number.isInfinite r.rhs = true)
    (left : Number.isFinite (r.lhs values) = true) : r.holds values tolerance = true := by
  have hsize := Number.exact_max_of_left_infinite 1 (Number.exact_abs_of_isInfinite endless)
  have hnumber := r.relation.isNaN_violation left (Number.isInfinite_cases endless).1
  exact Number.le_of_exact_eq_posInf hnumber (Number.exact_mul_of_infinite positive finite hsize)

theorem satisfiesRows_withoutEndless {m : Model α} {backend : String}
    {capabilities : Capabilities} {p : Program α} (positive : Number.lt 0 tolerance = true)
    (finite : Number.isFinite tolerance = true)
    (lowered : ofModel m backend capabilities = .ok p)
    (left : ∀ r ∈ p.rows, Number.isInfinite r.rhs = true →
      Number.isFinite (r.lhs values) = true) :
    ∃ q, ofModel m.withoutEndless backend capabilities = .ok q
      ∧ q.satisfiesRows values tolerance = p.satisfiesRows values tolerance := by
  obtain ⟨supported, rfl⟩ := ofModel_eq_ok_iff.mp lowered
  refine ⟨_, ofModel_eq_ok_iff.mpr ⟨Capabilities.checkSupport_withoutEndless supported, rfl⟩, ?_⟩
  have hholds : ∀ c ∈ m.constraints, c.isEndless = true →
      (rowOf c).holds values tolerance = true := by
    intro c hc endless
    exact holds_of_isInfinite positive finite endless (left _ (List.mem_map_of_mem hc) endless)
  rw [satisfiesRows, satisfiesRows, Bool.eq_iff_iff, List.all_eq_true, List.all_eq_true,
    List.forall_mem_map, List.forall_mem_map]
  constructor
  · intro h c hc
    by_cases endless : c.isEndless = true
    · exact hholds c hc endless
    · exact h c (List.mem_filter.mpr ⟨hc, by simpa using endless⟩)
  · intro h c hc
    exact h c (List.mem_of_mem_filter hc)

end Program

/-! ## Overlooked constraints -/

namespace Audit

/-- **Constraints with an infinite right-hand side are overlooked.** With a positive tolerance
the audit decides as if the model were without them, with the same faults and the same cleaned
values, and so does the test of the rows of its program, if their left sides are finite. If a
hopeless one is let pass, the quality is infinite. -/
theorem endless_overlooked [Scaling α] {tolerance : α} (positive : Number.lt 0 tolerance = true)
    (finite : Number.isFinite tolerance = true) (m : Model α) (values : List α) :
    (check tolerance m.withoutEndless values).map Prod.fst
        = (check tolerance m values).map Prod.fst
      ∧ (∀ backend capabilities p, Program.ofModel m backend capabilities = .ok p →
          (∀ r ∈ p.rows, Number.isInfinite r.rhs = true →
            Number.isFinite (r.lhs values) = true) →
          ∃ q, Program.ofModel m.withoutEndless backend capabilities = .ok q
            ∧ q.satisfiesRows values tolerance = p.satisfiesRows values tolerance)
      ∧ ∀ cleaned quality, check tolerance m values = .ok (cleaned, quality) →
          ∀ c ∈ m.constraints, c.isEndless = true → c.IsHopeless →
            Number.isFinite (c.lhs values) = true →
              (quality.constraint == Number.posInf) = true := by
  have nonneg := Number.le_of_lt_of_lawful positive
  refine ⟨check_withoutEndless nonneg m values, fun backend capabilities p lowered left =>
    Program.satisfiesRows_withoutEndless positive finite lowered left, ?_⟩
  intro cleaned quality passes c there endless hopeless left
  have hquality := quality_of_isHopeless nonneg passes there endless hopeless left
  rw [Lawful.beq_eq, hquality, Special.exact_posInf]
  rfl

/-- Steps that ask of an `x` up to 10 to be at most minus infinity. -/
def bottomlessSteps : List (BuildStep ExtRat) :=
  [.declare "x" .continuous ⟨.fin 0, .fin 10⟩,
    .constrain none (.ofHandle ⟨⟨1⟩, 0⟩) .atMost .negInf,
    .optimize (.ofHandle ⟨⟨1⟩, 0⟩) .maximize]

/-- The constraint that cannot hold. -/
def bottomlessConstraint : Constraint ExtRat := ⟨"c0", [(⟨⟨1⟩, 0⟩, .fin 1)], .atMost, .negInf⟩

/-- The model that these steps build. -/
def bottomless : Model ExtRat where
  id := ⟨1⟩
  name := ""
  vars := [⟨"x", .continuous, ⟨.fin 0, .fin 10⟩⟩]
  constraints := [bottomlessConstraint]
  objective := ⟨.maximize, [(⟨⟨1⟩, 0⟩, .fin 1)], .fin 0⟩

theorem bottomless_built : Model.build ⟨1⟩ "" bottomlessSteps = .ok bottomless := by
  with_unfolding_all rfl

theorem isHopeless_bottomlessConstraint : bottomlessConstraint.IsHopeless := by
  intro v finite
  rw [ExtRat.eq_fin_of_isFinite finite]
  rfl

theorem bottomless_passes : ∃ quality,
    check (.fin (1 / 1000000)) bottomless [.fin 1] = .ok ([.fin 1], quality) := by
  have hrun : ((check (.fin (1 / 1000000)) bottomless [.fin 1]).map Prod.fst).toOption
      = some [.fin 1] := by decide +kernel
  obtain ⟨⟨cleaned, quality⟩, hcheck, rfl⟩ :=
    Attempt.map_eq_ok_iff.mp (Attempt.eq_ok_of_toOption hrun)
  exact ⟨quality, hcheck⟩

/-- The value 1 passes, as it does without the constraint, and the quality is infinite. -/
theorem endless_overlooked_bottomless :
    (check (.fin (1 / 1000000)) bottomless.withoutEndless [.fin 1]).map Prod.fst = .ok [.fin 1]
      ∧ ∃ quality, check (.fin (1 / 1000000)) bottomless [.fin 1] = .ok ([.fin 1], quality)
        ∧ (quality.constraint == ExtRat.posInf) = true := by
  obtain ⟨quality, passes⟩ := bottomless_passes
  have positive : Number.lt 0 (ExtRat.fin (1 / 1000000)) = true := by decide +kernel
  obtain ⟨hsame, -, hquality⟩ := endless_overlooked positive rfl bottomless [.fin 1]
  rw [hsame, passes]
  exact ⟨rfl, quality, rfl, hquality _ quality passes bottomlessConstraint List.mem_cons_self
    (by decide +kernel) isHopeless_bottomlessConstraint (by decide +kernel)⟩

/-- **A constraint that cannot hold, and is said to.** The audit accepts the value 1, and the
rows of the program are satisfied there. -/
theorem hopeless_accepted :
    Model.build ⟨1⟩ "" bottomlessSteps = .ok bottomless
      ∧ (∃ c ∈ bottomless.constraints, c.IsHopeless)
      ∧ (∃ quality, check (.fin (1 / 1000000)) bottomless [.fin 1] = .ok ([.fin 1], quality))
      ∧ ∃ p, Program.ofModel bottomless "lp" .mixedInteger = .ok p
        ∧ p.satisfiesRows [.fin 1] (.fin (1 / 1000000)) = true := by
  refine ⟨bottomless_built, ⟨bottomlessConstraint, List.mem_cons_self,
    isHopeless_bottomlessConstraint⟩, bottomless_passes, ?_⟩
  have supported : Capabilities.mixedInteger.checkSupport "lp" bottomless = .ok () :=
    (Capabilities.checkSupport_mixedInteger_iff _ _).mpr (by decide)
  exact ⟨_, Program.ofModel_eq_ok_iff.mpr ⟨supported, rfl⟩, by decide +kernel⟩

end Audit

end Milp
