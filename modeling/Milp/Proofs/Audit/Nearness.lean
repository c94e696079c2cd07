/-
Which values pass the check, and what the check makes of them.

A list of values may nearly solve a model: each value is within the tolerance of the bounds
of its variable and, where only whole numbers are allowed, of a whole number, and every
constraint is missed by no more than the tolerance allows (`Model.NearlySolved`). This is
said without the functions of the audit. `check` turns out to decide it
(`check_eq_ok_iff`). What it returns is the cleaned point, each value moved to the nearest
number that its variable may take, with the largest distances that were found on the way.

All numbers here are exact. The constraints are judged at the point as it was reported, so
nothing in this file says that the cleaned point satisfies them.
-/
import Milp.Proofs.Audit.Outcomes
import Milp.Proofs.Interval.Nearest
import Milp.Proofs.Number.Rounding
import Milp.Proofs.Program.OfModel

set_option autoImplicit false

namespace Milp

/-! ## Points that nearly solve a model -/

/-- A value may pass for one of a variable: it is within a tolerance of the bounds and,
where only whole numbers are allowed, of a whole number. -/
structure Variable.NearlyTakes (v : Variable ExtRat) (t q : ℚ) : Prop where
  inside : ∃ p : ℚ, v.bounds.Has (.fin p) ∧ |q - p| ≤ t
  whole : v.isIntegral = true → ∃ z : ℤ, |q - z| ≤ t

namespace Constraint

/-- The left-hand side at a point. -/
def lhsOn (c : Constraint ExtRat) (x : List ℚ) : ℚ := linearOn (Program.columnTerms c.terms) x

/-- The magnitudes of the products that the left-hand side is made of, together. -/
def activityOn (c : Constraint ExtRat) (x : List ℚ) : ℚ :=
  (c.terms.map fun t => |t.2.value * x.getD t.1.index 0|).sum

/-- By how much a point misses a constraint. -/
def missOn (c : Constraint ExtRat) (x : List ℚ) : ℚ := c.relation.miss (c.lhsOn x) c.rhs.value

/-- By how much a point may miss a constraint: a share of the larger of one and the sizes of
both sides. -/
def allowanceOn (c : Constraint ExtRat) (t : ℚ) (x : List ℚ) : ℚ :=
  t * max 1 (max |c.rhs.value| (c.activityOn x))

end Constraint

/-- A point nearly solves a model. -/
structure Model.NearlySolved (m : Model ExtRat) (t : ℚ) (x : List ℚ) : Prop where
  values : List.Forall₂ (fun v q => Variable.NearlyTakes v t q) m.vars x
  constraints : ∀ c ∈ m.constraints, c.missOn x ≤ c.allowanceOn t x

/-! ## Clean points -/

/-- A value is cleaned: to the nearest whole number, or to the nearest number inside the
bounds where it need not be whole. -/
structure Variable.CleansTo (v : Variable ExtRat) (q y : ℚ) : Prop where
  whole : v.isIntegral = true → ∃ z : ℤ, ExtRat.IsNearestInt q z ∧ y = z
  inside : v.isIntegral = false → v.bounds.IsNearest q y

/-- A point is cleaned, value by value. -/
def Model.CleansTo (m : Model ExtRat) (x y : List ℚ) : Prop :=
  List.Forall₂ (fun (entry : Variable ExtRat × ℚ) q => entry.1.CleansTo entry.2 q) (m.vars.zip x) y

/-- The largest of some distances, none of which counts as less than zero. -/
def IsWorst (distances : Set ℚ) (d : ExtRat) : Prop :=
  ∃ q : ℚ, d = .fin q ∧ IsGreatest (insert 0 distances) q

/-- A quality consists of the largest distances that there are at a point: from the bounds, of
whole variables from a whole number, and by which a constraint is missed. -/
structure Model.HasQuality (m : Model ExtRat) (x : List ℚ) (quality : Quality ExtRat) : Prop where
  bound : IsWorst {d | ∃ entry ∈ m.vars.zip x, entry.1.bounds.IsDistance entry.2 d} quality.bound
  integrality : IsWorst {d | ∃ entry ∈ m.vars.zip x, entry.1.isIntegral = true
    ∧ ∃ z : ℤ, ExtRat.IsNearestInt entry.2 z ∧ d = |entry.2 - z|} quality.integrality
  constraint : IsWorst {d | ∃ c ∈ m.constraints, d = c.missOn x} quality.constraint

/-! ## One variable -/

namespace Variable

/-- What the check makes of a value. -/
def cleanOn (v : Variable ExtRat) (q : ℚ) : ℚ :=
  if v.isIntegral then (ExtRat.nearestInt q : ℚ) else v.bounds.nearest q

/-- How far a value is from being whole, where it should be. -/
def gapOn (v : Variable ExtRat) (q : ℚ) : ℚ :=
  if v.isIntegral then |q - ExtRat.nearestInt q| else 0

theorem nearlyTakes_iff {v : Variable ExtRat} (valid : v.bounds.isValid = true) {t q : ℚ}
    (ht : 0 ≤ t) : v.NearlyTakes t q ↔ v.bounds.distance q ≤ t ∧ v.gapOn q ≤ t := by
  have hwhole : (v.isIntegral = true → ∃ z : ℤ, |q - z| ≤ t) ↔ v.gapOn q ≤ t := by
    rw [gapOn]
    by_cases hint : v.isIntegral = true
    · rw [if_pos hint]
      constructor
      · intro h
        obtain ⟨z, hz⟩ := h hint
        exact (ExtRat.gap_le q z).trans hz
      · intro h _
        exact ⟨ExtRat.nearestInt q, h⟩
    · rw [if_neg hint]
      exact iff_of_true (fun h => absurd h hint) ht
  constructor
  · intro h
    exact ⟨(Interval.exists_near_iff valid q).mp h.inside, hwhole.mp h.whole⟩
  · rintro ⟨hbounds, hgap⟩
    exact ⟨(Interval.exists_near_iff valid q).mpr hbounds, hwhole.mpr hgap⟩

theorem cleansTo_cleanOn {v : Variable ExtRat} (valid : v.bounds.isValid = true) (q : ℚ) :
    v.CleansTo q (v.cleanOn q) := by
  constructor
  · intro hint
    rw [cleanOn, if_pos hint]
    exact ⟨ExtRat.nearestInt q, ExtRat.isNearestInt_nearestInt q, rfl⟩
  · intro hint
    rw [cleanOn, if_neg (by simp [hint])]
    exact Interval.isNearest_nearest valid q

end Variable

namespace Audit

/-- What the check finds of a value that passes. -/
def checkedOn (v : Variable ExtRat) (q : ℚ) : CheckedValue ExtRat :=
  ⟨.fin (v.cleanOn q), .fin (v.bounds.distance q), .fin (v.gapOn q)⟩

theorem checkValue_fin_eq_ok_iff {v : Variable ExtRat} (valid : v.bounds.isValid = true)
    {t q : ℚ} (ht : 0 ≤ t) {r : CheckedValue ExtRat} :
    checkValue (.fin t) v (.fin q) = .ok r ↔ v.NearlyTakes t q ∧ r = checkedOn v q := by
  rw [Variable.nearlyTakes_iff valid ht, checkValue, checkedOn]
  simp only [Interval.violation_fin valid, Interval.clamp_fin valid, ExtRat.isFinite_fin,
    ExtRat.integralityGap_fin, ExtRat.gt_fin, ExtRat.round_fin, Variable.cleanOn, Variable.gapOn]
  by_cases hbounds : v.bounds.distance q ≤ t
  · by_cases hint : v.isIntegral = true
    · by_cases hgap : |q - ExtRat.nearestInt q| ≤ t
      · simp [hbounds, hint, hgap, not_lt.mpr, eq_comm]
      · simp [hbounds, hint, hgap, not_lt.mpr, inconsistent, not_le.mp hgap]
    · simp [hbounds, hint, ht, not_lt.mpr, eq_comm]
  · simp [hbounds, inconsistent, not_le.mp hbounds]

/-- **A value passes** exactly if it is finite and nearly one that the variable may take. -/
theorem checkValue_eq_ok_iff {v : Variable ExtRat} (valid : v.bounds.isValid = true) {t : ℚ}
    (ht : 0 ≤ t) {value : ExtRat} {r : CheckedValue ExtRat} :
    checkValue (.fin t) v value = .ok r
      ↔ ∃ q : ℚ, value = .fin q ∧ v.NearlyTakes t q ∧ r = checkedOn v q := by
  by_cases hfinite : Number.isFinite value = true
  · rw [ExtRat.eq_fin_of_isFinite hfinite, checkValue_fin_eq_ok_iff valid ht]
    constructor
    · intro h
      exact ⟨value.value, rfl, h⟩
    · rintro ⟨q, hq, h⟩
      rwa [ExtRat.fin.inj hq]
  · rw [checkValue]
    dsimp only
    rw [if_pos (by simpa using hfinite)]
    refine iff_of_false (fun h => by cases h) ?_
    rintro ⟨q, rfl, -⟩
    exact hfinite (ExtRat.isFinite_fin q)

theorem checkValues_eq_ok_iff {vars : List (Variable ExtRat)}
    (valid : ∀ v ∈ vars, v.bounds.isValid = true) {t : ℚ} (ht : 0 ≤ t) {values : List ExtRat}
    (len : values.length = vars.length) {checked : List (CheckedValue ExtRat)} :
    checkValues (.fin t) vars values = .ok checked
      ↔ ∃ x : List ℚ, values = x.map .fin
          ∧ List.Forall₂ (fun v q => Variable.NearlyTakes v t q) vars x
          ∧ checked = (vars.zip x).map fun entry => checkedOn entry.1 entry.2 := by
  rw [checkValues, Attempt.mapM_eq_ok_iff]
  induction vars generalizing values checked with
  | nil =>
    obtain rfl : values = [] := List.length_eq_zero_iff.mp len
    simp [eq_comm]
  | cons v vars ih =>
    obtain ⟨hv, hvars⟩ := List.forall_mem_cons.mp valid
    cases values with
    | nil => simp at len
    | cons value values =>
      have hlen : values.length = vars.length := Nat.succ.inj len
      rw [List.zip_cons_cons, List.forall₂_cons_left_iff]
      constructor
      · rintro ⟨r, rs, hr, hrs, rfl⟩
        obtain ⟨q, rfl, hnear, rfl⟩ := (checkValue_eq_ok_iff hv ht).mp hr
        obtain ⟨x, rfl, hx, rfl⟩ := (ih hvars hlen).mp hrs
        exact ⟨q :: x, rfl, .cons hnear hx, rfl⟩
      · rintro ⟨x, hvalues, hx, rfl⟩
        obtain ⟨q, rest, hnear, hrest, rfl⟩ := List.forall₂_cons_left_iff.mp hx
        obtain ⟨rfl, rfl⟩ := List.cons.inj hvalues
        exact ⟨_, _, (checkValue_eq_ok_iff hv ht).mpr ⟨q, rfl, hnear, rfl⟩,
          (ih hvars hlen).mpr ⟨rest, rfl, hrest, rfl⟩, rfl⟩

/-! ## One constraint -/

section Constraints

variable {c : Constraint ExtRat} (finite : ∀ t ∈ c.terms, Number.isFinite t.2 = true)
include finite

theorem activity_map_fin (x : List ℚ) : c.activity (x.map .fin) = .fin (c.activityOn x) := by
  rw [Constraint.activity, Constraint.activityOn, ← ExtRat.sum_map_fin, List.map_map]
  congr 1
  refine List.map_congr_left fun t ht => ?_
  show Number.abs (t.2 * Number.valueAt (x.map .fin) t.1.index)
    = .fin |t.2.value * x.getD t.1.index 0|
  rw [ExtRat.valueAt_map_fin, ← ExtRat.abs_fin, ← ExtRat.fin_mul,
    ← ExtRat.eq_fin_of_isFinite (finite t ht)]

theorem lhs_map_fin (x : List ℚ) : c.lhs (x.map .fin) = .fin (c.lhsOn x) :=
  Program.weightedSum_columnValue finite x

theorem violation_map_fin (rhs : Number.isFinite c.rhs = true) (x : List ℚ) :
    c.relation.violation (c.lhs (x.map .fin)) c.rhs = .fin (c.missOn x) := by
  rw [lhs_map_fin finite, Constraint.missOn, ← Relation.violation_fin,
    ← ExtRat.eq_fin_of_isFinite rhs]

theorem allowance_map_fin (rhs : Number.isFinite c.rhs = true) (t : ℚ) (x : List ℚ) :
    allowance (.fin t) c (x.map .fin) = .fin (c.allowanceOn t x) := by
  have habs : Number.abs c.rhs = .fin |c.rhs.value| := by
    rw [← ExtRat.abs_fin, ← ExtRat.eq_fin_of_isFinite rhs]
  rw [allowance, activity_map_fin finite, habs, ExtRat.one_eq, ExtRat.max_fin, ExtRat.max_fin,
    ExtRat.fin_mul, Constraint.allowanceOn, max_comm, max_comm (c.activityOn x)]

/-- **A constraint passes** exactly if it is missed by no more than is allowed. -/
theorem checkConstraint_eq_ok_iff (rhs : Number.isFinite c.rhs = true) {t : ℚ} {x : List ℚ}
    {r : ExtRat} :
    checkConstraint (.fin t) (x.map .fin) c = .ok r
      ↔ c.missOn x ≤ c.allowanceOn t x ∧ r = .fin (c.missOn x) := by
  rw [checkConstraint]
  simp only [violation_map_fin finite rhs, allowance_map_fin finite rhs, ExtRat.gt_fin]
  by_cases h : c.missOn x ≤ c.allowanceOn t x
  · simp [h, not_lt.mpr, eq_comm]
  · simp [h, not_le.mp h, inconsistent]

end Constraints

/-! ## Largest violations -/

theorem isGreatest_foldl_max (start : ℚ) (ds : List ℚ) :
    IsGreatest (insert start {d | d ∈ ds}) (ds.foldl max start) := by
  induction ds generalizing start with
  | nil => simp [isGreatest_singleton]
  | cons d ds ih =>
    obtain ⟨hmem, hle⟩ := ih (max start d)
    have hstart : max start d ≤ ds.foldl max (max start d) := hle (Set.mem_insert _ _)
    rw [List.foldl_cons]
    constructor
    · rcases hmem with h | h
      · rw [h]
        rcases max_choice start d with hmax | hmax <;> simp [hmax]
      · exact .inr (List.mem_cons_of_mem d h)
    · rintro e (rfl | he)
      · exact (le_max_left _ _).trans hstart
      · rcases List.mem_cons.mp he with rfl | he
        · exact (le_max_right _ _).trans hstart
        · exact hle (.inr he)

theorem worst_map_fin (ds : List ℚ) : worst (ds.map ExtRat.fin) = .fin (ds.foldl max 0) := by
  rw [worst, List.foldl_map, ExtRat.zero_eq]
  generalize (0 : ℚ) = start
  induction ds generalizing start with
  | nil => rfl
  | cons d ds ih => rw [List.foldl_cons, List.foldl_cons, ExtRat.max_fin, ih]

theorem isWorst_worst {distances : Set ℚ} {ds : List ℚ}
    (h : insert 0 distances = insert 0 {d | d ∈ ds}) : IsWorst distances (worst (ds.map .fin)) := by
  rw [IsWorst, h]
  exact ⟨ds.foldl max 0, worst_map_fin ds, isGreatest_foldl_max 0 ds⟩

end Audit

/-! ## A whole assignment -/

namespace Model

/-- The point that the check makes of one. -/
def cleanOn (m : Model ExtRat) (x : List ℚ) : List ℚ :=
  (m.vars.zip x).map fun entry => entry.1.cleanOn entry.2

/-- The quality that the check finds. -/
def qualityOn (m : Model ExtRat) (x : List ℚ) : Quality ExtRat where
  bound := Audit.worst (((m.vars.zip x).map fun entry => entry.1.bounds.distance entry.2).map .fin)
  integrality := Audit.worst (((m.vars.zip x).map fun entry => entry.1.gapOn entry.2).map .fin)
  constraint := Audit.worst ((m.constraints.map fun c => c.missOn x).map .fin)

variable {m : Model ExtRat}

theorem cleansTo_cleanOn (sound : m.IsSound) (x : List ℚ) : m.CleansTo x (m.cleanOn x) := by
  rw [CleansTo, cleanOn, List.forall₂_map_right_iff, List.forall₂_same]
  intro entry hentry
  exact Variable.cleansTo_cleanOn (sound.bounds _ (List.of_mem_zip hentry).1) entry.2

theorem hasQuality_qualityOn (sound : m.IsSound) (x : List ℚ) :
    m.HasQuality x (m.qualityOn x) := by
  refine ⟨Audit.isWorst_worst ?_, Audit.isWorst_worst ?_, Audit.isWorst_worst ?_⟩
  · refine congrArg _ (Set.ext fun d => ?_)
    simp only [Set.mem_ofPred_eq, List.mem_map]
    refine exists_congr fun entry => and_congr_right fun hentry => ?_
    rw [Interval.isDistance_iff (sound.bounds _ (List.of_mem_zip hentry).1), eq_comm]
  · -- a variable that need not be whole adds another zero
    ext d
    simp only [Set.mem_insert_iff, Set.mem_ofPred_eq, List.mem_map, ExtRat.isNearestInt_iff,
      exists_eq_left]
    constructor
    · rintro (hzero | ⟨entry, hentry, hint, hd⟩)
      · exact .inl hzero
      · refine .inr ⟨entry, hentry, ?_⟩
        rw [Variable.gapOn, if_pos hint, hd]
    · rintro (hzero | ⟨entry, hentry, hd⟩)
      · exact .inl hzero
      · by_cases hint : entry.1.isIntegral = true
        · rw [Variable.gapOn, if_pos hint] at hd
          exact .inr ⟨entry, hentry, hint, hd.symm⟩
        · rw [Variable.gapOn, if_neg hint] at hd
          exact .inl hd.symm
  · refine congrArg _ (Set.ext fun d => ?_)
    simp only [Set.mem_ofPred_eq, List.mem_map]
    exact exists_congr fun c => and_congr_right fun _ => eq_comm

end Model

namespace Audit

variable {m : Model ExtRat}

theorem checkConstraints_eq_ok_iff (sound : m.IsSound)
    (finite : ∀ c ∈ m.constraints, Number.isFinite c.rhs = true) {t : ℚ} {x : List ℚ}
    {violations : List ExtRat} :
    m.constraints.mapM (checkConstraint (.fin t) (x.map .fin)) = .ok violations
      ↔ (∀ c ∈ m.constraints, c.missOn x ≤ c.allowanceOn t x)
        ∧ violations = m.constraints.map fun c => .fin (c.missOn x) := by
  refine Attempt.mapM_eq_ok_iff_forall fun c hc violation => ?_
  have hterms : ∀ t ∈ c.terms, Number.isFinite t.2 = true :=
    fun t ht => (sound.constraints c hc t ht).2
  exact checkConstraint_eq_ok_iff hterms (finite c hc)

/-- **What the check decides.** Values pass exactly if they are a point that nearly solves the
model; what is found is the cleaned point and the quality there. -/
theorem check_eq_ok_iff (sound : m.IsSound)
    (finite : ∀ c ∈ m.constraints, Number.isFinite c.rhs = true) {t : ℚ} (ht : 0 ≤ t)
    {values cleaned : List ExtRat} {quality : Quality ExtRat} :
    check (.fin t) m values = .ok (cleaned, quality)
      ↔ ∃ x : List ℚ, values = x.map .fin ∧ m.NearlySolved t x
          ∧ cleaned = (m.cleanOn x).map .fin ∧ quality = m.qualityOn x := by
  rw [check_ok_iff]
  constructor
  · rintro ⟨len, checked, violations, hchecked, hviolations, rfl, rfl⟩
    obtain ⟨x, rfl, hx, rfl⟩ := (checkValues_eq_ok_iff sound.bounds ht len).mp hchecked
    obtain ⟨hrows, rfl⟩ := (checkConstraints_eq_ok_iff sound finite).mp hviolations
    refine ⟨x, rfl, ⟨hx, hrows⟩, ?_, ?_⟩
    · simp [Model.cleanOn, checkedOn]
    · simp [Model.qualityOn, checkedOn, Function.comp_def]
  · rintro ⟨x, rfl, hx, rfl, rfl⟩
    have len : (x.map ExtRat.fin).length = m.vars.length := by
      rw [List.length_map, hx.values.length_eq]
    refine ⟨len, _, _, (checkValues_eq_ok_iff sound.bounds ht len).mpr ⟨x, rfl, hx.values, rfl⟩,
      (checkConstraints_eq_ok_iff sound finite).mpr ⟨hx.constraints, rfl⟩, ?_, ?_⟩
    · simp [Model.cleanOn, checkedOn]
    · simp [Model.qualityOn, checkedOn, Function.comp_def]

/-- **The check decides nearness.** Of a model that was built and has finite right-hand sides,
with a tolerance that is not negative, it takes exactly the lists of finite values, one for
each variable, that nearly solve the model. From these it makes the clean point, and it tells
how large the distances were. Any other list is an inconsistent result. -/
theorem check_decides_nearness {id : ModelId} {name : String} {steps : List (BuildStep ExtRat)}
    {m : Model ExtRat} (built : Model.build id name steps = .ok m)
    (finite : ∀ c ∈ m.constraints, Number.isFinite c.rhs = true) {t : ℚ} (ht : 0 ≤ t)
    (values : List ExtRat) :
    ((∃ result, check (.fin t) m values = .ok result)
        ↔ ∃ x : List ℚ, values = x.map .fin ∧ m.NearlySolved t x)
      ∧ (∀ cleaned quality, check (.fin t) m values = .ok (cleaned, quality) →
          ∃ x y : List ℚ, values = x.map .fin ∧ cleaned = y.map .fin
            ∧ m.CleansTo x y ∧ m.HasQuality x quality)
      ∧ ∀ fault, check (.fin t) m values = .error fault →
          ∃ detail, fault = .inconsistentResult detail := by
  have sound := Model.isSound_of_build built
  refine ⟨⟨?_, ?_⟩, ?_, fun fault => failsOnly_check (.fin t) m values fault⟩
  · rintro ⟨⟨cleaned, quality⟩, hcheck⟩
    obtain ⟨x, hvalues, hx, -⟩ := (check_eq_ok_iff sound finite ht).mp hcheck
    exact ⟨x, hvalues, hx⟩
  · rintro ⟨x, hvalues, hx⟩
    exact ⟨_, (check_eq_ok_iff sound finite ht).mpr ⟨x, hvalues, hx, rfl, rfl⟩⟩
  · intro cleaned quality hcheck
    obtain ⟨x, hvalues, -, hcleaned, rfl⟩ := (check_eq_ok_iff sound finite ht).mp hcheck
    exact ⟨x, m.cleanOn x, hvalues, hcleaned, Model.cleansTo_cleanOn sound x,
      Model.hasQuality_qualityOn sound x⟩

/-- A whole `x`, and a `y` that may not be the same, with room for nine together. -/
def crateSteps : List (BuildStep ExtRat) :=
  [.declare "x" .integer ⟨.fin 0, .fin 10⟩,
    .declare "y" .continuous ⟨.negInf, .fin 5⟩,
    .constrain (some "room") ⟨[(⟨⟨1⟩, 0⟩, .fin 1), (⟨⟨1⟩, 1⟩, .fin 1)], .fin 0⟩ .atMost (.fin 9),
    .constrain none ⟨[(⟨⟨1⟩, 0⟩, .fin 1), (⟨⟨1⟩, 1⟩, .fin (-1))], .fin 0⟩ .differs (.fin 0),
    .optimize ⟨[(⟨⟨1⟩, 0⟩, .fin 2), (⟨⟨1⟩, 1⟩, .fin (-3))], .fin 7⟩ .maximize]

/-- The model that these steps build. -/
def crate : Model ExtRat where
  id := ⟨1⟩
  name := ""
  vars := [⟨"x", .integer, ⟨.fin 0, .fin 10⟩⟩, ⟨"y", .continuous, ⟨.negInf, .fin 5⟩⟩]
  constraints := [⟨"room", [(⟨⟨1⟩, 0⟩, .fin 1), (⟨⟨1⟩, 1⟩, .fin 1)], .atMost, .fin 9⟩,
    ⟨"c1", [(⟨⟨1⟩, 0⟩, .fin 1), (⟨⟨1⟩, 1⟩, .fin (-1))], .differs, .fin 0⟩]
  objective := ⟨.maximize, [(⟨⟨1⟩, 0⟩, .fin 2), (⟨⟨1⟩, 1⟩, .fin (-3))], .fin 7⟩

theorem crate_built : Model.build ⟨1⟩ "" crateSteps = .ok crate := by
  with_unfolding_all rfl

/-- `3.9` and `5.1` pass with a tolerance of a tenth and become `4` and `5`. A value that is no
number does not pass. -/
theorem check_decides_nearness_crate :
    crate.NearlySolved (1 / 10) [39 / 10, 51 / 10]
      ∧ crate.CleansTo [39 / 10, 51 / 10] [4, 5]
      ∧ ∃ detail, check (.fin (1 / 10)) crate [.fin (39 / 10), .nan]
          = .error (.inconsistentResult detail) := by
  have hpasses : (check (.fin (1 / 10)) crate ([39 / 10, 51 / 10].map .fin)).toOption.map Prod.fst
      = some ([4, 5].map .fin) := by decide +kernel
  have hfails : (check (.fin (1 / 10)) crate [.fin (39 / 10), .nan]).toOption.isNone = true := by
    decide +kernel
  obtain ⟨⟨cleaned, quality⟩, hresult, rfl⟩ := Option.map_eq_some_iff.mp hpasses
  have hpoint := check_decides_nearness crate_built (by decide)
    (by norm_num : (0 : ℚ) ≤ 1 / 10) ([39 / 10, 51 / 10].map .fin)
  obtain ⟨x, hx, hsolved⟩ := hpoint.1.mp ⟨_, Attempt.eq_ok_of_toOption hresult⟩
  obtain ⟨x', y, hx', hy, hcleans, -⟩ := hpoint.2.1 _ _ (Attempt.eq_ok_of_toOption hresult)
  obtain rfl := ExtRat.map_fin_injective hx
  obtain rfl := ExtRat.map_fin_injective hx'
  obtain rfl := ExtRat.map_fin_injective hy
  refine ⟨hsolved, hcleans, ?_⟩
  obtain ⟨fault, hfault⟩ := Attempt.exists_error_of_toOption (Option.isNone_iff_eq_none.mp hfails)
  obtain ⟨detail, rfl⟩ := (check_decides_nearness crate_built (by decide)
    (by norm_num : (0 : ℚ) ≤ 1 / 10) [.fin (39 / 10), .nan]).2.2 fault hfault
  exact ⟨detail, hfault⟩

end Audit

end Milp
