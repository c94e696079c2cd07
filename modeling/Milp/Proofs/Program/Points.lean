/-
Rational points of a program.

Over the exact carrier the functions of the model compute with rationals as long as the
program's own numbers are finite. `IsRational` says that they are, and the lemmas of this
file turn each function of `Milp.Program` at a point of rationals into the formula it
stands for: the left-hand side of a row, the test for holding within a tolerance, and the
objective.

The two directions of optimization become one by reading an objective as a cost
(`Sense.cost`), and the relations become what they say (`Relation.Holds`). With these
`Admits` is the problem itself, without any of the search's devices: the points inside
the declared bounds that are whole where they should be and satisfy every row exactly.
`Relaxed` is the problem that a node poses to its oracle.
-/
import Milp.Proofs.Number.Sums
import Milp.Proofs.Search.Box

set_option autoImplicit false

namespace Milp

/-! ## Costs -/

/-- An objective as a cost: what is to be large counts with the opposite sign. -/
def Sense.cost (sense : Sense) (objective : ℚ) : ℚ :=
  match sense with
  | .minimize => objective
  | .maximize => -objective

/-- Beating an incumbent is costing less, by more than the margin. -/
theorem Sense.improves_fin_iff (sense : Sense) (a b margin : ℚ) :
    sense.improves (ExtRat.fin a) (.fin b) (.fin margin) = true
      ↔ sense.cost a < sense.cost b - margin := by
  cases sense with
  | minimize =>
    rw [Sense.improves, ExtRat.fin_sub, ExtRat.lt_fin, decide_eq_true_iff]
    rfl
  | maximize =>
    rw [Sense.improves, ExtRat.fin_add, ExtRat.gt_fin, decide_eq_true_iff, Sense.cost, Sense.cost]
    constructor <;> intro h <;> linarith

/-! ## Relations -/

namespace Relation

/-- What a relation says about two rationals. -/
def Holds (r : Relation) (left right : ℚ) : Prop :=
  match r with
  | .atMost => left ≤ right
  | .equal => left = right
  | .atLeast => right ≤ left
  | .differs => left ≠ right

/-- By how much two rationals miss a relation. -/
def miss (r : Relation) (left right : ℚ) : ℚ :=
  match r with
  | .atMost => max (left - right) 0
  | .equal => |left - right|
  | .atLeast => max (right - left) 0
  | .differs => if left = right then 1 else 0

@[simp] theorem violation_fin (r : Relation) (left right : ℚ) :
    r.violation (ExtRat.fin left) (.fin right) = .fin (r.miss left right) := by
  cases r with
  | atMost => simp [violation, miss]
  | equal => simp [violation, miss]
  | atLeast => simp [violation, miss]
  | differs => by_cases h : left = right <;> simp [violation, miss, h]

theorem miss_le_zero_iff (r : Relation) (left right : ℚ) :
    r.miss left right ≤ 0 ↔ r.Holds left right := by
  cases r with
  | atMost => simp [miss, Holds]
  | equal => simp [miss, Holds, sub_eq_zero]
  | atLeast => simp [miss, Holds]
  | differs => by_cases h : left = right <;> simp [miss, Holds, h]

end Relation

/-! ## Intervals -/

/-- The ends of an interval are finite or infinite on their own side. -/
structure Interval.IsOutward (b : Interval ExtRat) : Prop where
  lower : b.lower = .negInf ∨ ∃ l : ℚ, b.lower = .fin l
  upper : b.upper = .posInf ∨ ∃ u : ℚ, b.upper = .fin u

theorem Interval.isOutward_of_isValid {b : Interval ExtRat} (h : b.isValid = true) :
    b.IsOutward := by
  obtain ⟨lower, upper⟩ := b
  constructor
  · cases lower with
    | nan => exact absurd h (by simp [isValid, Number.isNaN, BEq.beq, ExtRat.eqv])
    | negInf => exact .inl rfl
    | posInf => exact absurd h (by simp [isValid, BEq.beq, ExtRat.eqv])
    | fin l => exact .inr ⟨l, rfl⟩
  · cases upper with
    | nan => exact absurd h (by simp [isValid, Number.isNaN, BEq.beq, ExtRat.eqv])
    | negInf => exact absurd h (by simp [isValid, BEq.beq, ExtRat.eqv])
    | posInf => exact .inl rfl
    | fin u => exact .inr ⟨u, rfl⟩

/-- A rational in an interval is above its lower end. -/
theorem Interval.lower_of_has {b : Interval ExtRat} {v : ℚ} (h : b.Has (.fin v)) :
    b.lower = .negInf ∨ ∃ l : ℚ, b.lower = .fin l ∧ l ≤ v := by
  have hle := h.1
  cases hl : b.lower with
  | fin l =>
    rw [hl, ExtRat.le_fin, decide_eq_true_iff] at hle
    exact .inr ⟨l, rfl, hle⟩
  | negInf => exact .inl rfl
  | posInf =>
    rw [hl] at hle
    cases hle
  | nan =>
    rw [hl] at hle
    cases hle

theorem Interval.upper_of_has {b : Interval ExtRat} {v : ℚ} (h : b.Has (.fin v)) :
    b.upper = .posInf ∨ ∃ u : ℚ, b.upper = .fin u ∧ v ≤ u := by
  have hle := h.2
  cases hu : b.upper with
  | fin u =>
    rw [hu, ExtRat.le_fin, decide_eq_true_iff] at hle
    exact .inr ⟨u, rfl, hle⟩
  | posInf => exact .inl rfl
  | negInf =>
    rw [hu] at hle
    cases hle
  | nan =>
    rw [hu] at hle
    cases hle

/-- The ends of all intervals of a box are. -/
def Box.IsOutward (box : Box ExtRat) : Prop := ∀ b ∈ box, b.IsOutward

/-! ## Programs with rational data -/

/-- The sum of coefficients times the entries of a point. -/
def linearOn (terms : List (Nat × ExtRat)) (x : List ℚ) : ℚ :=
  (terms.map fun t => t.2.value * x.getD t.1 0).sum

namespace Program

/-- The numbers of a row are rationals, its terms are columns, and it is linear. -/
structure Row.IsRational (r : Row ExtRat) (width : Nat) : Prop where
  terms : ∀ t ∈ r.terms, t.1 < width ∧ t.2 = .fin t.2.value
  rhs : r.rhs = .fin r.rhs.value
  linear : r.relation ≠ .differs

/-- The numbers of a program are rationals, but for bounds that are missing. -/
structure IsRational (p : Program ExtRat) : Prop where
  bounds : ∀ c ∈ p.columns, c.bounds.IsOutward
  objective : ∀ c ∈ p.columns, c.objective = .fin c.objective.value
  constant : p.constant = .fin p.constant.value
  rows : ∀ r ∈ p.rows, r.IsRational p.columns.length

/-- The left-hand side of a row at a point. -/
def Row.lhsOn (r : Row ExtRat) (x : List ℚ) : ℚ := linearOn r.terms x

/-- A row holds at a point, exactly. -/
def Row.HoldsOn (r : Row ExtRat) (x : List ℚ) : Prop :=
  r.relation.Holds (r.lhsOn x) r.rhs.value

/-- The objective at a point. -/
def objectiveOn (p : Program ExtRat) (x : List ℚ) : ℚ :=
  (List.zipWith (fun (c : Column ExtRat) v => c.objective.value * v) p.columns x).sum
    + p.constant.value

/-- The objective at a point, as a cost. -/
def costOn (p : Program ExtRat) (x : List ℚ) : ℚ := p.sense.cost (p.objectiveOn x)

/-- The left-hand side of a row with rational coefficients. -/
theorem Row.lhs_of_finite {r : Row ExtRat} (h : ∀ t ∈ r.terms, t.2 = .fin t.2.value)
    (x : List ℚ) : r.lhs (x.map .fin) = .fin (r.lhsOn x) := by
  have finite : ∀ t ∈ r.terms, Number.isFinite t.2 = true :=
    fun t ht => (ExtRat.isFinite_iff t.2).mpr (h t ht)
  rw [Row.lhs, funext (ExtRat.valueAt_map_fin x), ExtRat.weightedSum_fin finite]
  rfl

theorem Row.lhs_map_fin {r : Row ExtRat} {width : Nat} (h : r.IsRational width) (x : List ℚ) :
    r.lhs (x.map .fin) = .fin (r.lhsOn x) :=
  Row.lhs_of_finite (fun t ht => (h.terms t ht).2) x

theorem Row.holds_map_fin {r : Row ExtRat} {width : Nat} (h : r.IsRational width) (x : List ℚ)
    (t : ℚ) : r.holds (x.map .fin) (.fin t) = true
      ↔ r.relation.miss (r.lhsOn x) r.rhs.value ≤ t * max |r.rhs.value| 1 := by
  rw [Row.holds, Row.lhs_map_fin h, h.rhs, ExtRat.one_eq, Relation.violation_fin]
  simp

/-- The objective with rational coefficients. -/
theorem objectiveValue_of_finite {p : Program ExtRat}
    (hcoeff : ∀ c ∈ p.columns, c.objective = .fin c.objective.value)
    (hconstant : p.constant = .fin p.constant.value) (x : List ℚ) :
    p.objectiveValue (x.map .fin) = .fin (p.objectiveOn x) := by
  rw [objectiveValue, objectiveOn, ← ExtRat.fin_add, ← hconstant, ← ExtRat.sum_map_fin]
  congr 2
  rw [List.map_zipWith, List.zipWith_map_right]
  -- column by column, since each coefficient is a rational of its own
  generalize p.columns = columns at hcoeff
  induction columns generalizing x with
  | nil => rfl
  | cons c columns ih =>
    cases x with
    | nil => rfl
    | cons v x =>
      rw [List.zipWith_cons_cons, List.zipWith_cons_cons,
        ih x fun c hc => hcoeff c (List.mem_cons_of_mem _ hc)]
      nth_rewrite 1 [hcoeff c List.mem_cons_self]
      rfl

theorem objectiveValue_map_fin {p : Program ExtRat} (h : p.IsRational) (x : List ℚ) :
    p.objectiveValue (x.map .fin) = .fin (p.objectiveOn x) :=
  objectiveValue_of_finite h.objective h.constant x

/-! ## Whole columns -/

/-- What is said of the values at the whole columns is said column by column. -/
theorem forall_integerColumns_iff {α β : Type} {p : Program α} {x : List β}
    (len : x.length = p.columns.length) (d : β) (P : β → Prop) :
    (∀ i ∈ p.integerColumns, P (x.getD i d))
      ↔ List.Forall₂ (fun (c : Column α) v => c.integer = true → P v) p.columns x := by
  rw [List.forall₂_iff_get]
  constructor
  · intro h
    refine ⟨len.symm, fun i hi hx hinteger => ?_⟩
    have := h i (mem_integerColumns.mpr ⟨hi, by simpa [isInteger, hi] using hinteger⟩)
    rwa [List.getD_eq_getElem _ _ hx] at this
  · rintro ⟨-, h⟩ i hi
    obtain ⟨hlt, hinteger⟩ := mem_integerColumns.mp hi
    rw [List.getD_eq_getElem _ _ (len.symm ▸ hlt)]
    exact h i hlt (len.symm ▸ hlt) (by simpa [isInteger, hlt] using hinteger)

theorem wholeAt_map_fin_iff {p : Program ExtRat} {x : List ℚ}
    (len : x.length = p.columns.length) :
    p.WholeAt (x.map .fin)
      ↔ List.Forall₂ (fun (c : Column ExtRat) v => c.integer = true → ((v.floor : ℤ) : ℚ) = v)
          p.columns x := by
  rw [← forall_integerColumns_iff len 0 fun v => ((v.floor : ℤ) : ℚ) = v]
  refine forall₂_congr fun i _ => ?_
  rw [ExtRat.valueAt_map_fin, Number.isWhole, ExtRat.floor_fin, ExtRat.beq_fin,
    decide_eq_true_iff]

/-! ## The problem and its relaxations -/

/-- A point solves the problem: it is inside the declared bounds, whole where it should
be, and satisfies every row. -/
structure Admits (p : Program ExtRat) (x : List ℚ) : Prop where
  bounds : Box.Has (p.columns.map (·.bounds)) (x.map .fin)
  whole : p.WholeAt (x.map .fin)
  rows : ∀ r ∈ p.rows, r.HoldsOn x

/-- A point solves the relaxation in a box. -/
structure Relaxed (p : Program ExtRat) (box : Box ExtRat) (x : List ℚ) : Prop where
  inside : Box.Has box (x.map .fin)
  rows : ∀ r ∈ p.rows, r.HoldsOn x

/-- The sum of the magnitudes of the objective coefficients of the whole columns. -/
def integerWeight (p : Program ExtRat) : ℚ :=
  ((p.columns.filter (·.integer)).map fun c => |c.objective.value|).sum

theorem integerWeight_nonneg (p : Program ExtRat) : 0 ≤ p.integerWeight := by
  refine List.sum_nonneg fun a ha => ?_
  obtain ⟨c, -, rfl⟩ := List.mem_map.mp ha
  exact abs_nonneg _

end Program

/-! ## The box of the root -/

namespace Search

/-- Rounding the bounds of a column inward adds no number. -/
theorem has_bounds_of_has_rootBounds {c : Program.Column ExtRat} {v : ℚ}
    (h : (rootBounds c).Has (.fin v)) : c.bounds.Has (.fin v) := by
  unfold rootBounds at h
  split at h
  · exact ⟨ExtRat.le_of_ceil_le h.1, ExtRat.le_of_le_floor h.2⟩
  · exact h

/-- It loses no whole number, and for other columns nothing is rounded. -/
theorem has_rootBounds_of_has_bounds {c : Program.Column ExtRat} {v : ℚ}
    (h : c.bounds.Has (.fin v)) (whole : c.integer = true → ((v.floor : ℤ) : ℚ) = v) :
    (rootBounds c).Has (.fin v) := by
  unfold rootBounds
  split
  -- only the bounds of whole columns are rounded, and a whole number stays between them
  · rename_i hinteger
    have hv := whole hinteger
    rw [← hv] at h ⊢
    exact ⟨ExtRat.ceil_le_intCast h.1, ExtRat.intCast_le_floor h.2⟩
  · exact h

/-- The box of the root lies inside the declared bounds. -/
theorem has_bounds_of_has_rootBox {p : Program ExtRat} {x : List ℚ}
    (h : Box.Has (rootBox p) (x.map .fin)) : Box.Has (p.columns.map (·.bounds)) (x.map .fin) := by
  rw [Box.Has, rootBox, List.forall₂_map_left_iff, List.forall₂_map_right_iff] at h
  rw [Box.Has, List.forall₂_map_left_iff, List.forall₂_map_right_iff]
  exact h.imp fun _ _ => has_bounds_of_has_rootBounds

/-- A point of the problem lies in the box of the root. -/
theorem has_rootBox_of_admits {p : Program ExtRat} {x : List ℚ} (h : p.Admits x) :
    Box.Has (rootBox p) (x.map .fin) := by
  have hbounds := h.bounds
  rw [Box.Has, List.forall₂_map_left_iff, List.forall₂_map_right_iff] at hbounds
  have hwhole := Program.wholeAt_map_fin_iff (hbounds.length_eq).symm |>.mp h.whole
  rw [Box.Has, rootBox, List.forall₂_map_left_iff, List.forall₂_map_right_iff]
  exact hbounds.mp (fun _ _ => has_rootBounds_of_has_bounds) hwhole

end Search

end Milp
