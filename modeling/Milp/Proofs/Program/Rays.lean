/-
Directions in which a program goes on for ever.

`Solves` is the mixed-integer problem of a program with every right-hand side it may have,
infinite ones included: such a row holds everywhere or nowhere, so it stands in the way of
no direction. If the points of the continuous problem have costs below every bound, there is
a direction that keeps every bound and every row and lowers the cost (`exists_ray`).

The data are rational, so a multiple of the direction is whole, and going along it from a
point that is whole where it should be leads to such points again. One point of the
mixed-integer problem is therefore enough for points of any cost (`exists_cheaper`).
-/
import Milp.Proofs.Polyhedron.Projection
import Milp.Proofs.Program.Lowering

set_option autoImplicit false

namespace Milp

open Module (Dual)
open Polyhedron (Inequality)

/-! ## The problem, with infinite right-hand sides -/

/-- Against an infinity the left-hand side does not matter. -/
theorem Relation.relates_of_not_isFinite (r : Relation) {rhs : ExtRat}
    (h : ¬ Number.isFinite rhs = true) (a b : ℚ) :
    r.relates (.fin a) rhs = r.relates (.fin b) rhs := by
  cases rhs with
  | fin q => exact absurd (ExtRat.isFinite_fin q) h
  | nan => cases r <;> rfl
  | negInf => cases r <;> rfl
  | posInf => cases r <;> rfl

namespace Program

/-- A row holds at a point. -/
def Row.MeetsAt (r : Row ExtRat) (x : List ℚ) : Prop :=
  r.relation.relates (r.lhs (x.map .fin)) r.rhs = true

/-- A point solves the mixed-integer problem: it is within the declared bounds, whole where
it should be, and satisfies every row. -/
structure Solves (p : Program ExtRat) (x : List ℚ) : Prop where
  bounds : Box.Has (p.columns.map (·.bounds)) (x.map .fin)
  whole : p.WholeAt (x.map .fin)
  rows : ∀ r ∈ p.rows, r.MeetsAt x

/-- The numbers of a program are rationals, but for missing bounds and for right-hand sides,
and its rows are linear. -/
structure HasRationalData (p : Program ExtRat) : Prop where
  bounds : ∀ c ∈ p.columns, c.bounds.IsOutward
  objective : ∀ c ∈ p.columns, c.objective = .fin c.objective.value
  constant : p.constant = .fin p.constant.value
  terms : ∀ r ∈ p.rows, ∀ t ∈ r.terms, t.2 = .fin t.2.value
  linear : ∀ r ∈ p.rows, r.relation ≠ .differs

/-- So they are in every program of a built model. -/
theorem hasRationalData_of_ofModel {m : Model ExtRat} {backend : String} {p : Program ExtRat}
    (sound : m.IsSound) (lowered : ofModel m backend .mixedInteger = .ok p) :
    p.HasRationalData := by
  obtain ⟨hok, rfl⟩ := ofModel_eq_ok_iff.mp lowered
  have hlinear := (Capabilities.checkSupport_mixedInteger_iff backend m).mp hok
  refine ⟨fun c hc => ?_, objective_columnsOf sound, ExtRat.eq_fin_of_isFinite sound.constant,
    fun r hr t ht => ?_, fun r hr => ?_⟩
  · obtain ⟨i, v, hv, rfl⟩ := mem_columnsOf hc
    exact Interval.isOutward_of_isValid (sound.bounds v (List.mem_of_getElem? hv))
  · obtain ⟨c, hc, rfl⟩ := List.mem_map.mp hr
    obtain ⟨s, hs, rfl⟩ := List.mem_map.mp ht
    exact ExtRat.eq_fin_of_isFinite (sound.constraints c hc s (List.mem_of_mem_filter hs)).2
  · obtain ⟨c, hc, rfl⟩ := List.mem_map.mp hr
    exact hlinear c hc

/-- Where its right-hand side is finite, a row holds as rationals say. -/
theorem Row.meetsAt_iff {r : Row ExtRat} (terms : ∀ t ∈ r.terms, t.2 = .fin t.2.value)
    (finite : Number.isFinite r.rhs = true) (x : List ℚ) :
    r.MeetsAt x ↔ r.relation.Holds (r.lhsOn x) r.rhs.value := by
  rw [MeetsAt, Row.lhs_of_finite terms, ← Relation.relates_fin_iff,
    ← ExtRat.eq_fin_of_isFinite finite]

/-- Where it is infinite, a row holds everywhere or nowhere. -/
theorem Row.meetsAt_congr {r : Row ExtRat} (terms : ∀ t ∈ r.terms, t.2 = .fin t.2.value)
    (infinite : ¬ Number.isFinite r.rhs = true) (x y : List ℚ) : r.MeetsAt x ↔ r.MeetsAt y := by
  rw [MeetsAt, MeetsAt, Row.lhs_of_finite terms, Row.lhs_of_finite terms,
    Relation.relates_of_not_isFinite _ infinite (r.lhsOn x) (r.lhsOn y)]

/-! ## Points by their coordinates -/

section Coordinates

variable {n : ℕ}

theorem getD_ofFn_add (x y : Fin n → ℚ) (i : ℕ) :
    (List.ofFn (x + y)).getD i 0 = (List.ofFn x).getD i 0 + (List.ofFn y).getD i 0 := by
  by_cases h : i < n
  · simp [List.getD_eq_getElem?_getD, h]
  · simp [List.getD_eq_getElem?_getD, h]

theorem getD_ofFn_smul (c : ℚ) (x : Fin n → ℚ) (i : ℕ) :
    (List.ofFn (c • x)).getD i 0 = c * (List.ofFn x).getD i 0 := by
  by_cases h : i < n
  · simp [List.getD_eq_getElem?_getD, h]
  · simp [List.getD_eq_getElem?_getD, h]

/-- The left-hand side of a row, as a functional of the coordinates. -/
def Row.form (r : Row ExtRat) (n : ℕ) : Dual ℚ (Fin n → ℚ) where
  toFun x := r.lhsOn (List.ofFn x)
  map_add' x y := by
    simp only [lhsOn, linearOn, getD_ofFn_add, mul_add, List.sum_map_add]
  map_smul' c x := by
    simp only [lhsOn, linearOn, getD_ofFn_smul, mul_left_comm _ c, List.sum_map_mul_left]
    rfl

theorem Row.lhsOn_ofFn (r : Row ExtRat) (x : Fin n → ℚ) :
    r.lhsOn (List.ofFn x) = r.form n x :=
  rfl

/-- The cost of a point but for the constant, as a functional of the coordinates. -/
def costForm (p : Program ExtRat) : Dual ℚ (Fin p.columns.length → ℚ) where
  toFun x := ∑ i, p.sense.cost p.columns[i].objective.value * x i
  map_add' x y := by
    simp only [Pi.add_apply, mul_add, Finset.sum_add_distrib]
  map_smul' c x := by
    simp only [Pi.smul_apply, smul_eq_mul, mul_left_comm _ c, ← Finset.mul_sum]
    rfl

theorem costOn_ofFn (p : Program ExtRat) (x : Fin p.columns.length → ℚ) :
    p.costOn (List.ofFn x) = p.costForm x + p.sense.cost p.constant.value := by
  have hzip : List.zipWith (fun (c : Column ExtRat) v => c.objective.value * v) p.columns
      (List.ofFn x)
      = List.ofFn fun i : Fin p.columns.length => p.columns[i].objective.value * x i :=
    List.ext_getElem (by simp) fun i _ _ => by simp
  rw [costOn, objectiveOn, hzip, List.sum_ofFn]
  show _ = ∑ i, p.sense.cost p.columns[i].objective.value * x i + _
  cases p.sense with
  | minimize => rfl
  | maximize =>
    simp only [Sense.cost, neg_mul, Finset.sum_neg_distrib]
    ring

/-- A point with an entry for every column is given by its coordinates. -/
theorem exists_ofFn {x : List ℚ} (len : x.length = n) : ∃ y : Fin n → ℚ, x = List.ofFn y := by
  subst len
  exact ⟨x.get, (List.ofFn_get x).symm⟩

theorem has_bounds_ofFn_iff {p : Program ExtRat} (x : Fin p.columns.length → ℚ) :
    Box.Has (p.columns.map (·.bounds)) ((List.ofFn x).map .fin)
      ↔ ∀ i : Fin p.columns.length, p.columns[i].bounds.Has (.fin (x i)) := by
  rw [Box.Has, List.forall₂_map_left_iff, List.forall₂_map_right_iff, List.forall₂_iff_get]
  constructor
  · rintro ⟨-, h⟩ i
    simpa using h i i.isLt (by simp)
  · intro h
    refine ⟨by simp, fun i hi _ => ?_⟩
    simpa using h ⟨i, hi⟩

end Coordinates

/-! ## Bounds and rows as inequalities -/

section Inequalities

variable {n : ℕ}

/-- The finite ends of the interval of a column. -/
def endsOf (b : Interval ExtRat) (i : Fin n) : List (Inequality n) :=
  (if Number.isFinite b.lower then [(-LinearMap.proj i, -b.lower.value)] else [])
    ++ (if Number.isFinite b.upper then [(LinearMap.proj i, b.upper.value)] else [])

/-- A value is within an interval exactly if it meets the inequalities of its ends. -/
theorem has_iff_endsOf {b : Interval ExtRat} (hb : b.IsOutward) (i : Fin n) (x : Fin n → ℚ) :
    b.Has (.fin (x i)) ↔ ∀ s ∈ endsOf b i, s.1 x ≤ s.2 := by
  rw [endsOf, List.forall_mem_append]
  refine and_congr ?_ ?_
  · rcases hb.lower with hl | ⟨l, hl⟩
    · rw [hl]
      exact iff_of_true (ExtRat.le_negInf_fin _) (List.forall_mem_nil _)
    · rw [hl, if_pos (ExtRat.isFinite_fin l), List.forall_mem_singleton, ExtRat.le_fin,
        decide_eq_true_iff]
      exact neg_le_neg_iff.symm
  · rcases hb.upper with hu | ⟨u, hu⟩
    · rw [hu]
      exact iff_of_true (ExtRat.le_fin_posInf _) (List.forall_mem_nil _)
    · rw [hu, if_pos (ExtRat.isFinite_fin u), List.forall_mem_singleton, ExtRat.le_fin,
        decide_eq_true_iff]
      exact Iff.rfl

/-- A linear row that has terms and a finite right-hand side. -/
def Row.sides (r : Row ExtRat) (n : ℕ) : List (Inequality n) :=
  if r.terms.isEmpty || !Number.isFinite r.rhs then []
  else match r.relation with
    | .atMost => [(r.form n, r.rhs.value)]
    | .equal => [(r.form n, r.rhs.value), (-r.form n, -r.rhs.value)]
    | .atLeast => [(-r.form n, -r.rhs.value)]
    | .differs => []

/-- Such a row holds exactly if its inequalities do. -/
theorem Row.meetsAt_iff_sides {r : Row ExtRat} (terms : ∀ t ∈ r.terms, t.2 = .fin t.2.value)
    (linear : r.relation ≠ .differs) (named : r.terms ≠ [])
    (finite : Number.isFinite r.rhs = true) (x : Fin n → ℚ) :
    r.MeetsAt (List.ofFn x) ↔ ∀ s ∈ r.sides n, s.1 x ≤ s.2 := by
  rw [Row.meetsAt_iff terms finite, Row.lhsOn_ofFn, sides, if_neg (by simp [named, finite])]
  cases hrel : r.relation with
  | atMost =>
    rw [List.forall_mem_singleton]
    exact Iff.rfl
  | equal =>
    rw [List.forall_mem_cons, List.forall_mem_singleton]
    show r.form n x = r.rhs.value ↔ r.form n x ≤ r.rhs.value ∧ -r.form n x ≤ -r.rhs.value
    rw [neg_le_neg_iff, le_antisymm_iff]
  | atLeast =>
    rw [List.forall_mem_singleton]
    exact neg_le_neg_iff.symm
  | differs => exact absurd hrel linear

theorem Row.sides_of_meetsAt {r : Row ExtRat} (terms : ∀ t ∈ r.terms, t.2 = .fin t.2.value)
    (linear : r.relation ≠ .differs) {x : Fin n → ℚ}
    (h : r.terms ≠ [] → r.MeetsAt (List.ofFn x)) : ∀ s ∈ r.sides n, s.1 x ≤ s.2 := by
  by_cases hplain : (r.terms.isEmpty || !Number.isFinite r.rhs) = true
  · rw [sides, if_pos hplain]
    exact List.forall_mem_nil _
  · rw [Bool.or_eq_true, not_or, List.isEmpty_iff, Bool.not_eq_true', Bool.not_eq_false] at hplain
    exact (Row.meetsAt_iff_sides terms linear hplain.1 hplain.2 x).mp (h hplain.1)

section Along

variable {x d : Fin n → ℚ} {k : ℚ}

/-- Along a direction in which no left-hand side grows, inequalities stay true. -/
theorem true_along {inequalities : List (Inequality n)} (hk : 0 ≤ k)
    (hx : ∀ s ∈ inequalities, s.1 x ≤ s.2) (hd : ∀ s ∈ inequalities, s.1 d ≤ 0) :
    ∀ s ∈ inequalities, s.1 (x + k • d) ≤ s.2 := by
  intro s hs
  rw [map_add, map_smul, smul_eq_mul]
  have hfalls : k * s.1 d ≤ 0 := mul_nonpos_of_nonneg_of_nonpos hk (hd s hs)
  linarith [hx s hs]

/-- A direction that leaves no end behind stays within the interval. -/
theorem has_along {b : Interval ExtRat} (hb : b.IsOutward) {i : Fin n} (hk : 0 ≤ k)
    (h : b.Has (.fin (x i))) (hd : ∀ s ∈ endsOf b i, s.1 d ≤ 0) :
    b.Has (.fin ((x + k • d) i)) :=
  (has_iff_endsOf hb i _).mpr (true_along hk ((has_iff_endsOf hb i x).mp h) hd)

/-- A direction that leaves no side behind keeps a row. -/
theorem Row.meetsAt_along {r : Row ExtRat} (terms : ∀ t ∈ r.terms, t.2 = .fin t.2.value)
    (linear : r.relation ≠ .differs) (hk : 0 ≤ k) (h : r.MeetsAt (List.ofFn x))
    (hd : ∀ s ∈ r.sides n, s.1 d ≤ 0) : r.MeetsAt (List.ofFn (x + k • d)) := by
  by_cases hfinite : Number.isFinite r.rhs = true
  · by_cases hempty : r.terms = []
    · -- without terms the left-hand side is the same everywhere
      rw [MeetsAt, Row.lhs, hempty] at h ⊢
      exact h
    · rw [Row.meetsAt_iff_sides terms linear hempty hfinite] at h ⊢
      exact true_along hk h hd
  · exact (Row.meetsAt_congr terms hfinite _ _).mp h

end Along

end Inequalities

/-! ## Rays -/

section Rays

variable {p : Program ExtRat}

/-- A direction that stays within the declared bounds and keeps every row, from wherever one
sets out and however far one goes, and that lowers the cost. -/
structure IsRay (p : Program ExtRat) (d : Fin p.columns.length → ℚ) : Prop where
  bounds : ∀ (x : Fin p.columns.length → ℚ) (k : ℚ), 0 ≤ k →
    Box.Has (p.columns.map (·.bounds)) ((List.ofFn x).map .fin) →
    Box.Has (p.columns.map (·.bounds)) ((List.ofFn (x + k • d)).map .fin)
  rows : ∀ (x : Fin p.columns.length → ℚ) (k : ℚ), 0 ≤ k → ∀ r ∈ p.rows,
    r.MeetsAt (List.ofFn x) → r.MeetsAt (List.ofFn (x + k • d))
  cost : p.costForm d < 0

/-- **What is unbounded has a ray.** Rows without terms need not hold at the points. -/
theorem exists_ray (data : p.HasRationalData)
    (unbounded : ∀ bound, ∃ x, Box.Has (p.columns.map (·.bounds)) (x.map .fin)
      ∧ (∀ r ∈ p.rows, r.terms ≠ [] → r.MeetsAt x) ∧ p.costOn x < bound) :
    ∃ d, p.IsRay d := by
  let inequalities : List (Inequality p.columns.length) :=
    (List.finRange p.columns.length).flatMap (fun i => endsOf p.columns[i].bounds i)
      ++ p.rows.flatMap fun r => r.sides p.columns.length
  obtain ⟨d, hd, hcost⟩ := Polyhedron.exists_direction inequalities p.costForm fun bound => by
    obtain ⟨x, hbox, hrows, hlt⟩ := unbounded (bound + p.sense.cost p.constant.value)
    obtain ⟨y, rfl⟩ := exists_ofFn (n := p.columns.length) (x := x) (by
      simpa using hbox.length_eq.symm)
    rw [costOn_ofFn] at hlt
    refine ⟨y, fun s hs => ?_, by linarith⟩
    rcases List.mem_append.mp hs with hs | hs
    · obtain ⟨i, -, hs⟩ := List.mem_flatMap.mp hs
      have hb := data.bounds _ (List.getElem_mem i.isLt)
      exact (has_iff_endsOf hb i y).mp ((has_bounds_ofFn_iff y).mp hbox i) s hs
    · obtain ⟨r, hr, hs⟩ := List.mem_flatMap.mp hs
      exact Row.sides_of_meetsAt (data.terms r hr) (data.linear r hr) (hrows r hr) s hs
  refine ⟨d, fun x k hk hx => ?_, fun x k hk r hr hx => ?_, hcost⟩
  · rw [has_bounds_ofFn_iff] at hx ⊢
    intro i
    refine has_along (data.bounds _ (List.getElem_mem i.isLt)) hk (hx i) fun s hs => hd s ?_
    exact List.mem_append_left _ (List.mem_flatMap.mpr ⟨i, List.mem_finRange i, hs⟩)
  · refine Row.meetsAt_along (data.terms r hr) (data.linear r hr) hk hx fun s hs => hd s ?_
    exact List.mem_append_right _ (List.mem_flatMap.mpr ⟨r, hr, hs⟩)

/-- Some multiple of rationals is whole. -/
theorem exists_whole_multiple {n : ℕ} (d : Fin n → ℚ) :
    ∃ k : ℕ, 0 < k ∧ ∀ i, ∃ z : ℤ, k * d i = z := by
  refine ⟨∏ i, (d i).den, Finset.prod_pos fun i _ => (d i).den_pos, fun i => ?_⟩
  obtain ⟨c, hc⟩ := Finset.dvd_prod_of_mem (fun i => (d i).den) (Finset.mem_univ i)
  refine ⟨c * (d i).num, ?_⟩
  rw [hc]
  push_cast
  rw [mul_comm ((d i).den : ℚ), mul_assoc, mul_comm ((d i).den : ℚ), Rat.mul_den_eq_num]

/-- Where columns have to be whole, whole numbers may be added. -/
theorem wholeAt_add {x e : Fin p.columns.length → ℚ} (whole : ∀ i, ∃ z : ℤ, e i = z)
    (hx : p.WholeAt ((List.ofFn x).map .fin)) : p.WholeAt ((List.ofFn (x + e)).map .fin) := by
  rw [wholeAt_map_fin_iff (by simp), List.forall₂_iff_get] at hx ⊢
  refine ⟨by simp, fun i hi hlen hinteger => ?_⟩
  have hxi := hx.2 i hi (by simpa using hi) hinteger
  obtain ⟨z, hz⟩ := whole ⟨i, hi⟩
  simp only [List.get_eq_getElem, List.getElem_ofFn, Pi.add_apply] at hxi ⊢
  rw [hz, ← hxi]
  exact_mod_cast congrArg (Int.cast : ℤ → ℚ) (Rat.floor_intCast _)

/-- **From one point of the problem a ray leads to points of any cost.** -/
theorem IsRay.exists_cheaper {d : Fin p.columns.length → ℚ} (ray : p.IsRay d) {q : List ℚ}
    (hq : p.Solves q) (bound : ℚ) : ∃ q', p.Solves q' ∧ p.costOn q' < bound := by
  obtain ⟨x, rfl⟩ := exists_ofFn (n := p.columns.length) (x := q) (by
    simpa using hq.bounds.length_eq.symm)
  obtain ⟨k, hk, hwhole⟩ := exists_whole_multiple d
  -- each round along the ray saves at least a fixed amount
  have hsave : 0 < -(k * p.costForm d) := by
    have := mul_pos (Nat.cast_pos.mpr hk : (0 : ℚ) < k) (neg_pos.mpr ray.cost)
    linarith
  obtain ⟨rounds, hrounds⟩ := exists_nat_gt
    ((p.costOn (List.ofFn x) - bound) / -(k * p.costForm d))
  have hfar : (0 : ℚ) ≤ rounds * k := by positivity
  refine ⟨List.ofFn (x + ((rounds : ℚ) * k) • d), ⟨ray.bounds x _ hfar hq.bounds, ?_,
    fun r hr => ray.rows x _ hfar r hr (hq.rows r hr)⟩, ?_⟩
  · refine wholeAt_add (fun i => ?_) hq.whole
    obtain ⟨z, hz⟩ := hwhole i
    refine ⟨rounds * z, ?_⟩
    rw [Pi.smul_apply, smul_eq_mul, mul_assoc, hz]
    push_cast
    rfl
  · rw [div_lt_iff₀ hsave] at hrounds
    rw [costOn_ofFn] at hrounds ⊢
    rw [map_add, map_smul, smul_eq_mul]
    linarith

end Rays

end Program

end Milp
