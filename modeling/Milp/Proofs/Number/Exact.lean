/-
Exact arithmetic on the finite values of `ExtRat`, and what "lawful" means for a
carrier of numbers.

The model is written over a carrier without laws (`Milp.Number`). Proofs about it
use two sets of facts, and this file is where both come from.

* Over `ExtRat`, finite values compute as the rationals they hold. The lemmas of the
  first sections pull every operation of the interface under `fin`; they are simp
  lemmas, so a goal about finite values turns into one about `ℚ`.
* Over any carrier, `exact` reads a number as the `ExtRat` it stands for. The carrier
  is `Lawful` when comparisons compare those readings, when rounding to a whole number
  and the distance to the nearest one are exact, and when taking a margin away from a
  number never makes it larger. Binary floating point has all of these by IEEE 754, although
  its sums and products are rounded. `ExtRat` has them by computation.
-/
import Mathlib
import Milp.Number.ExtRat

set_option autoImplicit false

namespace Milp.ExtRat

/-! ## The operations on finite values -/

@[simp] theorem zero_eq : (0 : ExtRat) = .fin 0 := by
  show ofNumeral (.finite false 0 0) = .fin 0
  simp [ofNumeral]

@[simp] theorem one_eq : (1 : ExtRat) = .fin 1 := by
  show ofNumeral (.finite false 1 0) = .fin 1
  simp [ofNumeral, tenPow]

@[simp] theorem ten_eq : (10 : ExtRat) = .fin 10 := by
  show ofNumeral (.finite false 10 0) = .fin 10
  simp [ofNumeral, tenPow]

@[simp] theorem posInf_eq : (Number.posInf : ExtRat) = .posInf := rfl

@[simp] theorem negInf_eq : (Number.negInf : ExtRat) = .negInf := rfl

@[simp] theorem fin_add (a b : ℚ) : ExtRat.fin a + ExtRat.fin b = .fin (a + b) := rfl

@[simp] theorem fin_neg (a : ℚ) : -ExtRat.fin a = .fin (-a) := rfl

@[simp] theorem fin_sub (a b : ℚ) : ExtRat.fin a - ExtRat.fin b = .fin (a - b) := by
  show ExtRat.fin (a + -b) = .fin (a - b)
  rw [sub_eq_add_neg]

@[simp] theorem fin_mul (a b : ℚ) : ExtRat.fin a * ExtRat.fin b = .fin (a * b) := rfl

@[simp] theorem beq_fin (a b : ℚ) : (ExtRat.fin a == ExtRat.fin b) = decide (a = b) := rfl

@[simp] theorem lt_fin (a b : ℚ) : Number.lt (ExtRat.fin a) (.fin b) = decide (a < b) := rfl

@[simp] theorem gt_fin (a b : ℚ) : Number.gt (ExtRat.fin a) (.fin b) = decide (b < a) := rfl

@[simp] theorem le_fin (a b : ℚ) : Number.le (ExtRat.fin a) (.fin b) = decide (a ≤ b) := by
  show (decide (a < b) || decide (a = b)) = decide (a ≤ b)
  simp [le_iff_lt_or_eq]

theorem zero_le_fin {a : ℚ} (h : 0 ≤ a) : Number.le 0 (ExtRat.fin a) = true := by
  rw [zero_eq, le_fin]
  exact decide_eq_true h

@[simp] theorem floor_fin (a : ℚ) : Number.floor (ExtRat.fin a) = .fin (a.floor : ℚ) := rfl

@[simp] theorem ceil_fin (a : ℚ) : Number.ceil (ExtRat.fin a) = .fin (a.ceil : ℚ) := rfl

@[simp] theorem round_fin (a : ℚ) : Number.round (ExtRat.fin a) = .fin (nearestInt a : ℚ) := rfl

@[simp] theorem isNaN_fin (a : ℚ) : Number.isNaN (ExtRat.fin a) = false := by
  simp [Number.isNaN]

@[simp] theorem abs_fin (a : ℚ) : Number.abs (ExtRat.fin a) = .fin |a| := by
  by_cases h : 0 < a
  · simp [Number.abs, h, abs_of_pos h]
  · simp [Number.abs, h, abs_of_nonpos (not_lt.mp h)]

@[simp] theorem max_fin (a b : ℚ) : Number.max (ExtRat.fin a) (.fin b) = .fin (max a b) := by
  by_cases h : b < a
  · simp [Number.max, h, max_eq_left h.le]
  · simp [Number.max, h, max_eq_right (not_lt.mp h)]

@[simp] theorem min_fin (a b : ℚ) : Number.min (ExtRat.fin a) (.fin b) = .fin (min a b) := by
  by_cases h : a < b
  · simp [Number.min, h, min_eq_left h.le]
  · simp [Number.min, h, min_eq_right (not_lt.mp h)]

@[simp] theorem integralityGap_fin (a : ℚ) :
    Number.integralityGap (ExtRat.fin a) = .fin |a - nearestInt a| := by
  simp [Number.integralityGap]

/-! ## The infinities -/

@[simp] theorem le_negInf_fin (a : ℚ) : Number.le ExtRat.negInf (.fin a) = true := rfl

@[simp] theorem le_fin_posInf (a : ℚ) : Number.le (ExtRat.fin a) .posInf = true := rfl

@[simp] theorem negInf_sub_fin (a : ℚ) : ExtRat.negInf - ExtRat.fin a = .negInf := rfl

@[simp] theorem fin_sub_posInf (a : ℚ) : ExtRat.fin a - ExtRat.posInf = .negInf := rfl

@[simp] theorem posInf_sub_fin (a : ℚ) : ExtRat.posInf - ExtRat.fin a = .posInf := rfl

@[simp] theorem fin_sub_negInf (a : ℚ) : ExtRat.fin a - ExtRat.negInf = .posInf := rfl

@[simp] theorem max_posInf_fin (a : ℚ) : Number.max ExtRat.posInf (.fin a) = .posInf := by
  rw [Number.max, isNaN_fin]
  rfl

@[simp] theorem max_negInf_negInf : Number.max ExtRat.negInf .negInf = .negInf := rfl

@[simp] theorem max_negInf_fin (a : ℚ) : Number.max ExtRat.negInf (.fin a) = .fin a := by
  rw [Number.max, isNaN_fin]
  rfl

@[simp] theorem max_fin_negInf (a : ℚ) : Number.max (ExtRat.fin a) .negInf = .fin a := rfl

@[simp] theorem min_posInf_posInf : Number.min ExtRat.posInf .posInf = .posInf := rfl

@[simp] theorem min_posInf_fin (a : ℚ) : Number.min ExtRat.posInf (.fin a) = .fin a := by
  rw [Number.min, isNaN_fin]
  rfl

@[simp] theorem min_fin_posInf (a : ℚ) : Number.min (ExtRat.fin a) .posInf = .fin a := rfl

/-! ## Which values are finite -/

/-- The rational that a finite value holds; zero for the others. -/
def value (x : ExtRat) : ℚ := x.toRat?.getD 0

@[simp] theorem value_fin (a : ℚ) : value (.fin a) = a := rfl

@[simp] theorem isFinite_fin (a : ℚ) : Number.isFinite (ExtRat.fin a) = true := rfl

theorem isFinite_iff (x : ExtRat) : Number.isFinite x = true ↔ x = .fin x.value := by
  cases x <;> simp [Number.isFinite, Number.lt, lt, value, toRat?]

theorem eq_fin_of_isFinite {x : ExtRat} (h : Number.isFinite x = true) : x = .fin x.value :=
  (isFinite_iff x).mp h

/-! ## Lists of finite values -/

theorem map_fin_injective : Function.Injective (List.map ExtRat.fin) :=
  List.map_injective_iff.mpr fun _ _ => ExtRat.fin.inj

/-- A sum of finite values is the sum of the rationals they hold. -/
@[simp] theorem sum_map_fin (xs : List ℚ) : Number.sum (xs.map ExtRat.fin) = .fin xs.sum := by
  -- sums start at the negated zero, which is zero again for a rational
  have shifted : ∀ (start : ℚ), (xs.map ExtRat.fin).foldl (· + ·) (ExtRat.fin start)
      = .fin (start + xs.sum) := by
    induction xs with
    | nil => intro start; simp
    | cons x xs ih =>
      intro start
      rw [List.map_cons, List.foldl_cons, fin_add, ih, List.sum_cons, add_assoc]
  have := shifted 0
  rw [Number.sum, zero_eq, fin_neg, neg_zero, this, zero_add]

@[simp] theorem valueAt_map_fin (xs : List ℚ) (i : Nat) :
    Number.valueAt (xs.map ExtRat.fin) i = .fin (xs.getD i 0) := by
  rw [Number.valueAt, zero_eq, List.getD_map]

/-! ## Rounding inward -/

/-- A bound that is rounded up is below no more numbers than before. -/
theorem le_of_ceil_le {l : ExtRat} {v : ℚ} (h : Number.le (Number.ceil l) (.fin v) = true) :
    Number.le l (.fin v) = true := by
  cases l with
  | fin a =>
    rw [ceil_fin, le_fin, decide_eq_true_iff] at h
    rw [le_fin, decide_eq_true_iff]
    exact Rat.le_ceil.trans h
  | nan => exact h
  | negInf => exact h
  | posInf => exact h

theorem ceil_le_intCast {l : ExtRat} {z : ℤ} (h : Number.le l (.fin z) = true) :
    Number.le (Number.ceil l) (.fin z) = true := by
  cases l with
  | fin a =>
    rw [le_fin, decide_eq_true_iff] at h
    rw [ceil_fin, le_fin, decide_eq_true_iff]
    exact_mod_cast Rat.ceil_le_iff.mpr h
  | nan => exact h
  | negInf => exact h
  | posInf => exact h

/-- A bound that is rounded down is above no more numbers than before. -/
theorem le_of_le_floor {u : ExtRat} {v : ℚ} (h : Number.le (.fin v) (Number.floor u) = true) :
    Number.le (.fin v) u = true := by
  cases u with
  | fin a =>
    rw [floor_fin, le_fin, decide_eq_true_iff] at h
    rw [le_fin, decide_eq_true_iff]
    exact h.trans (Rat.floor_le a)
  | nan => exact h
  | negInf => exact h
  | posInf => exact h

theorem intCast_le_floor {u : ExtRat} {z : ℤ} (h : Number.le (.fin z) u = true) :
    Number.le (.fin z) (Number.floor u) = true := by
  cases u with
  | fin a =>
    rw [le_fin, decide_eq_true_iff] at h
    rw [floor_fin, le_fin, decide_eq_true_iff]
    exact_mod_cast Rat.le_floor_iff.mpr h
  | nan => exact h
  | negInf => exact h
  | posInf => exact h

/-! ## The nearest integer -/

/-- The nearest integer is at most one half away. -/
theorem abs_sub_nearestInt_le (a : ℚ) : |a - nearestInt a| ≤ 1 / 2 := by
  unfold nearestInt
  split
  · have h₁ := Rat.floor_le (-a + 1 / 2)
    have h₂ := Rat.lt_floor (x := -a + 1 / 2)
    rw [abs_le]
    push_cast
    constructor <;> linarith
  · have h₁ := Rat.floor_le (a + 1 / 2)
    have h₂ := Rat.lt_floor (x := a + 1 / 2)
    rw [abs_le]
    constructor <;> linarith

@[simp] theorem nearestInt_intCast (z : ℤ) : nearestInt (z : ℚ) = z := by
  have h := abs_sub_nearestInt_le (z : ℚ)
  -- two integers that are less than one apart are the same
  have hlt : |((z - nearestInt z : ℤ) : ℚ)| < 1 := by
    push_cast
    linarith
  rw [← Int.cast_abs] at hlt
  have hzero : |z - nearestInt z| < 1 := by exact_mod_cast hlt
  have := Int.abs_lt_one_iff.mp hzero
  omega

theorem le_nearestInt {a : ℚ} {l : ℤ} (hl : (l : ℚ) ≤ a) : l ≤ nearestInt a := by
  have h := abs_le.mp (abs_sub_nearestInt_le a)
  have : (l : ℚ) - 1 < nearestInt a := by linarith [h.2]
  have : l - 1 < nearestInt a := by exact_mod_cast this
  omega

theorem nearestInt_le {a : ℚ} {u : ℤ} (hu : a ≤ u) : nearestInt a ≤ u := by
  have h := abs_le.mp (abs_sub_nearestInt_le a)
  have : (nearestInt a : ℚ) < u + 1 := by linarith [h.1]
  have : nearestInt a < u + 1 := by exact_mod_cast this
  omega

theorem eq_nearestInt_of_gap {a : ℚ} (h : ¬ 0 < |a - nearestInt a|) : a = nearestInt a := by
  have : |a - nearestInt a| = 0 := le_antisymm (not_lt.mp h) (abs_nonneg _)
  exact sub_eq_zero.mp (abs_eq_zero.mp this)

/-- No whole number is nearer than the nearest one. -/
theorem gap_le (a : ℚ) (z : ℤ) : |a - nearestInt a| ≤ |a - z| := by
  have hhalf := abs_sub_nearestInt_le a
  by_cases hz : nearestInt a = z
  · rw [hz]
  · -- another whole number is at least one away from the nearest
    have hone : (1 : ℚ) ≤ |(nearestInt a : ℚ) - z| := by
      have hint : (1 : ℤ) ≤ |nearestInt a - z| := Int.one_le_abs (sub_ne_zero.mpr hz)
      exact_mod_cast hint
    have htriangle : |(nearestInt a : ℚ) - z|
        ≤ |a - nearestInt a| + |a - z| := by
      have := abs_sub_le (nearestInt a : ℚ) a z
      rw [abs_sub_comm (nearestInt a : ℚ) a] at this
      exact this
    linarith

/-- The whole numbers around a number that is not whole. -/
theorem ceil_eq_floor_add_one {a : ℚ} (h : 0 < |a - nearestInt a|) :
    a.ceil = a.floor + 1 := by
  have hne : ((a.floor : ℤ) : ℚ) ≠ a := by
    intro heq
    rw [← heq, nearestInt_intCast, sub_self, abs_zero] at h
    exact lt_irrefl _ h
  have hlt : ((a.floor : ℤ) : ℚ) < a := lt_of_le_of_ne (Rat.floor_le a) hne
  have hup : a < ((a.floor + 1 : ℤ) : ℚ) := by
    have := Rat.lt_floor (x := a)
    push_cast
    linarith
  have h₁ : a.floor < a.ceil := by
    have : ((a.floor : ℤ) : ℚ) < a.ceil := lt_of_lt_of_le hlt Rat.le_ceil
    exact_mod_cast this
  have h₂ : a.ceil ≤ a.floor + 1 := Rat.ceil_le_iff.mpr hup.le
  omega

end Milp.ExtRat
