/-
Lawful carriers of numbers.

The carrier the program runs with rounds its sums and products, so no theorem about
it can use the laws of arithmetic. What it does keep is the order, and the step to a
whole number. This file names exactly that much.

`exact` reads a number of any carrier as the `ExtRat` it stands for. A carrier is
`Lawful` when comparing two numbers compares their readings, when the whole numbers
around a number and its distance to the nearest of them are exact, and when taking a
margin that is not negative away from a number does not make it larger. IEEE 754 promises all
of these; `ExtRat` has them by computation. What follows from them is proved at
`ExtRat` and carried over by `exact`.
-/
import Milp.Proofs.Number.Exact

set_option autoImplicit false

namespace Milp.Number

/-! ## Readings -/

section Reading

variable {α : Type} [Number α]

/-- The exact value that a number stands for. -/
def exact (x : α) : ExtRat :=
  match toRat? x with
  | some q => .fin q
  | none => if isNaN x then .nan else if lt 0 x then .posInf else .negInf

/-- Whether a number is whole: rounding it down leaves it as it is. -/
def isWhole (x : α) : Bool := floor x == x

end Reading

/-- **The laws.** Comparisons and the passage to whole numbers are exact; a margin
that is not negative takes nothing up and adds nothing down. -/
class Lawful (α : Type) [Number α] : Prop where
  lt_eq (x y : α) : lt x y = ExtRat.lt (exact x) (exact y)
  le_eq (x y : α) : le x y = ExtRat.le (exact x) (exact y)
  beq_eq (x y : α) : (x == y) = ExtRat.eqv (exact x) (exact y)
  exact_zero : exact (0 : α) = .fin 0
  exact_floor (x : α) : exact (floor x) = floor (exact x)
  exact_ceil (x : α) : exact (ceil x) = ceil (exact x)
  exact_gap (x : α) : exact (integralityGap x) = integralityGap (exact x)
  lt_of_lt_sub (x y margin : α) : le 0 margin = true → lt x (y - margin) = true → lt x y = true
  lt_of_add_lt (x y margin : α) : le 0 margin = true → lt (x + margin) y = true → lt x y = true

/-! ## The exact carrier -/

@[simp] theorem exact_extRat (x : ExtRat) : exact x = x := by
  cases x <;> rfl

theorem lt_of_lt_sub_extRat (x y margin : ExtRat) (hm : le 0 margin = true)
    (h : lt x (y - margin) = true) : lt x y = true := by
  -- arithmetic is needed only where all three are finite; an infinite margin leaves
  -- nothing that is above a number
  have hsub : y - margin = ExtRat.add y (ExtRat.neg margin) := rfl
  rw [hsub] at h
  cases x <;> cases y <;> cases margin <;>
    simp_all [lt, le, ExtRat.lt, ExtRat.le, ExtRat.eqv, ExtRat.add, ExtRat.neg]
  linarith [le_iff_lt_or_eq.mpr hm]

theorem lt_of_add_lt_extRat (x y margin : ExtRat) (hm : le 0 margin = true)
    (h : lt (x + margin) y = true) : lt x y = true := by
  have hadd : x + margin = ExtRat.add x margin := rfl
  rw [hadd] at h
  cases x <;> cases y <;> cases margin <;>
    simp_all [lt, le, ExtRat.lt, ExtRat.le, ExtRat.eqv, ExtRat.add]
  linarith [le_iff_lt_or_eq.mpr hm]

instance : Lawful ExtRat where
  lt_eq x y := by rw [exact_extRat, exact_extRat]; rfl
  le_eq x y := by rw [exact_extRat, exact_extRat]; rfl
  beq_eq x y := by rw [exact_extRat, exact_extRat]; rfl
  exact_zero := by rw [exact_extRat, ExtRat.zero_eq]
  exact_floor x := by rw [exact_extRat, exact_extRat]
  exact_ceil x := by rw [exact_extRat, exact_extRat]
  exact_gap x := by rw [exact_extRat, exact_extRat]
  lt_of_lt_sub := lt_of_lt_sub_extRat
  lt_of_add_lt := lt_of_add_lt_extRat

/-! ## The order of the exact carrier -/

theorem isNaN_extRat (x : ExtRat) : isNaN x = true ↔ x = .nan := by
  cases x <;> simp [isNaN, BEq.beq, ExtRat.eqv]

theorem lt_trans_extRat {x y z : ExtRat} (hxy : lt x y = true) (hyz : lt y z = true) :
    lt x z = true := by
  cases x <;> cases y <;> cases z <;> simp_all [lt, ExtRat.lt]
  linarith

theorem lt_irrefl_extRat (x : ExtRat) : lt x x = false := by
  cases x <;> simp [lt, ExtRat.lt]

theorem le_of_lt_extRat {x y : ExtRat} (h : lt x y = true) : le x y = true := by
  show (lt x y || ExtRat.eqv x y) = true
  rw [h, Bool.true_or]

theorem le_trans_extRat {x y z : ExtRat} (hxy : le x y = true) (hyz : le y z = true) :
    le x z = true := by
  cases x <;> cases y <;> cases z <;> simp_all [le, ExtRat.le, ExtRat.lt, ExtRat.eqv]
  rw [← le_iff_lt_or_eq] at *
  linarith

theorem lt_of_le_of_lt_extRat {x y z : ExtRat} (hxy : le x y = true) (hyz : lt y z = true) :
    lt x z = true := by
  cases x <;> cases y <;> cases z <;> simp_all [lt, le, ExtRat.le, ExtRat.lt, ExtRat.eqv]
  rw [← le_iff_lt_or_eq] at hxy
  linarith

/-- Of two numbers that are numbers, one is below the other. -/
theorem le_of_not_lt_extRat {x y : ExtRat} (hx : x ≠ .nan) (hy : y ≠ .nan)
    (h : lt x y = false) : le y x = true := by
  cases x <;> cases y <;> simp_all [lt, le, ExtRat.lt, ExtRat.le, ExtRat.eqv, ← le_iff_lt_or_eq]

theorem ne_nan_of_le_extRat {x y : ExtRat} (h : le x y = true) : x ≠ .nan ∧ y ≠ .nan := by
  cases x <;> cases y <;> simp_all [le, ExtRat.le, ExtRat.lt, ExtRat.eqv]

/-- The lesser of two numbers is above exactly what both are above. -/
theorem le_min_iff_extRat {x y z : ExtRat} (hy : y ≠ .nan) (hz : z ≠ .nan) :
    le x (Number.min y z) = true ↔ le x y = true ∧ le x z = true := by
  -- NaN apart, the minimum is the one that the comparison picks, and the other is above it
  have hnan : isNaN z = false := by simpa using mt (isNaN_extRat z).mp hz
  rw [Number.min, hnan, Bool.false_or]
  cases hyz : lt y z with
  | true =>
    rw [if_pos rfl]
    exact ⟨fun h => ⟨h, le_trans_extRat h (le_of_lt_extRat hyz)⟩, fun h => h.1⟩
  | false =>
    rw [if_neg Bool.false_ne_true]
    exact ⟨fun h => ⟨le_trans_extRat h (le_of_not_lt_extRat hy hz hyz), h⟩, fun h => h.2⟩

theorem max_le_iff_extRat {x y z : ExtRat} (hy : y ≠ .nan) (hz : z ≠ .nan) :
    le (Number.max y z) x = true ↔ le y x = true ∧ le z x = true := by
  have hnan : isNaN z = false := by simpa using mt (isNaN_extRat z).mp hz
  rw [Number.max, hnan, Bool.false_or]
  cases hzy : lt z y with
  | true =>
    rw [if_pos rfl]
    exact ⟨fun h => ⟨h, le_trans_extRat (le_of_lt_extRat hzy) h⟩, fun h => h.1⟩
  | false =>
    rw [if_neg Bool.false_ne_true]
    exact ⟨fun h => ⟨le_trans_extRat (le_of_not_lt_extRat hz hy hzy) h, h⟩, fun h => h.2⟩

/-! ## Lawful carriers -/

section Lawful

variable {α : Type} [Number α] [Lawful α]

theorem exact_ne_nan_of_le {x y : α} (h : le x y = true) : exact x ≠ .nan ∧ exact y ≠ .nan := by
  rw [Lawful.le_eq] at h
  exact ne_nan_of_le_extRat h

theorem isNaN_eq (x : α) : isNaN x = isNaN (exact x) := by
  rw [isNaN, Lawful.beq_eq]
  rfl

theorem exact_min (x y : α) : exact (Number.min x y) = Number.min (exact x) (exact y) := by
  rw [Number.min, Number.min, isNaN_eq, Lawful.lt_eq x y]
  exact apply_ite exact _ x y

theorem exact_max (x y : α) : exact (Number.max x y) = Number.max (exact x) (exact y) := by
  rw [Number.max, Number.max, isNaN_eq, Lawful.lt_eq y x]
  exact apply_ite exact _ x y

theorem lt_trans_of_lawful {x y z : α} (hxy : lt x y = true) (hyz : lt y z = true) :
    lt x z = true := by
  rw [Lawful.lt_eq] at hxy hyz ⊢
  exact lt_trans_extRat hxy hyz

theorem lt_of_le_of_lt_of_lawful {x y z : α} (hxy : le x y = true) (hyz : lt y z = true) :
    lt x z = true := by
  rw [Lawful.le_eq] at hxy
  rw [Lawful.lt_eq] at hyz ⊢
  exact lt_of_le_of_lt_extRat hxy hyz

theorem lt_of_lt_of_le_of_lawful {x y z : α} (hxy : lt x y = true) (hyz : le y z = true) :
    lt x z = true := by
  rw [Lawful.lt_eq] at hxy ⊢
  rw [Lawful.le_eq] at hyz
  by_contra hnot
  have hx : exact x ≠ .nan := (ne_nan_of_le_extRat (le_of_lt_extRat hxy)).1
  have hzx := le_of_not_lt_extRat hx (ne_nan_of_le_extRat hyz).2 (Bool.not_eq_true _ ▸ hnot)
  have hyy := lt_of_le_of_lt_extRat (le_trans_extRat hyz hzx) hxy
  rw [lt_irrefl_extRat] at hyy
  cases hyy

theorem lt_irrefl_of_lawful (x : α) : lt x x = false := by
  rw [Lawful.lt_eq]
  exact lt_irrefl_extRat _

theorem le_of_lt_of_lawful {x y : α} (h : lt x y = true) : le x y = true := by
  rw [Lawful.lt_eq] at h
  rw [Lawful.le_eq]
  exact le_of_lt_extRat h

theorem le_self_of_lawful {x : α} (number : isNaN x = false) : le x x = true := by
  have hequal : (x == x) = true := by simpa [isNaN] using number
  rw [Lawful.beq_eq] at hequal
  rw [Lawful.le_eq]
  show (ExtRat.lt (exact x) (exact x) || ExtRat.eqv (exact x) (exact x)) = true
  rw [hequal, Bool.or_true]

theorem isNaN_zero : isNaN (0 : α) = false := by
  rw [isNaN_eq, Lawful.exact_zero, ExtRat.isNaN_fin]

theorem le_trans_of_lawful {x y z : α} (hxy : le x y = true) (hyz : le y z = true) :
    le x z = true := by
  rw [Lawful.le_eq] at hxy hyz ⊢
  exact le_trans_extRat hxy hyz

/-- What is below one of two is below the greater, whatever the other is. -/
theorem le_max_of_le_left {x y z : α} (h : le z x = true) : le z (Number.max x y) = true := by
  rw [Number.max]
  by_cases hpick : (isNaN y || lt y x) = true
  · rwa [if_pos hpick]
  · rw [if_neg hpick]
    rw [Bool.or_eq_true, not_or] at hpick
    obtain ⟨hnumber, hbelow⟩ := hpick
    have hy : exact y ≠ .nan := by
      rwa [isNaN_eq, isNaN_extRat] at hnumber
    refine le_trans_of_lawful h ?_
    rw [Lawful.le_eq]
    rw [Lawful.lt_eq, Bool.not_eq_true] at hbelow
    exact le_of_not_lt_extRat hy (exact_ne_nan_of_le h).2 hbelow

theorem le_max_of_le_right {x y z : α} (h : le z y = true) : le z (Number.max x y) = true := by
  rw [Number.max]
  by_cases hpick : (isNaN y || lt y x) = true
  · rw [if_pos hpick]
    rcases Bool.or_eq_true _ _ ▸ hpick with hnan | hbelow
    · rw [isNaN_eq, isNaN_extRat] at hnan
      exact absurd hnan (exact_ne_nan_of_le h).2
    · exact le_trans_of_lawful h (le_of_lt_of_lawful hbelow)
  · rwa [if_neg hpick]

/-- The greater of two is above the second, if that is a number. -/
theorem le_max_right_of_lawful (x : α) {y : α} (number : isNaN y = false) :
    le y (Number.max x y) = true :=
  le_max_of_le_right (le_self_of_lawful number)

theorem min_le_right_of_lawful (x : α) {y : α} (number : isNaN y = false) :
    le (Number.min x y) y = true := by
  rw [Number.min, number, Bool.false_or]
  by_cases h : lt x y = true
  · rw [if_pos h]
    exact le_of_lt_of_lawful h
  · rw [if_neg h]
    exact le_self_of_lawful number

end Lawful

end Milp.Number
