/-
Tolerances that are scaled.

What may be missed is a tolerance times a size, and a size may be infinite or no number. Where
a factor is no rational IEEE 754 fixes the product, and it is that of the exact carrier. Where
both factors are rational and not below zero, a rounded product is not below zero either,
though it may have overflowed. `Scaling` names these laws beside those of sums (`Special`), with
the two literals that sizes are made of.

A size is at least one, so a tolerance that is not negative scales to a number, unless it is
zero and the size infinite (`isNaN_mul_eq_false`). A positive tolerance takes an infinite size
to infinity (`exact_mul_of_infinite`), and nothing is greater than that.
-/
import Milp.Proofs.Number.Special

set_option autoImplicit false

namespace Milp.Number

/-- One is what it is called. -/
class Unital (α : Type) [Number α] : Prop extends Special α where
  exact_one : exact (1 : α) = .fin 1

/-- **The laws.** Ten is what it is called, and a sign is changed without loss. A product is
exact where one side is no rational; where both are rational and not below zero, neither is
the product. -/
class Scaling (α : Type) [Number α] : Prop extends Unital α where
  exact_ten : exact (10 : α) = .fin 10
  exact_zero_sub (x : α) : exact (0 - x) = -exact x
  exact_mul (x y : α) : ¬ (IsRational x ∧ IsRational y) → exact (x * y) = exact x * exact y
  mul_nonneg (x y : α) : IsRational x → IsRational y → le 0 x = true → le 0 y = true →
    le 0 (x * y) = true

/-! ## The exact carrier -/

theorem zero_sub_extRat (x : ExtRat) : 0 - x = -x := by
  rw [ExtRat.zero_eq]
  cases x with
  | nan => rfl
  | negInf => rfl
  | posInf => rfl
  | fin q => rw [ExtRat.fin_sub, ExtRat.fin_neg, zero_sub]

instance : Scaling ExtRat where
  exact_one := by rw [exact_extRat, ExtRat.one_eq]
  exact_ten := by rw [exact_extRat, ExtRat.ten_eq]
  exact_zero_sub x := by rw [exact_extRat, exact_extRat, zero_sub_extRat]
  exact_mul x y _ := by rw [exact_extRat, exact_extRat, exact_extRat]
  mul_nonneg x y hx hy hx0 hy0 := by
    obtain ⟨a, rfl⟩ := (isRational_extRat_iff x).mp hx
    obtain ⟨b, rfl⟩ := (isRational_extRat_iff y).mp hy
    rw [ExtRat.zero_eq, ExtRat.le_fin, decide_eq_true_iff] at hx0 hy0
    rw [ExtRat.fin_mul]
    exact ExtRat.zero_le_fin (mul_nonneg hx0 hy0)

/-! ## Comparisons that decide nothing -/

section Lawful

variable {α : Type} [Number α] [Lawful α]

theorem lt_eq_false_of_isNaN {x y : α} (h : isNaN x = true ∨ isNaN y = true) : lt x y = false := by
  rw [isNaN_iff, isNaN_iff] at h
  rw [Lawful.lt_eq]
  rcases h with hx | hy
  · rw [hx]
    rfl
  · rw [hy]
    cases exact x <;> rfl

/-- A number that is not greater than another is at most that, or one of the two is no
number. -/
theorem gt_eq_false_iff (x y : α) :
    gt x y = false ↔ isNaN x = true ∨ isNaN y = true ∨ le x y = true := by
  constructor
  · intro h
    by_cases hx : isNaN x = true
    · exact .inl hx
    · by_cases hy : isNaN y = true
      · exact .inr (.inl hy)
      · rw [isNaN_iff] at hx hy
        rw [gt, Lawful.lt_eq] at h
        rw [Lawful.le_eq]
        exact .inr (.inr (le_of_not_lt_extRat hy hx h))
  · rintro (hx | hy | hle)
    · exact lt_eq_false_of_isNaN (.inr hx)
    · exact lt_eq_false_of_isNaN (.inl hy)
    · by_contra hlt
      rw [Bool.not_eq_false] at hlt
      have hself := lt_of_le_of_lt_of_lawful hle hlt
      rw [lt_irrefl_of_lawful] at hself
      cases hself

/-- The greater of two numbers passes over the first if that is none. -/
theorem max_eq_right_of_isNaN {x y : α} (hx : isNaN x = true) (hy : isNaN y = false) :
    max x y = y := by
  rw [max, hy, lt_eq_false_of_isNaN (.inr hx)]
  rfl

theorem min_eq_right_of_isNaN {x y : α} (hx : isNaN x = true) (hy : isNaN y = false) :
    min x y = y := by
  rw [min, hy, lt_eq_false_of_isNaN (.inl hx)]
  rfl

/-- Every number is at most infinite. -/
theorem le_of_exact_eq_posInf {x y : α} (number : isNaN x = false) (infinite : exact y = .posInf) :
    le x y = true := by
  rw [isNaN_eq_false_iff] at number
  rw [Lawful.le_eq, infinite]
  cases hx : exact x with
  | nan => exact absurd hx number
  | negInf => rfl
  | posInf => rfl
  | fin q => rfl

/-- What is above a rational is a rational above it, or infinite. -/
theorem exact_cases_of_le {x y : α} {q : ℚ} (hx : exact x = .fin q) (h : le x y = true) :
    (∃ r : ℚ, exact y = .fin r ∧ q ≤ r) ∨ exact y = .posInf := by
  rw [Lawful.le_eq, hx] at h
  cases hy : exact y with
  | fin r =>
    rw [hy] at h
    exact .inl ⟨r, rfl, of_decide_eq_true ((ExtRat.le_fin q r).symm.trans h)⟩
  | posInf => exact .inr rfl
  | nan => rw [hy] at h; cases h
  | negInf => rw [hy] at h; cases h

/-- What is above an infinity is infinite. -/
theorem exact_eq_posInf_of_le {x y : α} (infinite : exact x = .posInf) (h : le x y = true) :
    exact y = .posInf := by
  rw [Lawful.le_eq, infinite] at h
  cases hy : exact y with
  | posInf => rfl
  | nan => rw [hy] at h; cases h
  | negInf => rw [hy] at h; cases h
  | fin q => rw [hy] at h; cases h

theorem exact_max_of_left_infinite {x : α} (y : α) (infinite : exact x = .posInf) :
    exact (max x y) = .posInf :=
  exact_eq_posInf_of_le infinite (le_max_of_le_left (le_self_of_lawful
    (by rw [isNaN_eq, infinite]; rfl)))

theorem exact_max_of_right_infinite (x : α) {y : α} (infinite : exact y = .posInf) :
    exact (max x y) = .posInf :=
  exact_eq_posInf_of_le infinite (le_max_right_of_lawful x (by rw [isNaN_eq, infinite]; rfl))

end Lawful

/-! ## Sizes -/

variable {α : Type} [Number α]

section Unital

variable [Unital α]

theorem isNaN_one : isNaN (1 : α) = false := by
  rw [isNaN_eq, Unital.exact_one, ExtRat.isNaN_fin]

/-- A size is at least one. -/
theorem one_le_max_one (x : α) : le 1 (max x 1) = true := le_max_right_of_lawful x isNaN_one

end Unital

variable [Scaling α]

/-- Magnitudes are exact. -/
theorem exact_abs (x : α) : exact (abs x) = abs (exact x) := by
  rw [abs, abs, Lawful.lt_eq, Lawful.exact_zero, zero_sub_extRat, apply_ite exact,
    Scaling.exact_zero_sub, ExtRat.zero_eq]
  rfl

theorem isNaN_abs (x : α) : isNaN (abs x) = isNaN x := by
  rw [isNaN_eq, exact_abs, isNaN_eq x]
  cases hx : exact x with
  | nan => rfl
  | negInf => rfl
  | posInf => rfl
  | fin q => rw [ExtRat.abs_fin, ExtRat.isNaN_fin, ExtRat.isNaN_fin]

theorem isRational_abs {x : α} (h : IsRational x) : IsRational (abs x) := by
  obtain ⟨q, hq⟩ := h
  exact ⟨|q|, by rw [exact_abs, hq, ExtRat.abs_fin]⟩

/-- A number that is not finite is infinite in magnitude. -/
theorem exact_abs_of_not_isFinite {x : α} (number : isNaN x = false)
    (infinite : isFinite x = false) : exact (abs x) = .posInf := by
  rw [isNaN_eq_false_iff] at number
  rw [← Bool.not_eq_true, isFinite_iff_isRational] at infinite
  rw [exact_abs]
  cases hx : exact x with
  | nan => exact absurd hx number
  | negInf => rfl
  | posInf => rfl
  | fin q => exact absurd ⟨q, hx⟩ infinite

/-! ## Products -/

omit [Scaling α] in
theorem not_isRational_of_posInf {x : α} (h : exact x = .posInf) : ¬ IsRational x := by
  rintro ⟨q, hq⟩
  rw [h] at hq
  cases hq

theorem exact_mul_posInf {x s : α} {q : ℚ} (hx : exact x = .fin q) (hs : exact s = .posInf) :
    exact (x * s) = .scaleInfinity false q := by
  rw [Scaling.exact_mul x s fun h => not_isRational_of_posInf hs h.2, hx, hs]
  rfl

/-- A positive number takes an infinite size to infinity. -/
theorem exact_mul_of_infinite {x s : α} (positive : lt 0 x = true) (finite : isFinite x = true)
    (hs : exact s = .posInf) : exact (x * s) = .posInf := by
  obtain ⟨q, hq⟩ := (isFinite_iff_isRational x).mp finite
  have hpos : 0 < q := by
    rw [Lawful.lt_eq, Lawful.exact_zero, hq] at positive
    exact of_decide_eq_true positive
  rw [exact_mul_posInf hq hs, ExtRat.scaleInfinity, if_neg hpos.ne', if_pos (by simp [hpos.le])]

/-- A size of what is infinite is infinite. -/
theorem exact_infinite_mul {x s : α} (hx : exact x = .posInf) (size : le 1 s = true) :
    exact (x * s) = .posInf := by
  rw [Scaling.exact_mul x s fun h => not_isRational_of_posInf hx h.1, hx]
  rcases exact_cases_of_le Unital.exact_one size with ⟨r, hs, hr⟩ | hs
  · have hmul : ExtRat.posInf * ExtRat.fin r = .scaleInfinity false r := rfl
    rw [hs, hmul, ExtRat.scaleInfinity, if_neg (by linarith), if_pos (by simp; linarith)]
  · rw [hs]
    rfl

/-- **Nothing exceeds a share of an infinite size**, not even where the share is zero. -/
theorem gt_mul_of_infinite {x s : α} (nonneg : le 0 x = true) (hs : exact s = .posInf) (y : α) :
    gt y (x * s) = false := by
  -- the share is infinite, or no number
  have hshare : exact (x * s) = .posInf ∨ exact (x * s) = .nan := by
    rcases exact_cases_of_le Lawful.exact_zero nonneg with ⟨q, hq, hq0⟩ | hx
    · rw [exact_mul_posInf hq hs, ExtRat.scaleInfinity]
      by_cases hzero : q = 0
      · exact .inr (if_pos hzero)
      · rw [if_neg hzero, if_pos (by simp [hq0])]
        exact .inl rfl
    · exact .inl (exact_infinite_mul hx (le_of_exact_eq_posInf isNaN_one hs))
  rw [gt_eq_false_iff, isNaN_iff (x * s)]
  by_cases number : isNaN y = true
  · exact .inl number
  · rw [Bool.not_eq_true] at number
    rcases hshare with hinf | hnan
    · exact .inr (.inr (le_of_exact_eq_posInf number hinf))
    · exact .inr (.inl hnan)

/-- A share of a size that is rational is a number. -/
theorem isNaN_mul_eq_false {x s : α} (nonneg : le 0 x = true) (size : le 1 s = true)
    (rational : IsRational s) : isNaN (x * s) = false := by
  rw [isNaN_eq_false_iff]
  rcases exact_cases_of_le Lawful.exact_zero nonneg with ⟨q, hq, -⟩ | hx
  · have hzero : le 0 (1 : α) = true := by
      rw [Lawful.le_eq, Lawful.exact_zero, Unital.exact_one]
      exact (ExtRat.le_fin 0 1).trans (decide_eq_true zero_le_one)
    have hle := Scaling.mul_nonneg x s ⟨q, hq⟩ rational nonneg (le_trans_of_lawful hzero size)
    exact (exact_ne_nan_of_le hle).2
  · rw [exact_infinite_mul hx size]
    exact ExtRat.noConfusion

end Milp.Number
