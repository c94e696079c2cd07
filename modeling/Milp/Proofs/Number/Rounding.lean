/-
Rounding.

The nearest whole number is told by two things: no whole number is nearer, and of two that
are equally near it is the one farther from zero (`ExtRat.IsNearestInt`). `nearestInt` computes
it, and there is no other (`ExtRat.isNearestInt_iff`).

A carrier that rounds its differences does not round them past any of its numbers. `Faithful`
names this law. With it a comparison with a difference says something of the numbers that were
subtracted, as long as the other side is a number of the carrier.
-/
import Milp.Proofs.Number.Special

set_option autoImplicit false

namespace Milp.ExtRat

/-- No whole number is nearer to `q` than `z`, and where another one is as near, `z` is the
one farther from zero. -/
structure IsNearestInt (q : ℚ) (z : ℤ) : Prop where
  near : |q - z| ≤ 1 / 2
  away : |q - z| = 1 / 2 → |q| < |(z : ℚ)|

theorem isNearestInt_nearestInt (q : ℚ) : IsNearestInt q (nearestInt q) := by
  refine ⟨abs_sub_nearestInt_le q, fun htie => ?_⟩
  unfold nearestInt at htie ⊢
  by_cases hneg : q < 0
  · rw [if_pos hneg] at htie ⊢
    have hup := Rat.lt_floor (x := -q + 1 / 2)
    have hdown := Rat.floor_le (-q + 1 / 2)
    generalize (-q + 1 / 2).floor = n at htie hup hdown
    push_cast at htie ⊢
    -- the lower of the two is the one that counts
    have hq : q - -n = 1 / 2 := by
      rcases eq_or_eq_neg_of_abs_eq htie with h | h <;> linarith
    rw [abs_of_neg hneg, abs_of_neg (by linarith)]
    linarith
  · rw [if_neg hneg] at htie ⊢
    have hup := Rat.lt_floor (x := q + 1 / 2)
    have hdown := Rat.floor_le (q + 1 / 2)
    generalize (q + 1 / 2).floor = n at htie hup hdown
    have hq : q - n = -(1 / 2) := by
      rcases eq_or_eq_neg_of_abs_eq htie with h | h <;> linarith
    rw [abs_of_nonneg (not_lt.mp hneg), abs_of_pos (by linarith)]
    linarith

/-- Between two whole numbers, the middle is farther from zero than one of them. -/
theorem not_lt_abs_of_middle {q : ℚ} {n : ℤ} (middle : q = n + 1 / 2) (low : |q| < |(n : ℚ)|) :
    ¬ |q| < |((n + 1 : ℤ) : ℚ)| := by
  intro high
  rw [← sq_lt_sq, middle] at low high
  push_cast at high
  have hneg : (n : ℚ) < 0 := by linarith
  have hneg' : (n : ℚ) ≤ -1 := by
    have : n < 0 := by exact_mod_cast hneg
    exact_mod_cast (by omega : n ≤ -1)
  linarith

/-- **Rounding finds the nearest whole number**, and there is only one that counts. -/
theorem isNearestInt_iff {q : ℚ} {z : ℤ} : IsNearestInt q z ↔ z = nearestInt q := by
  constructor
  · intro h
    obtain ⟨hnear, haway⟩ := isNearestInt_nearestInt q
    by_contra hne
    have hone : (1 : ℚ) ≤ |(z : ℚ) - nearestInt q| := by
      have hint : (1 : ℤ) ≤ |z - nearestInt q| := Int.one_le_abs (sub_ne_zero.mpr hne)
      exact_mod_cast hint
    generalize nearestInt q = n at hnear haway hone
    have hsum : |(z : ℚ) - n| ≤ |q - z| + |q - n| := by
      have := abs_sub_le (z : ℚ) q n
      rwa [abs_sub_comm (z : ℚ) q] at this
    -- both are one half away, so `q` is in the middle, and both are farther from zero
    have hz : |q - z| = 1 / 2 := le_antisymm h.near (by linarith)
    have hn : |q - n| = 1 / 2 := le_antisymm hnear (by linarith)
    rcases eq_or_eq_neg_of_abs_eq hz with hzq | hzq <;>
      rcases eq_or_eq_neg_of_abs_eq hn with hnq | hnq
    · rw [show (z : ℚ) = n by linarith, sub_self, abs_zero] at hone
      linarith
    · have hnext : n = z + 1 := by exact_mod_cast (by linarith : (n : ℚ) = z + 1)
      exact not_lt_abs_of_middle (by linarith) (h.away hz) (hnext ▸ haway hn)
    · have hnext : z = n + 1 := by exact_mod_cast (by linarith : (z : ℚ) = n + 1)
      exact not_lt_abs_of_middle (by linarith) (haway hn) (hnext ▸ h.away hz)
    · rw [show (z : ℚ) = n by linarith, sub_self, abs_zero] at hone
      linarith
  · rintro rfl
    exact isNearestInt_nearestInt q

end Milp.ExtRat

namespace Milp.Number

/-- A number that is not whole is a rational. -/
theorem isWhole_eq_false_iff {α : Type} [Number α] [Lawful α] {x : α} (number : exact x ≠ .nan) :
    isWhole x = false ↔ ∃ q : ℚ, exact x = .fin q ∧ ((q.floor : ℤ) : ℚ) ≠ q := by
  rw [isWhole, Lawful.beq_eq, Lawful.exact_floor]
  cases hx : exact x with
  | nan => exact absurd hx number
  | negInf => exact iff_of_false (by decide) (by simp)
  | posInf => exact iff_of_false (by decide) (by simp)
  | fin q =>
    rw [ExtRat.floor_fin]
    simp [ExtRat.eqv]

/-- **The laws.** A half is a half, and rounding to a whole number is exact. A difference that
is rounded stays above the numbers that it was above. -/
class Faithful (α : Type) [Number α] : Prop extends Special α where
  exact_half : exact (0.5 : α) = .fin (1 / 2)
  exact_round (x : α) : exact (round x) = round (exact x)
  le_sub (x y z : α) : le (exact z) (exact x - exact y) = true → le z (x - y) = true

theorem half_extRat : (0.5 : ExtRat) = .fin (1 / 2) := by
  with_unfolding_all rfl

instance : Faithful ExtRat where
  exact_half := by rw [exact_extRat, half_extRat]
  exact_round x := by rw [exact_extRat, exact_extRat]
  le_sub x y z h := by rwa [exact_extRat, exact_extRat, exact_extRat] at h

section Faithful

variable {α : Type} [Number α] [Faithful α] {x : α}

theorem isFinite_round (finite : isFinite x = true) : isFinite (round x) = true := by
  rw [isFinite_iff_isRational] at finite ⊢
  obtain ⟨q, hq⟩ := finite
  exact ⟨ExtRat.nearestInt q, by rw [Faithful.exact_round, hq, ExtRat.round_fin]⟩

theorem isWhole_round (finite : isFinite x = true) : isWhole (round x) = true := by
  obtain ⟨q, hq⟩ := (isFinite_iff_isRational x).mp finite
  rw [isWhole, Lawful.beq_eq, Lawful.exact_floor, Faithful.exact_round, hq, ExtRat.round_fin,
    ExtRat.floor_fin, Rat.floor_intCast]
  exact decide_eq_true rfl

end Faithful

end Milp.Number
