/-
Which numbers of seconds are lengths of time.

A number of seconds is turned into nanoseconds by rounding, and refused if it is negative,
if it is not finite, or if the nanoseconds do not fit. Rounding comes before the
comparison with the longest duration, so the numbers that fit end half a nanosecond behind
it, and whether that end is among them depends on how ties are broken
(`IsNearestEven.le_iff`).

`ofSeconds_of_isSpan` and `ofSeconds_of_not_isSpan` say what comes of a number in terms of
the exact value it stands for, for every carrier with the laws of order.
-/
import Milp.Duration
import Milp.Proofs.Number.Lawful

set_option autoImplicit false

namespace Milp

open Number (exact Lawful)

/-! ## The nearest whole number -/

/-- A whole number is nearest to a rational, and even if another one is as near. -/
def IsNearestEven (x : ℚ) (n : ℕ) : Prop := |x - n| ≤ 1 / 2 ∧ (|x - n| = 1 / 2 → Even n)

/-- A quotient is rounded to the nearest whole number, ties to even. -/
theorem Decimal.isNearestEven_roundDiv (numerator : ℕ) {denominator : ℕ}
    (pos : 0 < denominator) :
    IsNearestEven ((numerator : ℚ) / denominator) (roundDiv numerator denominator) := by
  have hpos : (0 : ℚ) < denominator := by exact_mod_cast pos
  have hsplit : (numerator : ℚ) = denominator * (numerator / denominator : ℕ)
      + (numerator % denominator : ℕ) := by
    exact_mod_cast (Nat.div_add_mod numerator denominator).symm
  have hx : (numerator : ℚ) / denominator
      = (numerator / denominator : ℕ) + ((numerator % denominator : ℕ) : ℚ) / denominator := by
    rw [hsplit, add_div, mul_div_cancel_left₀ _ hpos.ne']
  have hlow : (0 : ℚ) ≤ ((numerator % denominator : ℕ) : ℚ) / denominator := by positivity
  have hhigh : ((numerator % denominator : ℕ) : ℚ) / denominator < 1 := by
    rw [div_lt_one hpos]
    exact_mod_cast Nat.mod_lt numerator pos
  rw [hx, roundDiv]
  -- the rest of the division is less than half, more than half, or a tie
  by_cases hless : 2 * (numerator % denominator) < denominator
  · have hhalf : ((numerator % denominator : ℕ) : ℚ) / denominator < 1 / 2 := by
      rw [div_lt_div_iff₀ hpos two_pos]
      exact_mod_cast (by omega : numerator % denominator * 2 < 1 * denominator)
    simp only [if_pos hless, IsNearestEven, add_sub_cancel_left]
    rw [abs_of_nonneg hlow]
    exact ⟨hhalf.le, fun htie => absurd htie hhalf.ne⟩
  by_cases hmore : denominator < 2 * (numerator % denominator)
  · have hhalf : 1 / 2 < ((numerator % denominator : ℕ) : ℚ) / denominator := by
      rw [div_lt_div_iff₀ two_pos hpos]
      exact_mod_cast (by omega : 1 * denominator < numerator % denominator * 2)
    simp only [if_neg hless, if_pos hmore, IsNearestEven, Nat.cast_add, Nat.cast_one,
      add_sub_add_left_eq_sub]
    rw [abs_of_neg (by linarith)]
    exact ⟨by linarith, fun htie => by linarith⟩
  · have hhalf : ((numerator % denominator : ℕ) : ℚ) / denominator = 1 / 2 := by
      rw [div_eq_div_iff hpos.ne' two_ne_zero]
      exact_mod_cast (by omega : numerator % denominator * 2 = 1 * denominator)
    simp only [if_neg hless, if_neg hmore, IsNearestEven, hhalf]
    by_cases heven : numerator / denominator % 2 = 0
    · rw [if_pos heven, add_sub_cancel_left]
      exact ⟨by norm_num, fun _ => Nat.even_iff.mpr heven⟩
    · rw [if_neg heven, Nat.cast_add, Nat.cast_one, add_sub_add_left_eq_sub]
      exact ⟨by norm_num [abs_of_neg], fun _ => Nat.even_iff.mpr (by omega)⟩

/-- What is rounded stays within an odd limit exactly if it is less than half above it. -/
theorem IsNearestEven.le_iff {x : ℚ} {n limit : ℕ} (h : IsNearestEven x n) (odd : Odd limit) :
    n ≤ limit ↔ x < limit + 1 / 2 := by
  have hhalf := abs_le.mp h.1
  constructor
  · intro hle
    by_contra hnot
    have hcast : (n : ℚ) ≤ limit := by exact_mod_cast hle
    have htie : |x - n| = 1 / 2 := by
      rw [abs_of_nonneg (by linarith)]
      linarith
    have heq : n = limit := by
      have hcast' : (n : ℚ) = limit := by linarith
      exact_mod_cast hcast'
    rw [← Nat.not_even_iff_odd] at odd
    exact odd (heq ▸ h.2 htie)
  · intro hlt
    have hcast : (n : ℚ) < limit + 1 := by linarith
    have hnat : n < limit + 1 := by exact_mod_cast hcast
    omega

/-! ## Seconds -/

namespace Duration

/-- The exact values that are lengths of time: not negative, and less than half a
nanosecond above the longest duration. -/
def IsSpan (x : ExtRat) : Prop :=
  ∃ q : ℚ, x = .fin q ∧ 0 ≤ q ∧ q * perSecond < longest.nanoseconds + 1 / 2

/-- A duration is the one that is nearest to a number of seconds. -/
def Lasts (x : ExtRat) (d : Duration) : Prop :=
  ∃ q : ℚ, x = .fin q ∧ 0 ≤ q ∧ IsNearestEven (q * perSecond) d.nanoseconds

theorem odd_longest : Odd longest.nanoseconds := by decide +kernel

variable {α : Type} [Number α] [Lawful α] {seconds : α}

theorem lt_zero_iff : Number.lt seconds 0 = true ↔ ExtRat.lt (exact seconds) (.fin 0) = true := by
  rw [Lawful.lt_eq, Lawful.exact_zero]

omit [Lawful α] in
theorem exact_eq_fin_iff {q : ℚ} : exact seconds = .fin q ↔ Number.toRat? seconds = some q := by
  rw [Number.exact]
  cases hq : Number.toRat? seconds with
  | some r => simp
  | none =>
    simp only [reduceCtorEq, iff_false]
    by_cases hnan : Number.isNaN seconds = true
    · simp [hnan]
    · by_cases hpos : Number.lt 0 seconds = true <;> simp [hnan, hpos]

/-- A number of seconds that is not negative is rounded to nanoseconds. -/
theorem isNearestEven_rounded {q : ℚ} (nonneg : 0 ≤ q) :
    IsNearestEven (q * perSecond) (Decimal.roundDiv (q.num.natAbs * perSecond) q.den) := by
  have hnum : ((q.num.natAbs : ℕ) : ℚ) = q.num := by
    rw [Nat.cast_natAbs, abs_of_nonneg (Rat.num_nonneg.mpr nonneg)]
  have hq : q * perSecond = ((q.num.natAbs * perSecond : ℕ) : ℚ) / q.den := by
    rw [Nat.cast_mul, hnum, mul_div_right_comm, Rat.num_div_den]
  rw [hq]
  exact Decimal.isNearestEven_roundDiv _ q.den_pos

/-- The nanoseconds fit exactly if the number is less than half of one too long. -/
theorem rounded_le_longest_iff {q : ℚ} (nonneg : 0 ≤ q) :
    Decimal.roundDiv (q.num.natAbs * perSecond) q.den ≤ longest.nanoseconds
      ↔ q * perSecond < longest.nanoseconds + 1 / 2 :=
  (isNearestEven_rounded nonneg).le_iff odd_longest

omit [Lawful α] in
theorem ofSeconds_of_rational {q : ℚ} (nonneg : ¬ Number.lt seconds 0 = true)
    (rational : exact seconds = .fin q) :
    ofSeconds seconds
      = if longest.nanoseconds < Decimal.roundDiv (q.num.natAbs * perSecond) q.den then
          .error .outOfRange
        else .ok ⟨Decimal.roundDiv (q.num.natAbs * perSecond) q.den⟩ := by
  rw [ofSeconds, if_neg nonneg, exact_eq_fin_iff.mp rational]

omit [Lawful α] in
theorem ofSeconds_of_irrational (nonneg : ¬ Number.lt seconds 0 = true)
    (irrational : ∀ q : ℚ, exact seconds ≠ .fin q) :
    ofSeconds seconds = .error .outOfRange := by
  have hnone : Number.toRat? seconds = none := by
    by_contra hsome
    obtain ⟨q, hq⟩ := Option.ne_none_iff_exists'.mp hsome
    exact irrational q (exact_eq_fin_iff.mpr hq)
  rw [ofSeconds, if_neg nonneg, hnone]

/-- **A length of time** gives the nearest duration. -/
theorem ofSeconds_of_isSpan (span : IsSpan (exact seconds)) :
    ∃ d, ofSeconds seconds = .ok d ∧ Lasts (exact seconds) d := by
  obtain ⟨q, hexact, hnonneg, hless⟩ := span
  have hneg : ¬ Number.lt seconds 0 = true := by
    rw [lt_zero_iff, hexact]
    simpa [ExtRat.lt] using hnonneg
  have hshort := (rounded_le_longest_iff hnonneg).mpr hless
  refine ⟨⟨Decimal.roundDiv (q.num.natAbs * perSecond) q.den⟩, ?_, q, hexact, hnonneg,
    isNearestEven_rounded hnonneg⟩
  rw [ofSeconds_of_rational hneg hexact, if_neg (Nat.not_lt.mpr hshort)]

/-- **Every other number of seconds** is refused. -/
theorem ofSeconds_of_not_isSpan (span : ¬ IsSpan (exact seconds)) :
    ofSeconds seconds
      = .error (if Number.lt seconds 0 then .negative else .outOfRange) := by
  by_cases hneg : Number.lt seconds 0 = true
  · rw [ofSeconds, if_pos hneg, if_pos hneg]
  rw [if_neg hneg]
  by_cases hrational : ∃ q : ℚ, exact seconds = .fin q
  · obtain ⟨q, hexact⟩ := hrational
    have hnonneg : 0 ≤ q := by
      rw [lt_zero_iff, hexact] at hneg
      simpa [ExtRat.lt] using hneg
    have hlong : longest.nanoseconds < Decimal.roundDiv (q.num.natAbs * perSecond) q.den := by
      by_contra hnot
      exact span ⟨q, hexact, hnonneg, (rounded_le_longest_iff hnonneg).mp (Nat.not_lt.mp hnot)⟩
    rw [ofSeconds_of_rational hneg hexact, if_pos hlong]
  · exact ofSeconds_of_irrational hneg (not_exists.mp hrational)

end Duration

end Milp
