/-
Intervals of a carrier that rounds.

The ends of an interval stand for exact numbers, and so does the interval (`exactly`). Validity,
membership and the clamped value carry over, because they only compare. The distance to the
interval does not: it is a difference, which may be rounded. Still it is not rounded past a
half, so a value whose distance is below a half is that near (`lt_half_of_violation`).

A whole number that such a value is rounded to can lie outside in one way only. An end is not
whole, and the number is that end, rounded outwards (`not_has_round_iff`).
-/
import Milp.Proofs.Interval.Nearest
import Milp.Proofs.Number.Rounding

set_option autoImplicit false

namespace Milp.Interval

open Number (exact Lawful Special Faithful)

variable {α : Type} [Number α]

/-- The interval that an interval stands for. -/
def exactly (b : Interval α) : Interval ExtRat := ⟨exact b.lower, exact b.upper⟩

/-! ## What carries over -/

section Lawful

variable [Lawful α]

theorem has_exactly_iff (b : Interval α) (v : α) : b.exactly.Has (exact v) ↔ b.Has v := by
  rw [Has, Has, Lawful.le_eq b.lower, Lawful.le_eq v b.upper]
  rfl

/-- Two intervals whose ends are numbers have in common what both hold. -/
theorem has_intersect_iff {b c : Interval α} (hb : b.IsProper) (hc : c.IsProper) (v : α) :
    (b.intersect c).Has v ↔ b.Has v ∧ c.Has v := by
  have hlower := Number.max_le_iff_extRat (x := exact v) hb.1 hc.1
  have hupper := Number.le_min_iff_extRat (x := exact v) hb.2 hc.2
  rw [← has_exactly_iff (b.intersect c), exactly, intersect, Number.exact_max, Number.exact_min,
    Has, hlower, hupper, ← has_exactly_iff b, ← has_exactly_iff c]
  exact and_and_and_comm

theorem exact_clamp (b : Interval α) (v : α) : exact (b.clamp v) = b.exactly.clamp (exact v) := by
  rw [clamp, clamp, Number.exact_min, Number.exact_max]
  rfl

end Lawful

section Special

variable [Special α] {b : Interval α}

theorem isValid_eq_exactly (b : Interval α) : b.isValid = b.exactly.isValid := by
  rw [isValid, Number.isNaN_eq b.lower, Number.isNaN_eq b.upper, Lawful.le_eq, Lawful.beq_eq,
    Lawful.beq_eq, Special.exact_posInf, Special.exact_negInf]
  rfl

theorem isValid_exactly (valid : b.isValid = true) : b.exactly.isValid = true :=
  (isValid_eq_exactly b).symm.trans valid

/-- **What is valid holds a finite number**, and nothing else is. -/
theorem isValid_iff : b.isValid = true ↔ ∃ v, Number.isFinite v = true ∧ b.Has v := by
  constructor
  · intro valid
    have hexact := isValid_exactly valid
    have outward := isOutward_of_isValid hexact
    -- a finite end is in the interval; if there is none, zero is
    rcases outward.lower with hlower | ⟨l, hlower⟩
    · rcases outward.upper with hupper | ⟨u, hupper⟩
      · refine ⟨0, Number.isFinite_zero, ?_⟩
        rw [← has_exactly_iff, Lawful.exact_zero, has_fin_iff outward, hlower, hupper]
        exact ⟨nofun, nofun⟩
      · refine ⟨b.upper, (Number.isFinite_iff_isRational _).mpr ⟨u, hupper⟩, ?_⟩
        rw [← has_exactly_iff, show exact b.upper = _ from hupper, has_fin_iff outward, hlower,
          hupper]
        exact ⟨nofun, fun _ h => (ExtRat.fin.inj h).le⟩
    · refine ⟨b.lower, (Number.isFinite_iff_isRational _).mpr ⟨l, hlower⟩, ?_⟩
      rw [← has_exactly_iff, show exact b.lower = _ from hlower, has_fin_iff outward]
      exact ⟨fun _ h => (ExtRat.fin.inj (h.symm.trans hlower)).le,
        fun u hu => lower_le_upper hexact hlower hu⟩
  · rintro ⟨v, finite, has⟩
    obtain ⟨q, hq⟩ := (Number.isFinite_iff_isRational v).mp finite
    rw [← has_exactly_iff, hq] at has
    have hordered := Number.le_trans_extRat has.1 has.2
    rw [isValid_eq_exactly, isValid, hordered]
    rcases lower_of_has has with hlower | ⟨l, hlower, -⟩ <;>
      rcases upper_of_has has with hupper | ⟨u, hupper, -⟩ <;>
        simp [hlower, hupper, Number.isNaN, BEq.beq, ExtRat.eqv]

/-- A finite value that is clamped is inside. -/
theorem has_clamp (valid : b.isValid = true) {v : α} (finite : Number.isFinite v = true) :
    b.Has (b.clamp v) := by
  obtain ⟨q, hq⟩ := (Number.isFinite_iff_isRational v).mp finite
  rw [← has_exactly_iff, exact_clamp, hq, clamp_fin (isValid_exactly valid)]
  exact (isNearest_nearest (isValid_exactly valid) q).1

end Special

/-! ## Whole numbers outside -/

/-- A whole number is an end that is not whole, rounded outwards. -/
def IsRoundedOut (b : Interval α) (v : α) : Prop :=
  (Number.isWhole b.upper = false ∧ (v == Number.ceil b.upper) = true)
    ∨ (Number.isWhole b.lower = false ∧ (v == Number.floor b.lower) = true)

/-- Of the whole numbers less than one above `u`, one at most is above `u`: that `u` rounded
up, if `u` is not whole. -/
theorem lt_intCast_iff {u : ℚ} {z : ℤ} (near : (z : ℚ) < u + 1) :
    u < z ↔ ((u.floor : ℤ) : ℚ) ≠ u ∧ z = u.ceil := by
  have hceil : z ≤ u.ceil := by
    have : (z : ℚ) < u.ceil + 1 := near.trans_le (by linarith [Rat.le_ceil (x := u)])
    exact Int.lt_add_one_iff.mp (by exact_mod_cast this)
  constructor
  · intro h
    refine ⟨fun hwhole => ?_, le_antisymm hceil (Rat.ceil_le_iff.mpr h.le)⟩
    rw [← hwhole] at near h
    have hlow : u.floor < z := by exact_mod_cast h
    have hhigh : z < u.floor + 1 := by exact_mod_cast near
    omega
  · rintro ⟨hfrac, rfl⟩
    refine lt_of_le_of_ne Rat.le_ceil fun h => hfrac ?_
    rw [h, Rat.floor_intCast]

theorem intCast_lt_iff {l : ℚ} {z : ℤ} (near : l - 1 < (z : ℚ)) :
    (z : ℚ) < l ↔ ((l.floor : ℤ) : ℚ) ≠ l ∧ z = l.floor := by
  have hfloor : l.floor ≤ z := by
    have : (l.floor : ℚ) < z + 1 := by linarith [Rat.floor_le l]
    exact Int.lt_add_one_iff.mp (by exact_mod_cast this)
  constructor
  · intro h
    refine ⟨fun hwhole => ?_, le_antisymm (Rat.le_floor_iff.mpr h.le) hfloor⟩
    rw [← hwhole] at near h
    have hlow : l.floor - 1 < z := by exact_mod_cast near
    have hhigh : z < l.floor := by exact_mod_cast h
    omega
  · rintro ⟨hfrac, rfl⟩
    exact lt_of_le_of_ne (Rat.floor_le l) hfrac

section Special

variable [Special α] {b : Interval α}

/-- A rational is outside exactly if it is beyond an end. -/
theorem not_has_iff (valid : b.isValid = true) {v : α} {q : ℚ} (hv : exact v = .fin q) :
    ¬ b.Has v ↔ (∃ u : ℚ, exact b.upper = .fin u ∧ u < q)
      ∨ ∃ l : ℚ, exact b.lower = .fin l ∧ q < l := by
  rw [← has_exactly_iff, hv, has_fin_iff (isOutward_of_isValid (isValid_exactly valid)),
    not_and_or, or_comm]
  push Not
  rfl

theorem isRoundedOut_iff (valid : b.isValid = true) {v : α} {z : ℤ} (hv : exact v = .fin z) :
    b.IsRoundedOut v
      ↔ (∃ u : ℚ, exact b.upper = .fin u ∧ ((u.floor : ℤ) : ℚ) ≠ u ∧ z = u.ceil)
        ∨ ∃ l : ℚ, exact b.lower = .fin l ∧ ((l.floor : ℤ) : ℚ) ≠ l ∧ z = l.floor := by
  have outward := isOutward_of_isValid (isValid_exactly valid)
  have hlower : exact b.lower ≠ .nan := by
    rcases outward.lower with h | ⟨l, h⟩ <;> simp [show exact b.lower = _ from h]
  have hupper : exact b.upper ≠ .nan := by
    rcases outward.upper with h | ⟨u, h⟩ <;> simp [show exact b.upper = _ from h]
  rw [IsRoundedOut, Number.isWhole_eq_false_iff hupper,
    Number.isWhole_eq_false_iff hlower, Lawful.beq_eq, Lawful.beq_eq, hv, Lawful.exact_ceil,
    Lawful.exact_floor]
  refine or_congr ?_ ?_
  · constructor
    · rintro ⟨⟨u, hu, hfrac⟩, hz⟩
      rw [hu, ExtRat.ceil_fin] at hz
      exact ⟨u, hu, hfrac, by exact_mod_cast of_decide_eq_true hz⟩
    · rintro ⟨u, hu, hfrac, rfl⟩
      exact ⟨⟨u, hu, hfrac⟩, by rw [hu, ExtRat.ceil_fin]; exact decide_eq_true rfl⟩
  · constructor
    · rintro ⟨⟨l, hl, hfrac⟩, hz⟩
      rw [hl, ExtRat.floor_fin] at hz
      exact ⟨l, hl, hfrac, by exact_mod_cast of_decide_eq_true hz⟩
    · rintro ⟨l, hl, hfrac, rfl⟩
      exact ⟨⟨l, hl, hfrac⟩, by rw [hl, ExtRat.floor_fin]; exact decide_eq_true rfl⟩

end Special

section Faithful

variable [Faithful α] {b : Interval α}

/-- A distance below a half is not due to rounding. -/
theorem lt_half_of_violation {t v : α} (ht : Number.lt t 0.5 = true)
    (passes : Number.gt (b.violation v) t = false) {q : ℚ} (hq : exact v = .fin q) :
    (∀ l : ℚ, exact b.lower = .fin l → l - q < 1 / 2)
      ∧ ∀ u : ℚ, exact b.upper = .fin u → q - u < 1 / 2 := by
  have hnot : ¬ Number.le 0.5 (b.violation v) = true := by
    intro h
    rw [Number.gt, Number.lt_of_lt_of_le_of_lawful ht h] at passes
    cases passes
  constructor
  · intro l hl
    by_contra hfar
    refine hnot (Number.le_max_of_le_left (Number.le_max_of_le_left (Faithful.le_sub _ _ _ ?_)))
    rw [Faithful.exact_half, hl, hq, ExtRat.fin_sub, ExtRat.le_fin]
    exact decide_eq_true (not_lt.mp hfar)
  · intro u hu
    by_contra hfar
    refine hnot (Number.le_max_of_le_left (Number.le_max_of_le_right (Faithful.le_sub _ _ _ ?_)))
    rw [Faithful.exact_half, hu, hq, ExtRat.fin_sub, ExtRat.le_fin]
    exact decide_eq_true (not_lt.mp hfar)

/-- A distance below a half to the nearest whole number is exact. -/
theorem lt_half_of_gap {t v : α} (ht : Number.lt t 0.5 = true)
    (passes : Number.gt (Number.integralityGap v) t = false) {q : ℚ} (hq : exact v = .fin q) :
    |q - ExtRat.nearestInt q| < 1 / 2 := by
  by_contra hfar
  have hhalf : Number.le 0.5 (Number.integralityGap v) = true := by
    rw [Lawful.le_eq, Faithful.exact_half, Lawful.exact_gap, hq, ExtRat.integralityGap_fin]
    exact (ExtRat.le_fin _ _).trans (decide_eq_true (not_lt.mp hfar))
  rw [Number.gt, Number.lt_of_lt_of_le_of_lawful ht hhalf] at passes
  cases passes

/-- **Which whole numbers are outside.** A value that is within less than a half of a valid
interval and of a whole number is rounded to a number outside exactly if that is an end,
rounded outwards. -/
theorem not_has_round_iff (valid : b.isValid = true) {t v : α} (ht : Number.lt t 0.5 = true)
    (finite : Number.isFinite v = true) (inside : Number.gt (b.violation v) t = false)
    (whole : Number.gt (Number.integralityGap v) t = false) :
    ¬ b.Has (Number.round v) ↔ b.IsRoundedOut (Number.round v) := by
  obtain ⟨q, hq⟩ := (Number.isFinite_iff_isRational v).mp finite
  obtain ⟨hbelow, habove⟩ := lt_half_of_violation ht inside hq
  obtain ⟨hlow, hhigh⟩ := abs_lt.mp (lt_half_of_gap ht whole hq)
  have hround : exact (Number.round v) = .fin ((ExtRat.nearestInt q : ℤ) : ℚ) := by
    rw [Faithful.exact_round, hq, ExtRat.round_fin]
  rw [not_has_iff valid hround, isRoundedOut_iff valid hround]
  refine or_congr (exists_congr fun u => and_congr_right fun hu => ?_)
    (exists_congr fun l => and_congr_right fun hl => ?_)
  · exact lt_intCast_iff (by linarith [habove u hu])
  · exact intCast_lt_iff (by linarith [hbelow l hl])

end Faithful

end Milp.Interval
