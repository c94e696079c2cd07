/-
Intervals as closed sets of numbers.

A valid interval holds the numbers between its ends, an infinite end included where it has
one. Its operations are maxima and minima, each of its own, and what the rest of the library
relies on is that they speak of this one set (`ActsAsClosed`). `clamp` goes to the number of the
set that is nearest, `violation` is the way there, `contains` asks whether the way is short
enough.

For one interval this is read off where a number lies (`sides`, in
`Milp.Proofs.Interval.Nearest`). Of two intervals the ends are compared, and no number is
looked at: a test of an end against a number splits at a maximum or a minimum
(`contains_fin_iff`), so that what two intervals have in common is tested by testing both.
-/
import Milp.Proofs.Interval.Readings
import Milp.Proofs.Search.Subproblems

set_option autoImplicit false

namespace Milp.Interval

variable {b c : Interval ExtRat}

/-! ## One interval -/

/-- **How the operations on a closed interval agree.** Between numbers, the distance is the
magnitude of the difference. -/
structure ActsAsClosed (b : Interval ExtRat) : Prop where
  /-- Clamping goes to a number of the interval, and no other is nearer. -/
  clamp : ∀ v : ℚ, b.Has (b.clamp (.fin v))
    ∧ ∀ p, b.Has p →
      Number.le (Number.abs (.fin v - b.clamp (.fin v))) (Number.abs (.fin v - p)) = true
  /-- The violation is the distance to where clamping goes. -/
  violation : ∀ v : ℚ, b.violation (.fin v) = Number.abs (.fin v - b.clamp (.fin v))
  /-- Only inside is there no violation. -/
  inside : ∀ v : ℚ, b.violation (.fin v) = .fin 0 ↔ b.Has (.fin v)
  /-- A number is contained within a tolerance if a number of the interval is that near. -/
  contains : ∀ v t : ℚ, 0 ≤ t → (b.contains (.fin v) (.fin t) = true
    ↔ ∃ p, b.Has p ∧ Number.le (Number.abs (.fin v - p)) (.fin t) = true)
  /-- Clamping twice is clamping once. -/
  idempotent : ∀ v : ℚ, b.clamp (b.clamp (.fin v)) = b.clamp (.fin v)
  /-- Clamping keeps the order. -/
  monotone : ∀ v w : ℚ, v ≤ w → Number.le (b.clamp (.fin v)) (b.clamp (.fin w)) = true

/-- An infinite number is further away than any finite one. -/
theorem le_abs_fin_sub_of_not_isFinite {p : ExtRat} (number : p ≠ .nan)
    (infinite : Number.isFinite p = false) (v d : ℚ) :
    Number.le (.fin d) (Number.abs (.fin v - p)) = true := by
  cases p with
  | nan => exact absurd rfl number
  | negInf => rfl
  | posInf => rfl
  | fin q => cases infinite

section Valid

variable (valid : b.isValid = true)
include valid

/-- Among all numbers of the interval, infinite ones included, the clamped one is nearest. -/
theorem le_distance_of_has (v : ℚ) {p : ExtRat} (hp : b.Has p) :
    Number.le (.fin (b.distance v)) (Number.abs (.fin v - p)) = true := by
  cases hfinite : Number.isFinite p with
  | false =>
    exact le_abs_fin_sub_of_not_isFinite (Number.ne_nan_of_le_extRat hp.1).2 hfinite v _
  | true =>
    rw [ExtRat.eq_fin_of_isFinite hfinite] at hp ⊢
    rw [ExtRat.fin_sub, ExtRat.abs_fin, ExtRat.le_fin]
    exact decide_eq_true ((isNearest_nearest valid v).2 _ hp)

theorem abs_sub_clamp (v : ℚ) :
    Number.abs (.fin v - b.clamp (.fin v)) = .fin (b.distance v) := by
  rw [clamp_fin valid, ExtRat.fin_sub, ExtRat.abs_fin]
  rfl

theorem distance_eq_zero_iff (v : ℚ) : b.distance v = 0 ↔ b.Has (.fin v) := by
  rw [distance, abs_eq_zero, sub_eq_zero]
  constructor
  · intro h
    rw [h]
    exact (isNearest_nearest valid v).1
  · intro h
    rw [nearest, clamp_of_has h, ExtRat.value_fin]

/-- A larger number is not clamped to a smaller one. -/
theorem nearest_mono {v w : ℚ} (h : v ≤ w) : b.nearest v ≤ b.nearest w := by
  have outward := isOutward_of_isValid valid
  -- an infinite end does not move a number, a finite one is a maximum or a minimum
  rcases outward.lower with hl | ⟨l, hl⟩ <;> rcases outward.upper with hu | ⟨u, hu⟩ <;>
    simp only [nearest, clamp, hl, hu, ExtRat.max_fin, ExtRat.min_fin, ExtRat.max_fin_negInf,
      ExtRat.min_fin_posInf, ExtRat.value_fin]
  · exact h
  · exact min_le_min_right u h
  · exact max_le_max_right l h
  · exact min_le_min_right u (max_le_max_right l h)

theorem actsAsClosed_of_isValid : b.ActsAsClosed where
  clamp v := by
    refine ⟨?_, fun p hp => ?_⟩
    · rw [clamp_fin valid]
      exact (isNearest_nearest valid v).1
    · rw [abs_sub_clamp valid]
      exact le_distance_of_has valid v hp
  violation v := by rw [violation_fin valid, abs_sub_clamp valid]
  inside v := by
    rw [violation_fin valid, ExtRat.fin.injEq]
    exact distance_eq_zero_iff valid v
  contains v t _ := by
    rw [contains, violation_fin valid]
    constructor
    · intro h
      refine ⟨b.clamp (.fin v), ?_, by rwa [abs_sub_clamp valid]⟩
      rw [clamp_fin valid]
      exact (isNearest_nearest valid v).1
    · rintro ⟨p, hp, h⟩
      exact Number.le_trans_extRat (le_distance_of_has valid v hp) h
  idempotent v := by
    rw [clamp_fin valid]
    exact clamp_of_has (isNearest_nearest valid v).1
  monotone v w h := by
    rw [clamp_fin valid, clamp_fin valid, ExtRat.le_fin]
    exact decide_eq_true (nearest_mono valid h)

end Valid

/-! ## Two intervals -/

/-- **One interval is what two others have in common.** -/
structure IsMeet (b c meet : Interval ExtRat) : Prop where
  /-- It holds the numbers, finite or not, that both hold. -/
  has_iff : ∀ p, meet.Has p ↔ b.Has p ∧ c.Has p
  /-- It contains within a tolerance what both contain within that tolerance. -/
  contains : ∀ v t : ℚ, meet.contains (.fin v) (.fin t)
    = (b.contains (.fin v) (.fin t) && c.contains (.fin v) (.fin t))
  /-- It is valid exactly if they have a finite number in common. -/
  isValid_iff : meet.isValid = true ↔ ∃ q : ℚ, b.Has (.fin q) ∧ c.Has (.fin q)

theorem isOutward_intersect (hb : b.IsOutward) (hc : c.IsOutward) :
    (b.intersect c).IsOutward := by
  constructor
  · rcases hb.lower with hl | ⟨l, hl⟩ <;> rcases hc.lower with hk | ⟨k, hk⟩ <;>
      simp [intersect, hl, hk]
  · rcases hb.upper with hu | ⟨u, hu⟩ <;> rcases hc.upper with hw | ⟨w, hw⟩ <;>
      simp [intersect, hu, hw]

/-- A number is contained if no end is further beyond it than the tolerance. -/
theorem contains_fin_iff (outward : b.IsOutward) (v t : ℚ) :
    b.contains (.fin v) (.fin t) = true
      ↔ Number.le b.lower (.fin (v + t)) = true ∧ Number.le (.fin (v - t)) b.upper = true
        ∧ 0 ≤ t := by
  have hlower : ∀ l : ℚ, l - v ≤ t ↔ l ≤ v + t := fun l => by
    rw [sub_le_iff_le_add, add_comm]
  have hupper : ∀ u : ℚ, v - u ≤ t ↔ v - t ≤ u := fun u => sub_le_comm
  rw [contains, violation]
  rcases outward.lower with hl | ⟨l, hl⟩ <;> rcases outward.upper with hu | ⟨u, hu⟩ <;>
    simp [hl, hu, hlower, hupper, and_assoc]

theorem isMeet_intersect (hb : b.isValid = true) (hc : c.isValid = true) :
    IsMeet b c (b.intersect c) := by
  have hbo := isOutward_of_isValid hb
  have hco := isOutward_of_isValid hc
  have hhas : ∀ p, (b.intersect c).Has p ↔ b.Has p ∧ c.Has p :=
    has_intersect_iff hbo.isProper hco.isProper
  refine ⟨hhas, fun v t => ?_, ?_⟩
  · -- each end of the intersection is tested by testing the ends it was taken from
    have hmax := Number.max_le_iff_extRat (x := .fin (v + t)) hbo.isProper.1 hco.isProper.1
    have hmin := Number.le_min_iff_extRat (x := .fin (v - t)) hbo.isProper.2 hco.isProper.2
    rw [Bool.eq_iff_iff, Bool.and_eq_true, contains_fin_iff (isOutward_intersect hbo hco),
      contains_fin_iff hbo, contains_fin_iff hco]
    rw [Number.exact_extRat, Number.exact_extRat] at hmax hmin
    rw [intersect, hmax, hmin]
    tauto
  · rw [isValid_iff]
    constructor
    · rintro ⟨p, finite, hp⟩
      rw [ExtRat.eq_fin_of_isFinite finite, hhas] at hp
      exact ⟨p.value, hp⟩
    · rintro ⟨q, hq⟩
      exact ⟨.fin q, rfl, (hhas _).mpr hq⟩

/-- **Valid intervals behave as closed intervals**, one by one and where two of them are
intersected. -/
theorem closed_and_meet (hb : b.isValid = true) (hc : c.isValid = true) :
    b.ActsAsClosed ∧ IsMeet b c (b.intersect c) :=
  ⟨actsAsClosed_of_isValid hb, isMeet_intersect hb hc⟩

/-- Numbers from one on and numbers up to three, which have those from one to three in
common. -/
theorem closed_and_meet_halfLines :
    (⟨.fin 1, .posInf⟩ : Interval ExtRat).ActsAsClosed
      ∧ IsMeet ⟨.fin 1, .posInf⟩ ⟨.negInf, .fin 3⟩ ⟨.fin 1, .fin 3⟩ :=
  closed_and_meet (b := ⟨.fin 1, .posInf⟩) (c := ⟨.negInf, .fin 3⟩) (by decide +kernel)
    (by decide +kernel)

end Milp.Interval
