/-
The number of an interval that is nearest to a given one.

A number lies in a valid interval, or below a lower end, or above an upper end (`sides`).
In the first case nothing is to be done. In the other two the end that is passed is the
nearest number of the interval, and the way to it is the distance. So `clamp` finds the
nearest number (`isNearest_nearest`) and `violation` measures how far away it is
(`violation_fin`).
-/
import Milp.Proofs.Program.Points

set_option autoImplicit false

namespace Milp.Interval

variable {b : Interval ExtRat}

/-! ## Where a number lies -/

/-- Valid ends are in order. -/
theorem lower_le_upper (valid : b.isValid = true) {l u : ℚ} (hl : b.lower = .fin l)
    (hu : b.upper = .fin u) : l ≤ u := by
  simp only [isValid, Bool.and_eq_true] at valid
  have hle := valid.1.1.2
  rw [hl, hu, ExtRat.le_fin] at hle
  exact of_decide_eq_true hle

/-- Membership, end by end. -/
theorem has_fin_iff (outward : b.IsOutward) (q : ℚ) :
    b.Has (.fin q) ↔ (∀ l : ℚ, b.lower = .fin l → l ≤ q) ∧ (∀ u : ℚ, b.upper = .fin u → q ≤ u) := by
  refine and_congr ?_ ?_
  · rcases outward.lower with hl | ⟨l, hl⟩ <;> simp [hl]
  · rcases outward.upper with hu | ⟨u, hu⟩ <;> simp [hu]

/-- A number lies in an interval, or beyond an end of it. -/
theorem sides (valid : b.isValid = true) (q : ℚ) :
    b.Has (.fin q) ∨ (∃ l : ℚ, b.lower = .fin l ∧ q < l) ∨ ∃ u : ℚ, b.upper = .fin u ∧ u < q := by
  rw [has_fin_iff (isOutward_of_isValid valid)]
  by_cases hbelow : ∃ l : ℚ, b.lower = .fin l ∧ q < l
  · exact .inr (.inl hbelow)
  · by_cases habove : ∃ u : ℚ, b.upper = .fin u ∧ u < q
    · exact .inr (.inr habove)
    · push Not at hbelow habove
      exact .inl ⟨hbelow, habove⟩

/-! ## Inside -/

theorem violation_of_has {q : ℚ} (h : b.Has (.fin q)) : b.violation (.fin q) = .fin 0 := by
  rw [violation]
  rcases lower_of_has h with hl | ⟨l, hl, hle⟩ <;> rcases upper_of_has h with hu | ⟨u, hu, hge⟩ <;>
    rw [hl, hu] <;> simp [*]

theorem clamp_of_has {q : ℚ} (h : b.Has (.fin q)) : b.clamp (.fin q) = .fin q := by
  rw [clamp]
  rcases lower_of_has h with hl | ⟨l, hl, hle⟩ <;> rcases upper_of_has h with hu | ⟨u, hu, hge⟩ <;>
    rw [hl, hu] <;> simp [*]

/-! ## Beyond an end -/

theorem clamp_of_lt (valid : b.isValid = true) {l q : ℚ} (hl : b.lower = .fin l) (h : q < l) :
    b.clamp (.fin q) = .fin l := by
  rw [clamp, hl, ExtRat.max_fin, max_eq_right h.le]
  rcases (isOutward_of_isValid valid).upper with hu | ⟨u, hu⟩
  · rw [hu, ExtRat.min_fin_posInf]
  · rw [hu, ExtRat.min_fin, min_eq_left (lower_le_upper valid hl hu)]

theorem violation_of_lt (valid : b.isValid = true) {l q : ℚ} (hl : b.lower = .fin l) (h : q < l) :
    b.violation (.fin q) = .fin (l - q) := by
  rw [violation, hl, ExtRat.fin_sub]
  rcases (isOutward_of_isValid valid).upper with hu | ⟨u, hu⟩
  · rw [hu, ExtRat.fin_sub_posInf, ExtRat.max_fin_negInf, ExtRat.zero_eq, ExtRat.max_fin,
      max_eq_left (by linarith)]
  · have := lower_le_upper valid hl hu
    rw [hu, ExtRat.fin_sub, ExtRat.zero_eq, ExtRat.max_fin, ExtRat.max_fin,
      max_eq_left (by linarith : q - u ≤ l - q), max_eq_left (by linarith)]

theorem clamp_of_gt (valid : b.isValid = true) {u q : ℚ} (hu : b.upper = .fin u) (h : u < q) :
    b.clamp (.fin q) = .fin u := by
  rw [clamp, hu]
  rcases (isOutward_of_isValid valid).lower with hl | ⟨l, hl⟩
  · rw [hl, ExtRat.max_fin_negInf, ExtRat.min_fin, min_eq_right h.le]
  · have := lower_le_upper valid hl hu
    rw [hl, ExtRat.max_fin, max_eq_left (by linarith : l ≤ q), ExtRat.min_fin, min_eq_right h.le]

theorem violation_of_gt (valid : b.isValid = true) {u q : ℚ} (hu : b.upper = .fin u) (h : u < q) :
    b.violation (.fin q) = .fin (q - u) := by
  rw [violation, hu, ExtRat.fin_sub]
  rcases (isOutward_of_isValid valid).lower with hl | ⟨l, hl⟩
  · rw [hl, ExtRat.negInf_sub_fin, ExtRat.max_negInf_fin, ExtRat.zero_eq, ExtRat.max_fin,
      max_eq_left (by linarith)]
  · have := lower_le_upper valid hl hu
    rw [hl, ExtRat.fin_sub, ExtRat.zero_eq, ExtRat.max_fin, ExtRat.max_fin,
      max_eq_right (by linarith : l - q ≤ q - u), max_eq_left (by linarith)]

/-! ## The nearest number -/

/-- The number of an interval that is nearest to `q`. -/
def nearest (b : Interval ExtRat) (q : ℚ) : ℚ := (b.clamp (.fin q)).value

/-- How far `q` is from an interval. -/
def distance (b : Interval ExtRat) (q : ℚ) : ℚ := |q - b.nearest q|

/-- `d` is the least distance from `q` to a number of the interval. -/
def IsDistance (b : Interval ExtRat) (q d : ℚ) : Prop :=
  IsLeast {e | ∃ p : ℚ, b.Has (.fin p) ∧ e = |q - p|} d

/-- No number of the interval is nearer to `q` than `y`, which is one itself. -/
def IsNearest (b : Interval ExtRat) (q y : ℚ) : Prop :=
  b.Has (.fin y) ∧ ∀ p : ℚ, b.Has (.fin p) → |q - y| ≤ |q - p|

section Valid

variable (valid : b.isValid = true) (q : ℚ)
include valid

theorem clamp_fin : b.clamp (.fin q) = .fin (b.nearest q) := by
  rcases sides valid q with h | ⟨l, hl, h⟩ | ⟨u, hu, h⟩
  · rw [nearest, clamp_of_has h, ExtRat.value_fin]
  · rw [nearest, clamp_of_lt valid hl h, ExtRat.value_fin]
  · rw [nearest, clamp_of_gt valid hu h, ExtRat.value_fin]

/-- **Clamping finds the nearest number.** -/
theorem isNearest_nearest : b.IsNearest q (b.nearest q) := by
  have hmem := has_fin_iff (isOutward_of_isValid valid)
  rcases sides valid q with h | ⟨l, hl, h⟩ | ⟨u, hu, h⟩
  · rw [nearest, clamp_of_has h, ExtRat.value_fin]
    refine ⟨h, fun p _ => ?_⟩
    rw [sub_self, abs_zero]
    exact abs_nonneg _
  · rw [nearest, clamp_of_lt valid hl h, ExtRat.value_fin]
    refine ⟨(hmem l).mpr ⟨?_, fun u hu => lower_le_upper valid hl hu⟩, fun p hp => ?_⟩
    · intro l' hl'
      rw [hl] at hl'
      exact (ExtRat.fin.inj hl').ge
    · have hlp := ((hmem p).mp hp).1 l hl
      rw [abs_of_neg (by linarith), abs_of_neg (by linarith)]
      linarith
  · rw [nearest, clamp_of_gt valid hu h, ExtRat.value_fin]
    refine ⟨(hmem u).mpr ⟨fun l hl => lower_le_upper valid hl hu, ?_⟩, fun p hp => ?_⟩
    · intro u' hu'
      rw [hu] at hu'
      exact (ExtRat.fin.inj hu').le
    · have hpu := ((hmem p).mp hp).2 u hu
      rw [abs_of_pos (by linarith), abs_of_pos (by linarith)]
      linarith

/-- **The violation is the distance to the nearest number.** -/
theorem violation_fin : b.violation (.fin q) = .fin (b.distance q) := by
  rcases sides valid q with h | ⟨l, hl, h⟩ | ⟨u, hu, h⟩
  · rw [violation_of_has h, distance, nearest, clamp_of_has h, ExtRat.value_fin, sub_self, abs_zero]
  · rw [violation_of_lt valid hl h, distance, nearest, clamp_of_lt valid hl h, ExtRat.value_fin,
      abs_of_neg (by linarith), neg_sub]
  · rw [violation_of_gt valid hu h, distance, nearest, clamp_of_gt valid hu h, ExtRat.value_fin,
      abs_of_pos (by linarith)]

theorem isDistance_iff {d : ℚ} : b.IsDistance q d ↔ d = b.distance q := by
  obtain ⟨hmem, hnearest⟩ := isNearest_nearest valid q
  have hleast : b.IsDistance q (b.distance q) := by
    refine ⟨⟨b.nearest q, hmem, rfl⟩, ?_⟩
    rintro e ⟨p, hp, rfl⟩
    exact hnearest p hp
  constructor
  · intro h
    exact h.unique hleast
  · rintro rfl
    exact hleast

/-- Some number of the interval is as near as that exactly if the distance is no larger. -/
theorem exists_near_iff {t : ℚ} :
    (∃ p : ℚ, b.Has (.fin p) ∧ |q - p| ≤ t) ↔ b.distance q ≤ t := by
  obtain ⟨hmem, hnearest⟩ := isNearest_nearest valid q
  constructor
  · rintro ⟨p, hp, hle⟩
    exact (hnearest p hp).trans hle
  · intro h
    exact ⟨b.nearest q, hmem, h⟩

end Valid

end Milp.Interval
