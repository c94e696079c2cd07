/-
Carriers in which values that are not finite stay that way.

IEEE 754 lets no sum and no product with an infinity or a value that is not a number come
out finite: a sum is that part again or not a number, and a product is infinite or not a
number. `Absorbing` names this much of it, beside the laws of order in `Lawful`. What
the search needs it for is a margin below zero. With such a margin only points with an
infinite coordinate can become incumbents, and what is proved here keeps their
objectives infinite.
-/
import Milp.Proofs.Number.Lawful

set_option autoImplicit false

namespace Milp.Number

variable {α : Type} [Number α]

/-- The number stands for a rational. -/
def IsRational (x : α) : Prop := ∃ q : ℚ, exact x = .fin q

theorem not_isRational_of_nan {x : α} (h : exact x = .nan) : ¬ IsRational x := by
  rintro ⟨q, hq⟩
  rw [h] at hq
  cases hq

theorem not_isRational_of_exact_eq {x y : α} (h : exact x = exact y ∨ exact x = .nan)
    (hy : ¬ IsRational y) : ¬ IsRational x := by
  rintro ⟨q, hq⟩
  rcases h with h | h
  · exact hy ⟨q, h ▸ hq⟩
  · exact not_isRational_of_nan h ⟨q, hq⟩

/-- **The laws.** A part that is not finite decides a sum, unless the sum is no number at
all; it keeps a product and a rounded value from being finite. -/
class Absorbing (α : Type) [Number α] : Prop where
  add_left (x y : α) : ¬ IsRational x → exact (x + y) = exact x ∨ exact (x + y) = .nan
  add_right (x y : α) : ¬ IsRational y → exact (x + y) = exact y ∨ exact (x + y) = .nan
  sub_left (x y : α) : ¬ IsRational x → exact (x - y) = exact x ∨ exact (x - y) = .nan
  sub_nan (x y : α) : exact y = .nan → exact (x - y) = .nan
  mul_right (x y : α) : ¬ IsRational y → ¬ IsRational (x * y)
  round (x : α) : ¬ IsRational x → ¬ IsRational (Number.round x)

/-! ## The exact carrier -/

theorem isRational_extRat_iff (x : ExtRat) : IsRational x ↔ ∃ q, x = .fin q := by
  rw [IsRational, exact_extRat]

theorem add_extRat_cases {x : ExtRat} (y : ExtRat) (h : ¬ IsRational x) :
    ExtRat.add x y = x ∨ ExtRat.add x y = .nan := by
  rw [isRational_extRat_iff] at h
  cases x <;> cases y <;> simp_all [ExtRat.add]

theorem add_comm_extRat (x y : ExtRat) : ExtRat.add x y = ExtRat.add y x := by
  cases x <;> cases y <;> simp [ExtRat.add, add_comm]

theorem scaleInfinity_ne_fin (negative : Bool) (x q : ℚ) :
    ExtRat.scaleInfinity negative x ≠ .fin q := by
  rw [ExtRat.scaleInfinity]
  split
  · simp
  · split <;> simp

instance : Absorbing ExtRat where
  add_left x y h := by
    rw [exact_extRat, exact_extRat]
    exact add_extRat_cases y h
  add_right x y h := by
    rw [exact_extRat, exact_extRat]
    have hcases := add_extRat_cases x h
    rw [add_comm_extRat] at hcases
    exact hcases
  sub_left x y h := by
    rw [exact_extRat, exact_extRat]
    exact add_extRat_cases (ExtRat.neg y) h
  sub_nan x y h := by
    rw [exact_extRat] at h ⊢
    rw [h]
    cases x <;> rfl
  mul_right x y h := by
    rw [isRational_extRat_iff] at h ⊢
    rintro ⟨q, hq⟩
    have hmul : ExtRat.mul x y = .fin q := hq
    cases x <;> cases y <;> simp_all [ExtRat.mul, scaleInfinity_ne_fin]
  round x h := by
    rw [isRational_extRat_iff] at h ⊢
    rintro ⟨q, hq⟩
    have hround : ExtRat.mapFinite ExtRat.nearestInt x = .fin q := hq
    cases x <;> simp_all [ExtRat.mapFinite]

/-! ## Sums -/

variable [Absorbing α]

theorem not_isRational_add_left {x : α} (y : α) (h : ¬ IsRational x) : ¬ IsRational (x + y) :=
  not_isRational_of_exact_eq (Absorbing.add_left x y h) h

theorem not_isRational_add_right (x : α) {y : α} (h : ¬ IsRational y) : ¬ IsRational (x + y) :=
  not_isRational_of_exact_eq (Absorbing.add_right x y h) h

/-- One summand that is not finite is enough. -/
theorem not_isRational_sum {xs : List α} {x : α} (hx : x ∈ xs) (h : ¬ IsRational x) :
    ¬ IsRational (Number.sum xs) := by
  -- from the first such summand on, no partial sum is finite
  have hrest : ∀ (ys : List α) (start : α), ¬ IsRational start →
      ¬ IsRational (ys.foldl (· + ·) start) := by
    intro ys
    induction ys with
    | nil => exact fun start hstart => hstart
    | cons y ys ih => exact fun start hstart => ih _ (not_isRational_add_left y hstart)
  obtain ⟨before, after, rfl⟩ := List.append_of_mem hx
  rw [Number.sum, List.foldl_append, List.foldl_cons]
  exact hrest after _ (not_isRational_add_right _ h)

end Milp.Number
