/-
Infinities and values that are not numbers, in sums.

A carrier that rounds says nothing of the sum of two rationals but that it is a number:
when it is too large it becomes an infinity. Where one side is no rational, though,
IEEE 754 fixes the result, and it is that of the exact carrier. `Special` names these
laws beside those of order (`Lawful`).

They settle which differences are no numbers (`isNaN_sub_iff`), and what becomes of finite
numbers that are added one after the other. The result is always a number, and it is finite
exactly if no sum on the way has overflowed (`isFinite_foldl_add_iff`).
-/
import Milp.Proofs.Number.Absorbing

set_option autoImplicit false

namespace Milp.Number

/-- **The laws.** The infinities are what they are called. A sum or a difference is exact
where one side is no rational, and a number where both are rational. -/
class Special (α : Type) [Number α] : Prop extends Lawful α where
  exact_posInf : exact (posInf : α) = .posInf
  exact_negInf : exact (negInf : α) = .negInf
  exact_add (x y : α) : ¬ (IsRational x ∧ IsRational y) → exact (x + y) = exact x + exact y
  exact_sub (x y : α) : ¬ (IsRational x ∧ IsRational y) → exact (x - y) = exact x - exact y
  add_number (x y : α) : IsRational x → IsRational y → exact (x + y) ≠ .nan
  sub_number (x y : α) : IsRational x → IsRational y → exact (x - y) ≠ .nan

/-! ## The exact carrier -/

theorem isFinite_iff_isRational_extRat (x : ExtRat) : isFinite x = true ↔ IsRational x := by
  rw [isRational_extRat_iff]
  cases x <;> simp [isFinite, lt, ExtRat.lt]

instance : Special ExtRat where
  exact_posInf := by rw [exact_extRat, ExtRat.posInf_eq]
  exact_negInf := by rw [exact_extRat, ExtRat.negInf_eq]
  exact_add x y _ := by rw [exact_extRat, exact_extRat, exact_extRat]
  exact_sub x y _ := by rw [exact_extRat, exact_extRat, exact_extRat]
  add_number x y hx hy := by
    obtain ⟨a, rfl⟩ := (isRational_extRat_iff x).mp hx
    obtain ⟨b, rfl⟩ := (isRational_extRat_iff y).mp hy
    rw [exact_extRat, ExtRat.fin_add]
    exact ExtRat.noConfusion
  sub_number x y hx hy := by
    obtain ⟨a, rfl⟩ := (isRational_extRat_iff x).mp hx
    obtain ⟨b, rfl⟩ := (isRational_extRat_iff y).mp hy
    rw [exact_extRat, ExtRat.fin_sub]
    exact ExtRat.noConfusion

/-- What is no number comes of a side that is none, or of an infinity taken from itself. -/
theorem sub_eq_nan_iff_extRat {x y : ExtRat} (h : ¬ (IsRational x ∧ IsRational y)) :
    x - y = .nan ↔ x = .nan ∨ y = .nan ∨ (x == y) = true ∧ ¬ IsRational x := by
  rw [isRational_extRat_iff, isRational_extRat_iff] at *
  have hsub : x - y = ExtRat.add x (ExtRat.neg y) := rfl
  have hbeq : (x == y) = ExtRat.eqv x y := rfl
  rw [hsub, hbeq]
  cases x <;> cases y <;> simp_all [ExtRat.add, ExtRat.neg, ExtRat.eqv]

theorem add_eq_left_extRat {x y : ExtRat} (number : x ≠ .nan) (infinite : ¬ IsRational x)
    (finite : IsRational y) : x + y = x := by
  rw [isRational_extRat_iff] at *
  have hadd : x + y = ExtRat.add x y := rfl
  obtain ⟨b, rfl⟩ := finite
  rw [hadd]
  cases x <;> simp_all [ExtRat.add]

/-! ## Tests -/

variable {α : Type} [Number α]

theorem isNaN_iff [Lawful α] (x : α) : isNaN x = true ↔ exact x = .nan := by
  rw [isNaN_eq, isNaN_extRat]

theorem isNaN_eq_false_iff [Lawful α] (x : α) : isNaN x = false ↔ exact x ≠ .nan := by
  rw [← Bool.not_eq_true, isNaN_iff]

variable [Special α]

/-- A number is finite exactly if it stands for a rational. -/
theorem isFinite_iff_isRational (x : α) : isFinite x = true ↔ IsRational x := by
  have hexact : isFinite x = isFinite (exact x) := by
    rw [isFinite, Lawful.lt_eq, Lawful.lt_eq x, Special.exact_posInf, Special.exact_negInf]
    rfl
  rw [hexact, isFinite_iff_isRational_extRat, IsRational, IsRational, exact_extRat]

theorem isFinite_zero : isFinite (0 : α) = true := by
  rw [isFinite_iff_isRational]
  exact ⟨0, Lawful.exact_zero⟩

theorem isNaN_of_isFinite {x : α} (h : isFinite x = true) : isNaN x = false := by
  obtain ⟨q, hq⟩ := (isFinite_iff_isRational x).mp h
  rw [isNaN_eq_false_iff, hq]
  exact ExtRat.noConfusion

/-- **Which differences are no numbers.** -/
theorem isNaN_sub_iff (x y : α) :
    isNaN (x - y) = true
      ↔ isNaN x = true ∨ isNaN y = true ∨ (x == y) = true ∧ isFinite x = false := by
  have hinfinite : isFinite x = false ↔ ¬ IsRational x := by
    rw [← Bool.not_eq_true, isFinite_iff_isRational]
  rw [isNaN_iff, isNaN_iff, isNaN_iff, hinfinite, Lawful.beq_eq]
  by_cases h : IsRational x ∧ IsRational y
  · -- between rationals no side of the equivalence holds
    obtain ⟨hx, hy⟩ := h
    refine iff_of_false (Special.sub_number x y hx hy) ?_
    rintro (hnan | hnan | ⟨-, hnot⟩)
    · exact not_isRational_of_nan hnan hx
    · exact not_isRational_of_nan hnan hy
    · exact hnot hx
  · have hread : ∀ z : α, IsRational (exact z) ↔ IsRational z := by
      intro z
      rw [IsRational, IsRational, exact_extRat]
    rw [← hread, ← hread] at h
    rw [Special.exact_sub x y (by rwa [hread, hread] at h), sub_eq_nan_iff_extRat h, hread]
    rfl

/-- A finite number taken from another leaves what is no number exactly if that was none. -/
theorem isNaN_sub_of_isFinite (x : α) {y : α} (finite : isFinite y = true) :
    isNaN (x - y) = isNaN x := by
  rw [Bool.eq_iff_iff, isNaN_sub_iff]
  refine ⟨?_, .inl⟩
  rintro (hx | hy | ⟨hsame, hinfinite⟩)
  · exact hx
  · rw [isNaN_of_isFinite finite] at hy
    cases hy
  · -- what equals a finite number is finite
    obtain ⟨q, hq⟩ := (isFinite_iff_isRational y).mp finite
    rw [← Bool.not_eq_true, isFinite_iff_isRational] at hinfinite
    rw [Lawful.beq_eq, hq] at hsame
    cases hx : exact x with
    | fin p => exact absurd ⟨p, hx⟩ hinfinite
    | nan => rw [hx] at hsame; cases hsame
    | negInf => rw [hx] at hsame; cases hsame
    | posInf => rw [hx] at hsame; cases hsame

/-- What is not finite stays so when a finite number is taken from it. -/
theorem isFinite_sub_of_not_isFinite {x y : α} (infinite : isFinite x = false)
    (finite : isFinite y = true) : isFinite (x - y) = false := by
  rw [← Bool.not_eq_true, isFinite_iff_isRational] at infinite ⊢
  obtain ⟨q, hq⟩ := (isFinite_iff_isRational y).mp finite
  rw [IsRational, Special.exact_sub x y fun h => infinite h.1, hq]
  cases hx : exact x with
  | fin p => exact absurd ⟨p, hx⟩ infinite
  | nan => rintro ⟨p, hp⟩; cases hp
  | negInf => rintro ⟨p, hp⟩; cases hp
  | posInf => rintro ⟨p, hp⟩; cases hp

/-! ## Sums of finite numbers -/

/-- An infinity stays what it is when a finite number is added. -/
theorem exact_add_of_not_isFinite {x y : α} (number : isNaN x = false)
    (infinite : isFinite x = false) (finite : isFinite y = true) : exact (x + y) = exact x := by
  rw [isNaN_eq_false_iff] at number
  rw [← Bool.not_eq_true, isFinite_iff_isRational] at infinite
  rw [isFinite_iff_isRational] at finite
  rw [Special.exact_add x y fun h => infinite h.1]
  refine add_eq_left_extRat number ?_ ?_
  · rwa [IsRational, exact_extRat]
  · rwa [IsRational, exact_extRat]

theorem isFinite_add_of_not_isFinite {x y : α} (number : isNaN x = false)
    (infinite : isFinite x = false) (finite : isFinite y = true) : isFinite (x + y) = false := by
  have hexact := exact_add_of_not_isFinite number infinite finite
  rw [← Bool.not_eq_true, isFinite_iff_isRational, IsRational] at *
  rwa [hexact]

/-- A finite number added to a number gives a number. -/
theorem isNaN_add_of_isFinite {x y : α} (number : isNaN x = false) (finite : isFinite y = true) :
    isNaN (x + y) = false := by
  by_cases hx : isFinite x = true
  · rw [isFinite_iff_isRational] at hx finite
    rw [isNaN_eq_false_iff]
    exact Special.add_number x y hx finite
  · rw [isNaN_eq_false_iff,
      exact_add_of_not_isFinite number (by simpa using hx) finite, ← isNaN_eq_false_iff]
    exact number

/-- Finite numbers added one after the other never give what is no number. -/
theorem isNaN_foldl_add {start : α} {xs : List α} (number : isNaN start = false)
    (finite : ∀ x ∈ xs, isFinite x = true) : isNaN (xs.foldl (· + ·) start) = false := by
  induction xs generalizing start with
  | nil => exact number
  | cons x xs ih =>
    obtain ⟨hx, hxs⟩ := List.forall_mem_cons.mp finite
    exact ih (isNaN_add_of_isFinite number hx) hxs

/-- A sum that has overflowed stays infinite. -/
theorem isFinite_foldl_add_of_not_isFinite {start : α} {xs : List α}
    (number : isNaN start = false) (infinite : isFinite start = false)
    (finite : ∀ x ∈ xs, isFinite x = true) : isFinite (xs.foldl (· + ·) start) = false := by
  induction xs generalizing start with
  | nil => exact infinite
  | cons x xs ih =>
    obtain ⟨hx, hxs⟩ := List.forall_mem_cons.mp finite
    exact ih (isNaN_add_of_isFinite number hx)
      (isFinite_add_of_not_isFinite number infinite hx) hxs

/-- **A sum is finite exactly if no sum on the way has overflowed.** -/
theorem isFinite_foldl_add_iff {start : α} {xs : List α} (number : isNaN start = false)
    (finite : ∀ x ∈ xs, isFinite x = true) :
    isFinite (xs.foldl (· + ·) start) = true
      ↔ ∀ part, part <+: xs → isFinite (part.foldl (· + ·) start) = true := by
  constructor
  · intro hwhole part hpart
    obtain ⟨rest, rfl⟩ := hpart
    have hpart : ∀ x ∈ part, isFinite x = true := fun x hx => finite x (List.mem_append_left _ hx)
    have hrest : ∀ x ∈ rest, isFinite x = true :=
      fun x hx => finite x (List.mem_append_right _ hx)
    by_contra hover
    have hstays := isFinite_foldl_add_of_not_isFinite (isNaN_foldl_add number hpart)
      (by simpa using hover) hrest
    rw [List.foldl_append, hstays] at hwhole
    cases hwhole
  · intro h
    exact h xs (List.prefix_refl xs)

end Milp.Number
