/-
Weighted sums of rationals.

A sum of coefficients times values is computed by the carrier one product after the other.
With finite coefficients and rational values it is the sum over the rationals, `sumOn`,
whatever the coefficients belong to: the columns of a program, or the variables of a model
by their references. So what merging and leaving out terms does to a value is said about
`sumOn` only.
-/
import Milp.Proofs.Number.Exact

set_option autoImplicit false

namespace Milp.ExtRat

variable {β : Type}

/-- The sum of coefficients times the values of what they belong to. -/
def sumOn (terms : List (β × ExtRat)) (x : β → ℚ) : ℚ :=
  (terms.map fun t => t.2.value * x t.1).sum

@[simp] theorem sumOn_nil (x : β → ℚ) : sumOn [] x = 0 := rfl

@[simp] theorem sumOn_cons (t : β × ExtRat) (terms : List (β × ExtRat)) (x : β → ℚ) :
    sumOn (t :: terms) x = t.2.value * x t.1 + sumOn terms x := rfl

@[simp] theorem sumOn_append (terms others : List (β × ExtRat)) (x : β → ℚ) :
    sumOn (terms ++ others) x = sumOn terms x + sumOn others x := by
  simp [sumOn]

variable {terms : List (β × ExtRat)}

/-- **A weighted sum of finite values** is the sum of the rationals they hold. -/
theorem weightedSum_fin (finite : ∀ t ∈ terms, Number.isFinite t.2 = true) (x : β → ℚ) :
    Number.weightedSum terms (fun b => .fin (x b)) = .fin (sumOn terms x) := by
  rw [Number.weightedSum, sumOn, ← sum_map_fin, List.map_map]
  congr 1
  refine List.map_congr_left fun t ht => ?_
  show t.2 * .fin (x t.1) = .fin (t.2.value * x t.1)
  nth_rewrite 1 [eq_fin_of_isFinite (finite t ht)]
  rfl

theorem sumOn_scale (finite : ∀ t ∈ terms, Number.isFinite t.2 = true) (factor : ℚ)
    (x : β → ℚ) :
    sumOn (terms.map fun t => (t.1, t.2 * .fin factor)) x = sumOn terms x * factor := by
  induction terms with
  | nil => simp
  | cons t terms ih =>
    obtain ⟨ht, hterms⟩ := List.forall_mem_cons.mp finite
    have hproduct : (t.2 * ExtRat.fin factor).value = t.2.value * factor := by
      rw [eq_fin_of_isFinite ht]
      rfl
    rw [List.map_cons, sumOn_cons, sumOn_cons, ih hterms, hproduct]
    ring

/-- Terms with coefficient zero may be left out. -/
theorem sumOn_filter (finite : ∀ t ∈ terms, Number.isFinite t.2 = true) (x : β → ℚ) :
    sumOn (terms.filter fun t => !(t.2 == 0)) x = sumOn terms x := by
  induction terms with
  | nil => rfl
  | cons t terms ih =>
    obtain ⟨ht, hterms⟩ := List.forall_mem_cons.mp finite
    by_cases hzero : (t.2 == 0) = true
    · have hvalue : t.2.value = 0 := by
        rw [eq_fin_of_isFinite ht, zero_eq, beq_fin] at hzero
        exact of_decide_eq_true hzero
      rw [List.filter_cons_of_neg (by simpa using hzero), ih hterms, sumOn_cons, hvalue, zero_mul,
        zero_add]
    · rw [List.filter_cons_of_pos (by simpa using hzero), sumOn_cons, sumOn_cons, ih hterms]

end Milp.ExtRat
