/-
Which column a node is split at.

The search picks from a list of candidates by a key. Which of them it picks decides how
fast it is, not whether it is right, so what is proved here is only that the choice is a
candidate and that there is none exactly if there are no candidates. With a tolerance
that is not negative every candidate of either kind is away from a whole number: that is
what makes a split a partition.
-/
import Milp.Proofs.Search.Box

set_option autoImplicit false

namespace Milp.Search

open Number (Lawful)

variable {α : Type} [Number α]

/-! ## Choosing by a key -/

/-- A fold that keeps one of two items at every turn ends with one of its items. -/
theorem foldl_choice_mem {β : Type} (keep : β → β → Prop) [DecidableRel keep] (xs : List β) :
    ∀ x : β, xs.foldl (fun best y => if keep best y then y else best) x ∈ x :: xs := by
  -- whatever the fold holds before an item, it holds that or the item after it
  induction xs with
  | nil => intro x; exact List.mem_singleton.mpr rfl
  | cons y ys ih =>
    intro x
    rw [List.foldl_cons]
    have h := ih (if keep x y then y else x)
    by_cases hk : keep x y
    · rw [if_pos hk] at h ⊢
      exact List.mem_cons_of_mem _ h
    · rw [if_neg hk] at h ⊢
      rcases List.mem_cons.mp h with h | h
      · rw [h]
        exact List.mem_cons_self
      · exact List.mem_cons_of_mem _ (List.mem_cons_of_mem _ h)

theorem mem_of_leastBy {β : Type} {key : β → α} {xs : List β} {x : β}
    (h : leastBy key xs = some x) : x ∈ xs := by
  cases xs with
  | nil => simp [leastBy] at h
  | cons y ys =>
    rw [leastBy, Option.some.injEq] at h
    rw [← h]
    exact foldl_choice_mem (fun best y => Number.lt (key y) (key best) = true) ys y

theorem leastBy_eq_none_iff {β : Type} {key : β → α} {xs : List β} :
    leastBy key xs = none ↔ xs = [] := by
  cases xs <;> simp [leastBy]

theorem mem_of_greatestBy {β : Type} {key : β → α} {xs : List β} {x : β}
    (h : greatestBy key xs = some x) : x ∈ xs := by
  cases xs with
  | nil => simp [greatestBy] at h
  | cons y ys =>
    rw [greatestBy, Option.some.injEq] at h
    rw [← h]
    -- of two equal keys the later item is kept, so the test is the other way round
    have hflip : (fun (best y : β) => if Number.lt (key y) (key best) then best else y)
        = fun best y => if ¬ Number.lt (key y) (key best) = true then y else best := by
      funext best y
      rw [ite_not]
    rw [hflip]
    exact foldl_choice_mem (fun best y => ¬ Number.lt (key y) (key best) = true) ys y

theorem greatestBy_eq_none_iff {β : Type} {key : β → α} {xs : List β} :
    greatestBy key xs = none ↔ xs = [] := by
  cases xs <;> simp [greatestBy]

/-! ## Candidates -/

theorem branchingColumn?_some {p : Program α} {tolerance : α} {values : List α} {i : Nat}
    (h : branchingColumn? p tolerance values = some i) :
    i ∈ p.integerColumns
      ∧ Number.gt (Number.integralityGap (Number.valueAt values i)) tolerance = true :=
  List.mem_filter.mp (mem_of_leastBy h)

/-- If there is none, every whole column is within the tolerance of a whole number. -/
theorem branchingColumn?_none {p : Program α} {tolerance : α} {values : List α}
    (h : branchingColumn? p tolerance values = none) :
    ∀ i ∈ p.integerColumns,
      Number.gt (Number.integralityGap (Number.valueAt values i)) tolerance = false := by
  intro i hi
  have hempty := leastBy_eq_none_iff.mp h
  rw [List.filter_eq_nil_iff] at hempty
  simpa using hempty i hi

theorem leastIntegralColumn?_some {p : Program α} {box : Box α} {values : List α} {i : Nat}
    (h : leastIntegralColumn? p box values = some i) :
    i ∈ p.integerColumns
      ∧ Number.gt (Number.integralityGap (Number.valueAt values i)) 0 = true := by
  have hmem := List.mem_filter.mp (mem_of_greatestBy h)
  rw [Bool.and_eq_true] at hmem
  exact ⟨hmem.1, hmem.2.2⟩

/-- If there is none, a whole column that splits properly is whole. -/
theorem leastIntegralColumn?_none {p : Program α} {box : Box α} {values : List α}
    (h : leastIntegralColumn? p box values = none) :
    ∀ i ∈ p.integerColumns,
      splitsProperly (boundsAt box i) (Number.valueAt values i) = true →
      Number.gt (Number.integralityGap (Number.valueAt values i)) 0 = false := by
  intro i hi hproper
  have hempty := greatestBy_eq_none_iff.mp h
  rw [List.filter_eq_nil_iff] at hempty
  simpa [hproper] using hempty i hi

/-- **A split column is away from a whole number**, whichever way it was chosen. -/
theorem splitColumn?_some [Lawful α] {p : Program α} {tolerance : α} {box : Box α}
    {values : List α} {i : Nat} (nonneg : Number.le 0 tolerance = true)
    (h : splitColumn? p tolerance box values = some i) :
    i ∈ p.integerColumns
      ∧ Number.gt (Number.integralityGap (Number.valueAt values i)) 0 = true := by
  unfold splitColumn? at h
  cases hb : branchingColumn? p tolerance values with
  | some j =>
    rw [hb] at h
    obtain rfl : j = i := Option.some.inj h
    obtain ⟨hi, hgap⟩ := branchingColumn?_some hb
    exact ⟨hi, Number.lt_of_le_of_lt_of_lawful nonneg hgap⟩
  | none =>
    -- no column is fractional, so a row is broken and the other choice was made
    simp only [hb] at h
    split at h
    · cases h
    · exact leastIntegralColumn?_some h

/-- A node is not split only if its snapped point satisfies the rows or no column is left
to split. -/
theorem splitColumn?_none {p : Program α} {tolerance : α} {box : Box α} {values : List α}
    (h : splitColumn? p tolerance box values = none) :
    branchingColumn? p tolerance values = none
      ∧ (p.satisfiesRows (snap p values) tolerance = true
        ∨ leastIntegralColumn? p box values = none) := by
  unfold splitColumn? at h
  cases hb : branchingColumn? p tolerance values with
  | some j => simp [hb] at h
  | none =>
    simp only [hb] at h
    refine ⟨rfl, ?_⟩
    by_cases hrows : p.satisfiesRows (snap p values) tolerance = true
    · exact .inl hrows
    · rw [if_neg hrows] at h
      exact .inr h

end Milp.Search
