/-
How many values a point has.

Whoever reads a point of a relaxation takes its values by column, so there must be one for
each. A tableau knows how many columns its program has, and no exchange and no change of its
costs touches that number; the point that is read off it has as many values, wherever its
variables have moved. Of another solver the same is asked as a property, `FillsColumns`.

In a box with one interval a column, the relaxation of a program then gives points with one
value a column. A program without columns is no exception: its only point has no values.
-/
import Milp.Relaxation
import Milp.Proofs.Attempt

set_option autoImplicit false

namespace Milp

variable {α : Type} [Number α]

/-! ## Tableaux -/

namespace Simplex

namespace Tableau

variable (t : Tableau α)

@[simp] theorem width_shift (c : Nat) (step value : α) : (t.shift c step value).width = t.width :=
  rfl

@[simp] theorem width_exchange (r c : Nat) (value : α) : (t.exchange r c value).width = t.width :=
  rfl

@[simp] theorem width_withCosts (costs : Array α) : (t.withCosts costs).width = t.width :=
  rfl

omit [Number α] in
/-- Placing values does not lengthen the list of them. -/
theorem size_placed (placed : List (Placed α)) (values : Array α) :
    (placed.foldl (fun values v => values.setIfInBounds v.index v.value) values).size
      = values.size := by
  induction placed generalizing values with
  | nil => rfl
  | cons v placed ih => rw [List.foldl_cons, ih, Array.size_setIfInBounds]

@[simp] theorem length_point : t.point.length = t.width := by
  rw [point, Array.length_toList, ← Array.foldl_toList, size_placed, Array.size_replicate]

end Tableau

/-! ## Phases -/

variable {noise : α} {t u : Tableau α}

theorem width_of_restore {exchanges : Nat} (h : restore noise exchanges t = .done u) :
    u.width = t.width := by
  induction exchanges generalizing t with
  | zero => cases h
  | succ exchanges ih =>
    rw [restore] at h
    split at h
    · rw [← PhaseEnd.done.inj h]
    · dsimp only at h
      split at h
      · cases h
      · exact (ih h).trans (t.width_exchange _ _ _)

theorem width_of_improve {moves : Nat} (h : improve noise moves t = .done u) :
    u.width = t.width := by
  induction moves generalizing t with
  | zero => cases h
  | succ moves ih =>
    rw [improve] at h
    split at h
    · rw [← PhaseEnd.done.inj h]
    · -- what stops the variable decides between an exchange and a shift
      split at h
      · cases h
      · exact (ih h).trans (t.width_exchange _ _ _)
      · exact (ih h).trans (t.width_shift _ _ _)

/-! ## Solvers -/

omit [Number α] in
/-- An optimal point has a value for every column. -/
def FillsColumns (solve : Solver α) : Prop :=
  ∀ columns rows point, solve columns rows = .optimal point → point.length = columns.length

/-- **The simplex method gives a value for every column.** -/
theorem fillsColumns_solve (noise : α) : FillsColumns (solve noise) := by
  intro columns rows point h
  rw [solve] at h
  split at h
  · cases h
  · cases h
  · rename_i feasible hrestored
    have hfeasible : feasible.width = columns.length := by
      rw [width_of_restore hrestored]
      -- it begins as wide as the program, whatever the costs in the first phase
      split <;> rfl
    split at h
    · rw [← Verdict.optimal.inj h, Tableau.length_point, hfeasible]
    · split at h
      · cases h
      · cases h
      · rename_i best himproved
        rw [← Verdict.optimal.inj h, Tableau.length_point, width_of_improve himproved,
          Tableau.width_withCosts, hfeasible]

end Simplex

/-! ## Relaxations -/

theorem Program.length_of_relaxBy {solve : Simplex.Solver α} (fills : Simplex.FillsColumns solve)
    {p : Program α} {box : Box α} (len : box.length = p.columns.length) {values : List α}
    {objective : α} (h : p.relaxBy solve box = .ok (.solved values objective)) :
    values.length = p.columns.length := by
  rw [relaxBy] at h
  split at h
  · cases h
  split at h
  · -- without columns the only point is the empty one
    rename_i hnone
    rw [List.isEmpty_iff.mp hnone]
    split at h <;> cases h
    rfl
  · obtain ⟨found, -, h⟩ := Attempt.bind_eq_ok_iff.mp h
    split at h
    · cases h
    · split at h
      · cases h
      · cases h
      · cases h
      · rename_i point hoptimal
        obtain ⟨rfl, -⟩ := Relaxation.solved.inj (Except.ok.inj h)
        rw [fills _ _ _ hoptimal, linearColumns, List.length_mapIdx, len]

end Milp
