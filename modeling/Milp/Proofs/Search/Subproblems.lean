/-
Subproblems over the rationals, and the rounding of their points.

The boxes of a search stay what the root's box is (`IsSubproblem`): they have one
interval a column, no end points at an infinity on the wrong side, and the ends of whole
columns are whole. Splitting keeps all of that, because the value of a split is finite
and its halves end at whole numbers.

Whole ends are what makes rounding safe. The nearest whole number of a value between
whole ends is between them as well (`has_snapOn`), and a value that is not whole always
leaves room for a split (`splitsProperly_of_gap`). Rounding moves no whole column by more
than its gap, so the objective moves by no more than the largest gap times
`integerWeight` (`abs_objectiveOn_snapOn_sub_le`).
-/
import Milp.Proofs.Program.Points
import Milp.Proofs.Search.Partition

set_option autoImplicit false

namespace Milp

/-! ## Whole ends -/

/-- The finite ends of an interval are whole. -/
structure Interval.HasWholeEnds (b : Interval ExtRat) : Prop where
  lower : ∀ l : ℚ, b.lower = .fin l → ∃ z : ℤ, l = z
  upper : ∀ u : ℚ, b.upper = .fin u → ∃ z : ℤ, u = z

namespace Interval

theorem IsOutward.isProper {b : Interval ExtRat} (h : b.IsOutward) : b.IsProper := by
  unfold IsProper
  rw [Number.exact_extRat, Number.exact_extRat]
  constructor
  · rcases h.lower with hl | ⟨l, hl⟩ <;> rw [hl] <;> simp
  · rcases h.upper with hu | ⟨u, hu⟩ <;> rw [hu] <;> simp

/-- Between whole ends, rounding stays inside. -/
theorem has_nearestInt {b : Interval ExtRat} {v : ℚ} (hb : b.HasWholeEnds) (hv : b.Has (.fin v)) :
    b.Has (.fin (ExtRat.nearestInt v)) := by
  constructor
  · rcases lower_of_has hv with hl | ⟨l, hl, hle⟩
    · rw [hl, ExtRat.le_negInf_fin]
    · obtain ⟨z, rfl⟩ := hb.lower l hl
      rw [hl, ExtRat.le_fin, decide_eq_true_iff]
      exact_mod_cast ExtRat.le_nearestInt hle
  · rcases upper_of_has hv with hu | ⟨u, hu, hle⟩
    · rw [hu, ExtRat.le_fin_posInf]
    · obtain ⟨z, rfl⟩ := hb.upper u hu
      rw [hu, ExtRat.le_fin, decide_eq_true_iff]
      exact_mod_cast ExtRat.nearestInt_le hle

/-- Between whole ends, a value that is not whole splits properly. -/
theorem splitsProperly_of_gap {b : Interval ExtRat} {v : ℚ} (hb : b.HasWholeEnds)
    (hv : b.Has (.fin v)) (hgap : 0 < |v - ExtRat.nearestInt v|) :
    Search.splitsProperly b (.fin v) = true := by
  -- a value away from whole numbers is none of the two ends
  have hne : ∀ z : ℤ, (z : ℚ) ≠ v := by
    rintro z rfl
    rw [ExtRat.nearestInt_intCast, sub_self, abs_zero] at hgap
    exact lt_irrefl _ hgap
  rw [Search.splitsProperly, Bool.and_eq_true, ExtRat.ceil_fin, ExtRat.floor_fin]
  constructor
  · rcases lower_of_has hv with hl | ⟨l, hl, hle⟩
    · rw [hl]
      rfl
    · obtain ⟨z, rfl⟩ := hb.lower l hl
      rw [hl, ExtRat.lt_fin, decide_eq_true_iff]
      exact lt_of_lt_of_le (lt_of_le_of_ne hle (hne z)) Rat.le_ceil
  · rcases upper_of_has hv with hu | ⟨u, hu, hle⟩
    · rw [hu]
      rfl
    · obtain ⟨z, rfl⟩ := hb.upper u hu
      rw [hu, ExtRat.lt_fin, decide_eq_true_iff]
      exact lt_of_le_of_lt (Rat.floor_le v) (lt_of_le_of_ne hle (hne z).symm)

end Interval

/-! ## Narrowing at whole numbers -/

theorem Number.min_eq_or {α : Type} [Number α] (x y : α) :
    Number.min x y = x ∨ Number.min x y = y := by
  rw [Number.min]
  split <;> simp

theorem Number.max_eq_or {α : Type} [Number α] (x y : α) :
    Number.max x y = x ∨ Number.max x y = y := by
  rw [Number.max]
  split <;> simp

theorem Cut.isOutward_narrow {c : Cut ExtRat} {b : Interval ExtRat} {z : ℤ}
    (hc : c.bound = .fin z) (hb : b.IsOutward) : (c.narrow b).IsOutward := by
  rw [Cut.narrow]
  split
  · refine ⟨hb.lower, ?_⟩
    rcases Number.min_eq_or c.bound b.upper with h | h
    · exact .inr ⟨z, h.trans hc⟩
    · exact h.symm ▸ hb.upper
  · refine ⟨?_, hb.upper⟩
    rcases Number.max_eq_or c.bound b.lower with h | h
    · exact .inr ⟨z, h.trans hc⟩
    · exact h.symm ▸ hb.lower

theorem Cut.hasWholeEnds_narrow {c : Cut ExtRat} {b : Interval ExtRat} {z : ℤ}
    (hc : c.bound = .fin z) (hb : b.HasWholeEnds) : (c.narrow b).HasWholeEnds := by
  rw [Cut.narrow]
  split
  · refine ⟨hb.lower, fun u hu => ?_⟩
    rcases Number.min_eq_or c.bound b.upper with h | h
    · exact ⟨z, ExtRat.fin.inj (hu.symm.trans (h.trans hc))⟩
    · exact hb.upper u (h.symm.trans hu)
  · refine ⟨fun l hl => ?_, hb.upper⟩
    rcases Number.max_eq_or c.bound b.lower with h | h
    · exact ⟨z, ExtRat.fin.inj (hl.symm.trans (h.trans hc))⟩
    · exact hb.lower l (h.symm.trans hl)

namespace Search

/-! ## Subproblems -/

/-- What every box of a search over the rationals is. -/
structure IsSubproblem (p : Program ExtRat) (box : Box ExtRat) : Prop where
  length : box.length = p.columns.length
  outward : box.IsOutward
  whole : ∀ i ∈ p.integerColumns, (boundsAt box i).HasWholeEnds
  inside : ∀ x, Box.Has box x → Box.Has (rootBox p) x

theorem IsSubproblem.isProper {p : Program ExtRat} {box : Box ExtRat} (h : IsSubproblem p box) :
    Box.IsProper box :=
  fun b hb => (h.outward b hb).isProper

theorem IsSubproblem.length_of_has {p : Program ExtRat} {box : Box ExtRat} {x : List ℚ}
    (h : IsSubproblem p box) (hx : Box.Has box (x.map .fin)) : x.length = p.columns.length := by
  rw [← h.length, hx.length_eq, List.length_map]

theorem isOutward_rootBounds {c : Program.Column ExtRat} (h : c.bounds.IsOutward) :
    (rootBounds c).IsOutward := by
  rw [rootBounds]
  split
  · constructor
    · rcases h.lower with hl | ⟨l, hl⟩
      · exact .inl (by rw [hl]; rfl)
      · exact .inr ⟨l.ceil, by rw [hl, ExtRat.ceil_fin]⟩
    · rcases h.upper with hu | ⟨u, hu⟩
      · exact .inl (by rw [hu]; rfl)
      · exact .inr ⟨u.floor, by rw [hu, ExtRat.floor_fin]⟩
  · exact h

theorem hasWholeEnds_rootBounds {c : Program.Column ExtRat} (h : c.integer = true) :
    (rootBounds c).HasWholeEnds := by
  rw [rootBounds, if_pos h]
  constructor
  · intro l hl
    cases hb : c.bounds.lower with
    | fin a =>
      rw [hb, ExtRat.ceil_fin] at hl
      exact ⟨a.ceil, (ExtRat.fin.inj hl).symm⟩
    | nan => rw [hb] at hl; cases hl
    | negInf => rw [hb] at hl; cases hl
    | posInf => rw [hb] at hl; cases hl
  · intro u hu
    cases hb : c.bounds.upper with
    | fin a =>
      rw [hb, ExtRat.floor_fin] at hu
      exact ⟨a.floor, (ExtRat.fin.inj hu).symm⟩
    | nan => rw [hb] at hu; cases hu
    | negInf => rw [hb] at hu; cases hu
    | posInf => rw [hb] at hu; cases hu

theorem isSubproblem_rootBox {p : Program ExtRat} (hp : p.IsRational) :
    IsSubproblem p (rootBox p) where
  length := length_rootBox p
  outward b hb := by
    obtain ⟨c, hc, rfl⟩ := List.mem_map.mp hb
    exact isOutward_rootBounds (hp.bounds c hc)
  whole i hi := by
    obtain ⟨hlt, hinteger⟩ := Program.mem_integerColumns.mp hi
    rw [boundsAt_of_lt (by rw [length_rootBox]; exact hlt)]
    simp only [rootBox, List.getElem_map]
    exact hasWholeEnds_rootBounds (by simpa [Program.isInteger, hlt] using hinteger)
  inside _ hx := hx

theorem IsSubproblem.tighten {p : Program ExtRat} {box : Box ExtRat} {c : Cut ExtRat} {z : ℤ}
    (h : IsSubproblem p box) (hcol : c.column < box.length) (hc : c.bound = .fin z) :
    IsSubproblem p (Cut.tighten box c) where
  length := (Cut.length_tighten box c).trans h.length
  outward b hb := by
    rcases List.mem_or_eq_of_mem_set hb with hb | rfl
    · exact h.outward b hb
    · rw [boundsAt_of_lt hcol]
      exact Cut.isOutward_narrow hc (h.outward _ (List.getElem_mem hcol))
  whole i hi := by
    have hlt : i < box.length := h.length ▸ (Program.mem_integerColumns.mp hi).1
    rw [boundsAt_of_lt (by rw [Cut.length_tighten]; exact hlt)]
    -- the cut column has the narrowed interval, any other the one it had
    simp only [Cut.tighten, List.getElem_set]
    split
    · rename_i heq
      rw [heq]
      exact Cut.hasWholeEnds_narrow hc (h.whole i hi)
    · rw [← boundsAt_of_lt hlt]
      exact h.whole i hi
  inside x hx := by
    have hnum : Number.exact c.bound ≠ .nan := by
      rw [Number.exact_extRat, hc]
      simp
    exact h.inside x ((Cut.has_tighten_iff h.isProper hnum hcol).mp hx).1

theorem IsSubproblem.halves {p : Program ExtRat} {box : Box ExtRat} {column : Nat} {q : ℚ}
    {first : Nat} (h : IsSubproblem p box) (hcol : column < box.length) :
    ∀ e ∈ halves p box column (.fin q) first, IsSubproblem p e.box := by
  intro e he
  rcases (mem_halves_iff p box column (.fin q) first 0 0 e).mp he with rfl | rfl
  · exact h.tighten hcol rfl
  · exact h.tighten hcol rfl

/-! ## Rounding -/

/-- A point rounded at the whole columns. -/
def snapOn (p : Program ExtRat) (x : List ℚ) : List ℚ :=
  List.zipWith (fun v (c : Program.Column ExtRat) =>
    if c.integer then (ExtRat.nearestInt v : ℚ) else v) x p.columns

theorem snap_map_fin (p : Program ExtRat) (x : List ℚ) :
    snap p (x.map .fin) = (snapOn p x).map .fin := by
  rw [snap, snapOn, List.map_zipWith, List.zipWith_map_left]
  congr 1
  funext v c
  rw [ExtRat.round_fin]
  exact (apply_ite ExtRat.fin _ _ _).symm

theorem length_snapOn {p : Program ExtRat} {x : List ℚ} (len : x.length = p.columns.length) :
    (snapOn p x).length = p.columns.length := by
  rw [snapOn, List.length_zipWith, len, min_self]

theorem wholeAt_snapOn {p : Program ExtRat} {x : List ℚ} (len : x.length = p.columns.length) :
    p.WholeAt ((snapOn p x).map .fin) := by
  rw [Program.wholeAt_map_fin_iff (length_snapOn len), List.forall₂_iff_get]
  refine ⟨(length_snapOn len).symm, fun i hc hx hinteger => ?_⟩
  have hlt : i < x.length := len ▸ hc
  have hget : (snapOn p x).get ⟨i, hx⟩ = (ExtRat.nearestInt x[i] : ℚ) := by
    simp only [snapOn, List.get_eq_getElem, List.getElem_zipWith]
    exact if_pos hinteger
  rw [hget, Rat.floor_intCast]

theorem has_snapOn {p : Program ExtRat} {box : Box ExtRat} {x : List ℚ}
    (h : IsSubproblem p box) (hx : Box.Has box (x.map .fin)) :
    Box.Has box ((snapOn p x).map .fin) := by
  have len := h.length_of_has hx
  rw [Box.Has, List.forall₂_map_right_iff, List.forall₂_iff_get] at hx ⊢
  refine ⟨by rw [h.length, length_snapOn len], fun i hi hs => ?_⟩
  have hc : i < p.columns.length := h.length ▸ hi
  have hv := hx.2 i hi (len ▸ hc)
  simp only [snapOn, List.get_eq_getElem, List.getElem_zipWith] at hv ⊢
  split
  · rename_i hinteger
    have hmem : i ∈ p.integerColumns :=
      Program.mem_integerColumns.mpr ⟨hc, by simpa [Program.isInteger, hc] using hinteger⟩
    have hends := h.whole i hmem
    rw [boundsAt_of_lt hi] at hends
    exact Interval.has_nearestInt hends hv
  · exact hv

/-- A point that is whole already is not moved. -/
theorem snapOn_eq_self {p : Program ExtRat} {x : List ℚ} (len : x.length = p.columns.length)
    (h : ∀ i ∈ p.integerColumns, x.getD i 0 = ExtRat.nearestInt (x.getD i 0)) :
    snapOn p x = x := by
  refine List.ext_getElem (by rw [length_snapOn len, len]) fun i _ hx => ?_
  have hc : i < p.columns.length := len ▸ hx
  simp only [snapOn, List.getElem_zipWith]
  split
  · rename_i hinteger
    have hmem : i ∈ p.integerColumns :=
      Program.mem_integerColumns.mpr ⟨hc, by simpa [Program.isInteger, hc] using hinteger⟩
    have := h i hmem
    rw [List.getD_eq_getElem _ _ hx] at this
    exact this.symm
  · rfl

/-- Rounding changes the objective by at most the largest gap times the weight of the
whole columns. -/
theorem abs_objectiveOn_snapOn_sub_le {p : Program ExtRat} {x : List ℚ} {t : ℚ}
    (len : x.length = p.columns.length)
    (h : ∀ i ∈ p.integerColumns, |x.getD i 0 - ExtRat.nearestInt (x.getD i 0)| ≤ t) :
    |p.objectiveOn (snapOn p x) - p.objectiveOn x| ≤ t * p.integerWeight := by
  rw [Program.forall_integerColumns_iff len 0 fun v => |v - ExtRat.nearestInt v| ≤ t] at h
  rw [Program.objectiveOn, Program.objectiveOn, add_sub_add_right_eq_sub, Program.integerWeight,
    snapOn]
  -- the two sums run over the same columns, and only whole ones contribute a difference
  clear len
  generalize p.columns = columns at h
  induction h with
  | nil => simp
  | @cons c v columns x hgap _ ih =>
    simp only [List.zipWith_cons_cons, List.sum_cons]
    rw [add_sub_add_comm]
    refine (abs_add_le _ _).trans ?_
    by_cases hinteger : c.integer = true
    · rw [if_pos hinteger, List.filter_cons_of_pos hinteger, List.map_cons, List.sum_cons, mul_add]
      refine add_le_add ?_ ih
      rw [← mul_sub, abs_mul, abs_sub_comm, mul_comm]
      exact mul_le_mul_of_nonneg_right (hgap hinteger) (abs_nonneg _)
    · rw [if_neg hinteger, List.filter_cons_of_neg hinteger, sub_self, abs_zero, zero_add]
      exact ih

end Search

end Milp
