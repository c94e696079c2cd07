/-
What normalizing an expression keeps.

`normalizedTerms` merges the terms of a variable into the place of the first of them and
then drops those that have cancelled. Two things are said about the result. Over every
carrier it names a variable at most once, in the order of first appearance, and never with
the coefficient zero. Over the exact carrier it has the same value at every point, so
nothing but the form of the expression has changed.

Both go from left to right with the fold: `mergedTerms_concat` says what one more term at
the end does, and the inductions are from the right.
-/
import Milp.Proofs.Program.OfModel

set_option autoImplicit false

namespace Milp.Affine

/-! ## Form -/

section Form

variable {α : Type} [Number α]

@[simp] theorem mergedTerms_nil : mergedTerms ([] : List (Handle × α)) = [] := rfl

theorem mergedTerms_concat (terms : List (Handle × α)) (t : Handle × α) :
    mergedTerms (terms ++ [t]) = mergeTerm t.1 t.2 (mergedTerms terms) := by
  simp only [mergedTerms, List.foldl_append, List.foldl_cons, List.foldl_nil]

/-- A term is merged into one of its variable, or comes last. -/
theorem handles_mergeTerm (h : Handle) (c : α) (merged : List (Handle × α)) :
    (mergeTerm h c merged).map Prod.fst
      = if h ∈ merged.map Prod.fst then merged.map Prod.fst else merged.map Prod.fst ++ [h] := by
  induction merged with
  | nil => simp [mergeTerm]
  | cons t merged ih =>
    by_cases heq : t.1 = h
    · simp [mergeTerm, heq]
    · have hne : ¬ h = t.1 := fun hsame => heq hsame.symm
      simp only [mergeTerm, if_neg heq, List.map_cons, ih, List.mem_cons, hne, false_or]
      split
      · rfl
      · rw [List.cons_append]

/-- **One term a variable**, in the order of first appearance. -/
theorem handles_mergedTerms (terms : List (Handle × α)) :
    (mergedTerms terms).map Prod.fst = (terms.map Prod.fst).eraseDups := by
  induction terms using List.reverseRecOn with
  | nil => rfl
  | append_singleton terms t ih =>
    have hmem : t.1 ∈ (terms.map Prod.fst).eraseDups ↔ t.1 ∈ terms.map Prod.fst :=
      List.mem_eraseDups
    rw [mergedTerms_concat, handles_mergeTerm, ih, List.map_append, List.eraseDups_append]
    by_cases hthere : t.1 ∈ terms.map Prod.fst
    · simp [hmem, hthere, List.removeAll]
    · rw [if_neg (mt hmem.mp hthere)]
      simp [List.removeAll, hthere, List.eraseDups_cons]

theorem nodup_handles_mergedTerms (terms : List (Handle × α)) :
    ((mergedTerms terms).map Prod.fst).Nodup := by
  induction terms using List.reverseRecOn with
  | nil => exact List.nodup_nil
  | append_singleton terms t ih =>
    rw [mergedTerms_concat, handles_mergeTerm]
    split
    · exact ih
    · rename_i hnew
      rw [← List.concat_eq_append]
      exact List.Nodup.concat hnew ih

variable (e : Affine α)

theorem nodup_handles_normalizedTerms : (e.normalizedTerms.map Prod.fst).Nodup :=
  (nodup_handles_mergedTerms e.terms).sublist (List.filter_sublist.map Prod.fst)

theorem sublist_handles_normalizedTerms :
    (e.normalizedTerms.map Prod.fst).Sublist (e.terms.map Prod.fst).eraseDups := by
  rw [← handles_mergedTerms]
  exact List.filter_sublist.map Prod.fst

/-- No handle comes in that was not there. -/
theorem forall_handles_normalizedTerms {P : Handle → Prop} {e : Affine α}
    (h : ∀ t ∈ e.terms, P t.1) : ∀ t ∈ e.normalizedTerms, P t.1 := by
  intro t ht
  have hmem := (sublist_handles_normalizedTerms e).mem (List.mem_map_of_mem ht)
  obtain ⟨s, hs, heq⟩ := List.mem_map.mp (List.mem_eraseDups.mp hmem)
  rw [← heq]
  exact h s hs

theorem ne_zero_of_mem_normalizedTerms {t : Handle × α} (ht : t ∈ e.normalizedTerms) :
    (t.2 == 0) = false := by
  simpa using (List.mem_filter.mp ht).2

end Form

/-! ## Value -/

section Value

open ExtRat (sumOn)

/-- The sum over terms grows by what is merged into them. -/
theorem sumOn_mergeTerm {h : Handle} {c : ExtRat} (hc : Number.isFinite c = true)
    {merged : List (Handle × ExtRat)} (hmerged : ∀ t ∈ merged, Number.isFinite t.2 = true)
    (x : Handle → ℚ) : sumOn (mergeTerm h c merged) x = sumOn merged x + c.value * x h := by
  induction merged with
  | nil => simp [mergeTerm]
  | cons t merged ih =>
    obtain ⟨ht, hmerged⟩ := List.forall_mem_cons.mp hmerged
    by_cases heq : t.1 = h
    · have hsum : (t.2 + c).value = t.2.value + c.value := by
        rw [ExtRat.eq_fin_of_isFinite ht, ExtRat.eq_fin_of_isFinite hc]
        rfl
      rw [mergeTerm, if_pos heq, ExtRat.sumOn_cons, ExtRat.sumOn_cons, hsum, heq]
      ring
    · rw [mergeTerm, if_neg heq, ExtRat.sumOn_cons, ExtRat.sumOn_cons, ih hmerged]
      ring

theorem sumOn_mergedTerms {terms : List (Handle × ExtRat)}
    (finite : ∀ t ∈ terms, Number.isFinite t.2 = true) (x : Handle → ℚ) :
    sumOn (mergedTerms terms) x = sumOn terms x := by
  induction terms using List.reverseRecOn with
  | nil => rfl
  | append_singleton terms t ih =>
    have hterms : ∀ s ∈ terms, Number.isFinite s.2 = true :=
      fun s hs => finite s (List.mem_append_left _ hs)
    have ht : Number.isFinite t.2 = true := finite t (by simp)
    rw [mergedTerms_concat, sumOn_mergeTerm ht (isFinite_mergedTerms hterms), ih hterms]
    simp

variable {e : Affine ExtRat} (finite : ∀ t ∈ e.terms, Number.isFinite t.2 = true)
include finite

/-- **Normalizing does not change the value** of an expression with finite coefficients. -/
theorem weightedSum_normalizedTerms (x : Handle → ℚ) :
    Number.weightedSum e.normalizedTerms (fun h => .fin (x h))
      = Number.weightedSum e.terms (fun h => .fin (x h)) := by
  rw [ExtRat.weightedSum_fin (isFinite_normalizedTerms finite), ExtRat.weightedSum_fin finite,
    ← sumOn_mergedTerms finite, ← ExtRat.sumOn_filter (isFinite_mergedTerms finite)]
  rfl

/-- So it is with the values of columns. -/
theorem weightedSum_normalizedTerms_columnValue (x : List ℚ) :
    Number.weightedSum e.normalizedTerms (columnValue (x.map .fin))
      = Number.weightedSum e.terms (columnValue (x.map .fin)) := by
  rw [Program.columnValue_map_fin, weightedSum_normalizedTerms finite]

end Value

end Milp.Affine
