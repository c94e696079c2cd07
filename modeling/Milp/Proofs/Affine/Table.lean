/-
Merging by positions.

`mergeTerm` looks for the term of a variable from the front of the list. A program that
merges long expressions keeps a table from variables to positions beside the list of merged
terms: it finds the position in the table and reaches for the term at that position, or
appends a term and enters its position. Nothing in the shape of such a program keeps the two
in step.

This file writes the merge that way. What is preserved from term to term is that the table
knows exactly the positions at which the list has terms (`IsInStep`). From it follow that no
access is out of range and that the list is the one that `mergedTerms` comes to.
-/
import Milp.Proofs.Affine.Normalized

set_option autoImplicit false

namespace Milp

variable {α : Type} [Number α]

/-- Merged terms, and the positions of their variables. -/
structure TermTable (α : Type) where
  terms : List (Handle × α)
  /-- The positions entered so far, the last one first. -/
  positions : List (Handle × Nat)

namespace TermTable

omit [Number α] in
def empty : TermTable α := ⟨[], []⟩

/-- Add a coefficient to the term at the position of its variable, which must be in range, or
append a term. -/
def add (table : TermTable α) (t : Handle × α) : Option (TermTable α) :=
  match table.positions.lookup t.1 with
  | some i =>
    if i < table.terms.length then
      some { table with terms := table.terms.modify i fun s => (s.1, s.2 + t.2) }
    else none
  | none => some ⟨table.terms ++ [t], (t.1, table.terms.length) :: table.positions⟩

/-- Merge terms one after the other. -/
def collect (terms : List (Handle × α)) : Option (TermTable α) := terms.foldlM add empty

/-- The merged terms without those that have cancelled. -/
def normalized (e : Affine α) : Option (List (Handle × α)) :=
  (collect e.terms).map fun table => table.terms.filter fun t => !(t.2 == 0)

/-! ## Lists and tables in step -/

omit [Number α] in
/-- The table has the positions at which the list has a term, and no others. -/
def IsInStep (table : TermTable α) : Prop :=
  ∀ h i, table.positions.lookup h = some i ↔ (table.terms.map Prod.fst)[i]? = some h

variable {table : TermTable α}

omit [Number α] in
theorem IsInStep.nodup (step : table.IsInStep) : (table.terms.map Prod.fst).Nodup := by
  rw [List.nodup_iff_injective_getElem]
  intro i j same
  have hi := (step _ i.val).mpr (List.getElem?_eq_getElem i.isLt)
  have hj := (step _ j.val).mpr (List.getElem?_eq_getElem j.isLt)
  dsimp only at same
  rw [same, hj] at hi
  exact Fin.ext (Option.some.inj hi).symm

omit [Number α] in
theorem IsInStep.lookup_eq_none_iff (step : table.IsInStep) {h : Handle} :
    table.positions.lookup h = none ↔ h ∉ table.terms.map Prod.fst := by
  rw [Option.eq_none_iff_forall_ne_some, List.mem_iff_getElem?, not_exists]
  exact forall_congr' fun i => not_congr (step h i)

end TermTable

namespace Affine

variable {h : Handle} {c : α} {merged : List (Handle × α)}

theorem mergeTerm_of_not_mem (new : h ∉ merged.map Prod.fst) :
    mergeTerm h c merged = merged ++ [(h, c)] := by
  induction merged with
  | nil => rfl
  | cons t merged ih =>
    rw [List.map_cons, List.mem_cons, not_or] at new
    rw [mergeTerm, if_neg fun heq => new.1 heq.symm, ih new.2, List.cons_append]

/-- What is merged goes to the one position of its variable. -/
theorem mergeTerm_eq_modify (distinct : (merged.map Prod.fst).Nodup) {i : Nat}
    (position : (merged.map Prod.fst)[i]? = some h) :
    mergeTerm h c merged = merged.modify i fun t => (t.1, t.2 + c) := by
  induction merged generalizing i with
  | nil => simp at position
  | cons t merged ih =>
    rw [List.map_cons, List.nodup_cons] at distinct
    cases i with
    | zero =>
      obtain rfl : t.1 = h := by simpa using position
      rw [mergeTerm, if_pos rfl]
      rfl
    | succ i =>
      rw [List.map_cons, List.getElem?_cons_succ] at position
      have hne : ¬ t.1 = h := fun heq => distinct.1 (heq ▸ List.mem_of_getElem? position)
      rw [mergeTerm, if_neg hne, ih distinct.2 position]
      rfl

end Affine

namespace TermTable

open Milp.Affine (mergeTerm mergedTerms)

variable {table : TermTable α}

/-- **One term** finds its position in range, and list and table stay in step. -/
theorem add_of_isInStep (step : table.IsInStep) (t : Handle × α) :
    ∃ next, table.add t = some next ∧ next.terms = mergeTerm t.1 t.2 table.terms
      ∧ next.IsInStep := by
  cases hlookup : table.positions.lookup t.1 with
  | none =>
    have hnew := step.lookup_eq_none_iff.mp hlookup
    have happend : ∀ h i, ((table.terms ++ [t]).map Prod.fst)[i]? = some h
        ↔ (table.terms.map Prod.fst)[i]? = some h ∨ table.terms.length = i ∧ t.1 = h := by
      grind
    refine ⟨_, by rw [add, hlookup], (Affine.mergeTerm_of_not_mem hnew).symm, fun h i => ?_⟩
    -- the new variable has the position behind all others, and these have theirs
    rw [happend, List.lookup_cons]
    by_cases hself : h = t.1
    · subst hself
      have hnone : (table.terms.map Prod.fst)[i]? ≠ some t.1 :=
        fun heq => hnew (List.mem_of_getElem? heq)
      simp only [hnone, beq_self_eq_true, Option.some_inj, false_or, and_true]
    · simp only [beq_eq_false_iff_ne.mpr hself, step h i, Ne.symm hself, and_false, or_false]
  | some i =>
    have hposition := (step t.1 i).mp hlookup
    have hrange : i < table.terms.length := by
      simpa using (List.getElem?_eq_some_iff.mp hposition).1
    refine ⟨_, by rw [add, hlookup]; exact if_pos hrange,
      (Affine.mergeTerm_eq_modify step.nodup hposition).symm, fun h j => ?_⟩
    -- a term keeps its variable
    have hsame : (table.terms.modify i fun s => (s.1, s.2 + t.2)).map Prod.fst
        = table.terms.map Prod.fst := by
      refine List.ext_getElem? fun j => ?_
      grind
    rw [hsame]
    exact step h j

/-- **Keeping positions comes to the merged terms**, and never reaches out of range. -/
theorem collect_eq (terms : List (Handle × α)) :
    ∃ table, collect terms = some table ∧ table.terms = mergedTerms terms ∧ table.IsInStep := by
  induction terms using List.reverseRecOn with
  | nil => exact ⟨empty, rfl, rfl, fun h i => by simp [empty]⟩
  | append_singleton terms t ih =>
    obtain ⟨table, hcollect, hterms, step⟩ := ih
    obtain ⟨next, hadd, hnext, step⟩ := add_of_isInStep step t
    refine ⟨next, ?_, ?_, step⟩
    · rw [collect] at hcollect
      rw [collect, List.foldlM_append, hcollect]
      simpa using hadd
    · rw [hnext, hterms, Affine.mergedTerms_concat]

theorem normalized_eq (e : Affine α) : normalized e = some e.normalizedTerms := by
  obtain ⟨table, hcollect, hterms, -⟩ := collect_eq e.terms
  rw [normalized, hcollect, Option.map_some, hterms]
  rfl

end TermTable

end Milp
