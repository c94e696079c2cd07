/-
The coefficient that a variable ends up with.

An expression may give a variable several coefficients. Merging adds them one after the
other, in the order in which they stand, starting from the first. So what is stored of a
variable is a sum from the left, and over a carrier that rounds the order and every sum on
the way matter: such a sum may overflow and never come back.
-/
import Milp.Proofs.Affine.Normalized
import Milp.Proofs.Number.Special

set_option autoImplicit false

namespace Milp.Affine

variable {α : Type} [Number α]

omit [Number α] in
/-- The coefficients that terms give to a variable, in their order. -/
def coefficientsOf (terms : List (Handle × α)) (h : Handle) : List α :=
  (terms.filter fun t => t.1 == h).map Prod.snd

/-- Numbers added from the left, the first of them to begin with. -/
def IsSumOf (xs : List α) (total : α) : Prop :=
  ∃ first rest, xs = first :: rest ∧ total = rest.foldl (· + ·) first

/-- Some of the coefficients that a variable is given, from the first on, add up to
something that is not finite. -/
def Overflows (e : Affine α) (h : Handle) : Prop :=
  ∃ part total, part <+: coefficientsOf e.terms h ∧ IsSumOf part total
    ∧ Number.isFinite total = false

/-! ## Coefficients -/

omit [Number α] in
theorem coefficientsOf_concat_self (terms : List (Handle × α)) (t : Handle × α) :
    coefficientsOf (terms ++ [t]) t.1 = coefficientsOf terms t.1 ++ [t.2] := by
  simp [coefficientsOf, List.filter_append]

omit [Number α] in
theorem coefficientsOf_concat_of_ne {terms : List (Handle × α)} {t : Handle × α} {h : Handle}
    (other : ¬ t.1 = h) : coefficientsOf (terms ++ [t]) h = coefficientsOf terms h := by
  simp [coefficientsOf, List.filter_append, other]

omit [Number α] in
theorem coefficientsOf_eq_nil {terms : List (Handle × α)} {h : Handle}
    (new : h ∉ terms.map Prod.fst) : coefficientsOf terms h = [] := by
  rw [coefficientsOf, List.map_eq_nil_iff, List.filter_eq_nil_iff]
  intro t ht heq
  have hsame : t.1 = h := by simpa using heq
  exact new (hsame ▸ List.mem_map_of_mem ht)

omit [Number α] in
theorem mem_of_mem_coefficientsOf {terms : List (Handle × α)} {h : Handle} {c : α}
    (hc : c ∈ coefficientsOf terms h) : (h, c) ∈ terms := by
  obtain ⟨t, ht, rfl⟩ := List.mem_map.mp hc
  obtain ⟨hmem, heq⟩ := List.mem_filter.mp ht
  have hsame : t.1 = h := by simpa using heq
  rwa [← hsame]

/-! ## Merging -/

/-- A merged term is an old one of another variable, an old one with the coefficient added,
or new. -/
theorem mem_mergeTerm {h : Handle} {c : α} {merged : List (Handle × α)}
    (distinct : (merged.map Prod.fst).Nodup) {t : Handle × α} (ht : t ∈ mergeTerm h c merged) :
    t ∈ merged ∧ ¬ t.1 = h ∨ (∃ d, (h, d) ∈ merged ∧ t = (h, d + c))
      ∨ h ∉ merged.map Prod.fst ∧ t = (h, c) := by
  induction merged with
  | nil =>
    rw [mergeTerm, List.mem_singleton] at ht
    exact .inr (.inr ⟨by simp, ht⟩)
  | cons s rest ih =>
    rw [List.map_cons, List.nodup_cons] at distinct
    obtain ⟨hnew, hrest⟩ := distinct
    rw [mergeTerm] at ht
    by_cases hs : s.1 = h
    · -- the term is merged here, and its variable does not come again
      rw [if_pos hs] at ht
      rcases List.mem_cons.mp ht with rfl | hmem
      · refine .inr (.inl ⟨s.2, ?_, by rw [hs]⟩)
        rw [← hs]
        exact List.mem_cons_self
      · refine .inl ⟨List.mem_cons_of_mem s hmem, ?_⟩
        intro heq
        exact hnew (hs.trans heq.symm ▸ List.mem_map_of_mem hmem)
    · rw [if_neg hs] at ht
      rcases List.mem_cons.mp ht with rfl | hmem
      · exact .inl ⟨List.mem_cons_self, hs⟩
      · rcases ih hrest hmem with ⟨hold, hother⟩ | ⟨d, hold, heq⟩ | ⟨hfresh, heq⟩
        · exact .inl ⟨List.mem_cons_of_mem s hold, hother⟩
        · exact .inr (.inl ⟨d, List.mem_cons_of_mem s hold, heq⟩)
        · refine .inr (.inr ⟨?_, heq⟩)
          rw [List.map_cons, List.mem_cons]
          rintro (hsame | hmem)
          · exact hs hsame.symm
          · exact hfresh hmem

/-- **A merged coefficient is the sum of the coefficients of its variable.** -/
theorem isSumOf_of_mem_mergedTerms (terms : List (Handle × α)) :
    ∀ t ∈ mergedTerms terms, IsSumOf (coefficientsOf terms t.1) t.2 := by
  induction terms using List.reverseRecOn with
  | nil => exact fun t ht => by cases ht
  | append_singleton terms s ih =>
    intro t ht
    rw [mergedTerms_concat] at ht
    rcases mem_mergeTerm (nodup_handles_mergedTerms terms) ht with
      ⟨hold, hother⟩ | ⟨d, hold, rfl⟩ | ⟨hfresh, rfl⟩
    · rw [coefficientsOf_concat_of_ne fun h => hother h.symm]
      exact ih t hold
    · obtain ⟨first, rest, hcoefficients, hsum⟩ := ih _ hold
      dsimp only at hcoefficients hsum ⊢
      rw [coefficientsOf_concat_self, hcoefficients, hsum]
      exact ⟨first, rest ++ [s.2], rfl, by rw [List.foldl_append]; rfl⟩
    · have hnone : s.1 ∉ terms.map Prod.fst := by
        rw [handles_mergedTerms, List.mem_eraseDups] at hfresh
        exact hfresh
      dsimp only
      rw [coefficientsOf_concat_self, coefficientsOf_eq_nil hnone]
      exact ⟨s.2, [], rfl, rfl⟩

theorem isSumOf_of_mem_normalizedTerms {e : Affine α} {t : Handle × α}
    (ht : t ∈ e.normalizedTerms) : IsSumOf (coefficientsOf e.terms t.1) t.2 :=
  isSumOf_of_mem_mergedTerms e.terms t (List.mem_of_mem_filter ht)

theorem IsSumOf.unique {xs : List α} {total other : α} (h : IsSumOf xs total)
    (h' : IsSumOf xs other) : total = other := by
  obtain ⟨first, rest, rfl, rfl⟩ := h
  obtain ⟨_, _, heq, rfl⟩ := h'
  obtain ⟨rfl, rfl⟩ := List.cons.inj heq
  rfl

theorem mem_mergedTerms_iff {terms : List (Handle × α)} {h : Handle} {total : α} :
    (h, total) ∈ mergedTerms terms ↔ IsSumOf (coefficientsOf terms h) total := by
  constructor
  · exact isSumOf_of_mem_mergedTerms terms (h, total)
  · intro hsum
    have ⟨first, rest, hcoefficients, _⟩ := hsum
    have hgiven : (h, first) ∈ terms :=
      mem_of_mem_coefficientsOf (by rw [hcoefficients]; exact List.mem_cons_self)
    have hmem : h ∈ (mergedTerms terms).map Prod.fst := by
      rw [handles_mergedTerms, List.mem_eraseDups]
      exact List.mem_map_of_mem hgiven
    obtain ⟨t, ht, rfl⟩ := List.mem_map.mp hmem
    rwa [IsSumOf.unique hsum (isSumOf_of_mem_mergedTerms terms t ht)]

/-- **A variable has a coefficient** exactly if it is given one and they do not add up to
zero. -/
theorem mem_normalizedTerms_iff {e : Affine α} {h : Handle} {total : α} :
    (h, total) ∈ e.normalizedTerms
      ↔ IsSumOf (coefficientsOf e.terms h) total ∧ (total == 0) = false := by
  rw [normalizedTerms, List.mem_filter, mem_mergedTerms_iff, Bool.not_eq_true']

/-! ## Finite coefficients -/

section Special

variable [Number.Special α] {e : Affine α}

/-- **What is stored of finite coefficients** is a number, and it is finite unless a sum on
the way overflows. -/
theorem isFinite_of_mem_normalizedTerms (finite : ∀ t ∈ e.terms, Number.isFinite t.2 = true)
    {t : Handle × α} (ht : t ∈ e.normalizedTerms) :
    Number.isNaN t.2 = false ∧ (Number.isFinite t.2 = true ↔ ¬ e.Overflows t.1) := by
  obtain ⟨first, rest, hcoefficients, hsum⟩ := isSumOf_of_mem_normalizedTerms ht
  have hgiven : ∀ c ∈ first :: rest, Number.isFinite c = true := by
    intro c hc
    rw [← hcoefficients] at hc
    exact finite _ (mem_of_mem_coefficientsOf hc)
  obtain ⟨hfirst, hrest⟩ := List.forall_mem_cons.mp hgiven
  have hnumber := Number.isNaN_of_isFinite hfirst
  rw [hsum]
  refine ⟨Number.isNaN_foldl_add hnumber hrest, ?_⟩
  rw [Number.isFinite_foldl_add_iff hnumber hrest]
  constructor
  · rintro hparts ⟨part, total, hprefix, ⟨head, tail, rfl, rfl⟩, hover⟩
    rw [hcoefficients, List.cons_prefix_cons] at hprefix
    obtain ⟨rfl, htail⟩ := hprefix
    rw [hparts tail htail] at hover
    cases hover
  · intro hnot part hpart
    by_contra hover
    refine hnot ⟨first :: part, _, ?_, ⟨first, part, rfl, rfl⟩, by simpa using hover⟩
    rw [hcoefficients, List.cons_prefix_cons]
    exact ⟨rfl, hpart⟩

end Special

end Milp.Affine
