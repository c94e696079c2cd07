/-
What formulas mean, and what they collect to.

A formula is read in two ways. Its meaning is a number, found by going down the tree with the
arithmetic of rationals. What it collects to is a list of terms and a constant, changed by
one operation after the other, in which a variable may come many times. `Means` ties the
second to the first: the terms come to the part of the meaning that the variables contribute,
whatever their values, and the constant is the rest. Every operation on expressions keeps the
two parts apart (`Means.add` and the others), so by induction on the tree every formula
means what it collects to.

A constant that is set leaves the terms alone. That is why the meaning is given in two parts,
and why the induction is about both of them and not about their sum.
-/
import Milp.Formula
import Milp.Proofs.Affine.Table

set_option autoImplicit false

namespace Milp

open ExtRat (sumOn)

/-! ## Rational formulas and expressions -/

/-- The formula with other numbers in the places of its own. -/
def Formula.map {α β : Type} (f : α → β) : Formula α → Formula β
  | .variable h => .variable h
  | .number value => .number (f value)
  | .zero => .zero
  | .converted a => .converted (a.map f)
  | .add a b => .add (a.map f) (b.map f)
  | .sub a b => .sub (a.map f) (b.map f)
  | .scale a factor => .scale (a.map f) (f factor)
  | .neg a => .neg (a.map f)
  | .sum handles => .sum handles
  | .terms list => .terms (list.map fun (h, c) => (h, f c))
  | .addTerm a h coefficient => .addTerm (a.map f) h (f coefficient)
  | .withConstant a value => .withConstant (a.map f) (f value)

/-- The expression with other numbers in the places of its own. -/
def Affine.map {α β : Type} (f : α → β) (e : Affine α) : Affine β :=
  ⟨e.terms.map fun (h, c) => (h, f c), f e.constant⟩

/-- Coefficients that are rationals are finite. -/
theorem ExtRat.isFinite_of_mem_map_fin {β : Type} (terms : List (β × ℚ)) :
    ∀ t ∈ terms.map fun (b, c) => (b, ExtRat.fin c), Number.isFinite t.2 = true := by
  intro t ht
  obtain ⟨s, -, rfl⟩ := List.mem_map.mp ht
  rfl

/-! ## The arithmetic of meanings

Both parts of a meaning follow the operations one by one, and so does their sum. -/

namespace Formula

variable (a b : Formula ℚ) (x : Handle → ℚ)

@[simp] theorem value_add : (add a b).value x = a.value x + b.value x := by
  simp only [value, variablePart, constantPart]
  ring

@[simp] theorem value_sub : (sub a b).value x = a.value x - b.value x := by
  simp only [value, variablePart, constantPart]
  ring

@[simp] theorem value_scale (factor : ℚ) : (scale a factor).value x = a.value x * factor := by
  simp only [value, variablePart, constantPart]
  ring

@[simp] theorem value_neg : (neg a).value x = -a.value x := by
  simp only [value, variablePart, constantPart]
  ring

end Formula

/-! ## Collecting -/

namespace Affine

/-- Under every assignment the terms come to `linear`, and the constant is `constant`. -/
structure Means (e : Affine ExtRat) (linear : (Handle → ℚ) → ℚ) (constant : ℚ) : Prop where
  finite : ∀ t ∈ e.terms, Number.isFinite t.2 = true
  terms : ∀ x, sumOn e.terms x = linear x
  constant : e.constant = .fin constant

namespace Means

variable {e f : Affine ExtRat} {l m : (Handle → ℚ) → ℚ} {c d : ℚ}

theorem evaluate (he : e.Means l c) (x : Handle → ℚ) :
    e.evaluate (fun h => .fin (x h)) = .fin (l x + c) := by
  rw [Affine.evaluate, ExtRat.weightedSum_fin he.finite, he.terms, he.constant, ExtRat.fin_add]

theorem ofConstant (c : ℚ) : (Affine.ofConstant (.fin c)).Means (fun _ => 0) c :=
  ⟨fun _ ht => absurd ht List.not_mem_nil, fun _ => rfl, rfl⟩

theorem ofTerms (terms : List (Handle × ℚ)) :
    (Affine.ofTerms (terms.map fun (h, c) => (h, .fin c))).Means
      (fun x => (terms.map fun (h, c) => c * x h).sum) 0 := by
  refine ⟨ExtRat.isFinite_of_mem_map_fin terms, fun x => ?_, ExtRat.zero_eq⟩
  rw [Affine.ofTerms, sumOn, List.map_map]
  rfl

theorem ofTerm (h : Handle) (c : ℚ) : (Affine.ofTerm h (.fin c)).Means (fun x => c * x h) 0 := by
  simpa [Affine.ofTerm, Affine.ofTerms] using ofTerms [(h, c)]

theorem ofHandles (handles : List Handle) :
    (Affine.ofHandles handles).Means (fun x => (handles.map x).sum) 0 := by
  simpa [Affine.ofHandles, Function.comp_def] using ofTerms (handles.map fun h => (h, 1))

theorem add (he : e.Means l c) (hf : f.Means m d) :
    (e.add f).Means (fun x => l x + m x) (c + d) := by
  refine ⟨fun t ht => ?_, fun x => ?_, ?_⟩
  · rcases List.mem_append.mp ht with h | h
    · exact he.finite t h
    · exact hf.finite t h
  · rw [Affine.add, ExtRat.sumOn_append, he.terms, hf.terms]
  · rw [Affine.add, he.constant, hf.constant, ExtRat.fin_add]

theorem addTerm (he : e.Means l c) (h : Handle) (d : ℚ) :
    (e.addTerm h (.fin d)).Means (fun x => l x + d * x h) c := by
  -- the sum with one term, but nothing is added to the constant
  have hsum := he.add (ofTerm h d)
  exact ⟨hsum.finite, hsum.terms, he.constant⟩

theorem withConstant (he : e.Means l c) (d : ℚ) : (e.withConstant (.fin d)).Means l d :=
  ⟨he.finite, he.terms, rfl⟩

theorem scale (he : e.Means l c) (factor : ℚ) :
    (e.scale (.fin factor)).Means (fun x => l x * factor) (c * factor) := by
  refine ⟨fun t ht => ?_, fun x => ?_, ?_⟩
  · obtain ⟨s, hs, rfl⟩ := List.mem_map.mp ht
    show Number.isFinite (s.2 * ExtRat.fin factor) = true
    rw [ExtRat.eq_fin_of_isFinite (he.finite s hs)]
    rfl
  · rw [← he.terms, ← ExtRat.sumOn_scale he.finite]
    rfl
  · rw [Affine.scale, he.constant, ExtRat.fin_mul]

theorem neg (he : e.Means l c) : e.neg.Means (fun x => -l x) (-c) := by
  simpa [Affine.neg] using he.scale (-1)

theorem sub (he : e.Means l c) (hf : f.Means m d) :
    (e.sub f).Means (fun x => l x - m x) (c - d) := by
  simpa only [Affine.sub, sub_eq_add_neg] using he.add hf.neg

end Means

end Affine

namespace Formula

/-- A variable that is added contributes a term, anything else what it collects to; both have
the same meaning. -/
theorem means_add {a b : Formula ExtRat} {l m : (Handle → ℚ) → ℚ} {c d : ℚ}
    (ha : a.toAffine.Means l c) (hb : b.toAffine.Means m d) :
    (add a b).toAffine.Means (fun x => l x + m x) (c + d) := by
  have hsum := ha.add hb
  cases b with
  | «variable» h =>
    -- the constant of a variable is zero, so leaving it out changes nothing
    have hconstant : (0 : ExtRat) = .fin d := hb.constant
    refine ⟨hsum.finite, hsum.terms, ?_⟩
    show a.toAffine.constant = .fin (c + d)
    rw [ExtRat.zero_eq, ExtRat.fin.injEq] at hconstant
    rw [ha.constant, ← hconstant, add_zero]
  | _ => exact hsum

/-- A multiple of a variable is one term, of anything else what that collects to, scaled. -/
theorem means_scale {a : Formula ExtRat} {l : (Handle → ℚ) → ℚ} {c : ℚ}
    (ha : a.toAffine.Means l c) (factor : ℚ) :
    (scale a (.fin factor)).toAffine.Means (fun x => l x * factor) (c * factor) := by
  have hscaled := ha.scale factor
  cases a with
  | «variable» h =>
    have hterm : (Affine.ofHandle h).scale (ExtRat.fin factor) = .ofTerm h (.fin factor) := by
      simp [Affine.scale, Affine.ofHandle, Affine.ofTerm]
    rw [toAffine, ← hterm]
    exact hscaled
  | _ => exact hscaled

/-- **A formula means what it collects to**, in each of its two parts. -/
theorem means_toAffine (a : Formula ℚ) :
    (a.map .fin).toAffine.Means (fun x => a.variablePart x) a.constantPart := by
  induction a with
  | «variable» h =>
    simpa [map, toAffine, Affine.ofHandle, variablePart, constantPart] using
      Affine.Means.ofTerm h 1
  | number value => exact .ofConstant value
  | zero =>
    simpa [map, toAffine, Affine.zero, variablePart, constantPart] using
      Affine.Means.ofConstant 0
  | converted a ih => exact ih
  | add a b iha ihb => exact means_add iha ihb
  | sub a b iha ihb => exact iha.sub ihb
  | scale a factor ih => exact means_scale ih factor
  | neg a ih => exact ih.neg
  | sum handles => exact .ofHandles handles
  | terms list => exact .ofTerms list
  | addTerm a h coefficient ih => exact ih.addTerm h coefficient
  | withConstant a value ih => exact ih.withConstant value

end Formula

/-! ## Values and normal forms -/

/-- Terms are the normal form of an expression. -/
structure Affine.IsNormalForm (e : Affine ExtRat) (terms : List (Handle × ExtRat)) : Prop where
  /-- A variable is listed at most once, -/
  distinct : (terms.map Prod.fst).Nodup
  /-- in the order in which the variables first appear in the expression, -/
  ordered : (terms.map Prod.fst).Sublist (e.terms.map Prod.fst).eraseDups
  /-- and not with the coefficient zero. -/
  nonzero : ∀ t ∈ terms, (t.2 == 0) = false
  /-- The terms come to what those of the expression come to, whatever the values. -/
  sum_eq : ∀ x : Handle → ℚ, Number.weightedSum terms (fun h => .fin (x h))
    = Number.weightedSum e.terms (fun h => .fin (x h))

theorem Affine.isNormalForm_normalizedTerms {e : Affine ExtRat}
    (finite : ∀ t ∈ e.terms, Number.isFinite t.2 = true) : e.IsNormalForm e.normalizedTerms where
  distinct := nodup_handles_normalizedTerms e
  ordered := sublist_handles_normalizedTerms e
  nonzero _ ht := ne_zero_of_mem_normalizedTerms e ht
  sum_eq := weightedSum_normalizedTerms finite

/-- **Building and normalizing keep the meaning.** What a formula collects to has the value
that the formula stands for, under every assignment. What an expression is normalized to is
its normal form, whether positions are looked for or kept in a table; and they are all in
range. -/
theorem Formula.evaluate_and_normalize :
    (∀ (a : Formula ℚ) (x : Handle → ℚ),
      (a.map ExtRat.fin).toAffine.evaluate (fun h => .fin (x h)) = .fin (a.value x))
    ∧ ∀ e : Affine ℚ, (e.map ExtRat.fin).IsNormalForm (e.map ExtRat.fin).normalizedTerms
        ∧ TermTable.normalized (e.map ExtRat.fin) = some (e.map ExtRat.fin).normalizedTerms :=
  ⟨fun a x => (means_toAffine a).evaluate x,
    fun e => ⟨Affine.isNormalForm_normalizedTerms (ExtRat.isFinite_of_mem_map_fin e.terms),
      TermTable.normalized_eq _⟩⟩

/-- `x + y - x` is `y`. -/
example : (Formula.sub (.add (.variable ⟨⟨1⟩, 0⟩) (.variable ⟨⟨1⟩, 1⟩)) (.variable ⟨⟨1⟩, 0⟩) :
    Formula ExtRat).toAffine.normalizedTerms = [(⟨⟨1⟩, 1⟩, .fin 1)] := by
  decide +kernel

end Milp
