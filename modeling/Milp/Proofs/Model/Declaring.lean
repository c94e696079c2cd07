/-
Which declarations a model takes.

A declaration is refused for its name or for its bounds. A name is known exactly if a variable
has it. Bounds should be numbers, and leave a finite number for the variable, which for a
binary variable lies between zero and one (`VariableKind.Fits`).

What is tested, though, are the effective bounds. Those of a binary variable are cut down to
the unit interval first, and the greater of two numbers passes over one that is no number. So
an end that is no number is taken for the end of the unit interval, and the declaration passes
as if nothing had been given there (`VariableKind.Takes`). For the other kinds nothing is cut,
and the test is the one that was meant.

`declare_decides` says so for every model that calls may lead to, whichever of them failed.
-/
import Milp.Proofs.Interval.Readings
import Milp.Proofs.Model.Accepted
import Milp.Proofs.Number.Scaling

set_option autoImplicit false

namespace Milp

open Number (Lawful Unital)

variable {α : Type} [Number α]

/-! ## Bounds with gaps -/

namespace Interval

/-- An end is no number. -/
def HasGap (b : Interval α) : Prop := Number.isNaN b.lower = true ∨ Number.isNaN b.upper = true

/-- The interval with the ends of the unit interval in the place of those that are no
numbers. -/
def filled (b : Interval α) : Interval α where
  lower := if Number.isNaN b.lower then 0 else b.lower
  upper := if Number.isNaN b.upper then 1 else b.upper

theorem not_hasGap_iff (b : Interval α) :
    ¬ b.HasGap ↔ Number.isNaN b.lower = false ∧ Number.isNaN b.upper = false := by
  rw [HasGap, not_or, Bool.not_eq_true, Bool.not_eq_true]

theorem filled_eq_self {b : Interval α} (h : ¬ b.HasGap) : b.filled = b := by
  obtain ⟨hlower, hupper⟩ := b.not_hasGap_iff.mp h
  rw [filled, hlower, hupper]
  rfl

section Unital

variable [Unital α]

theorem isProper_of_not_hasGap {b : Interval α} (h : ¬ b.HasGap) : b.IsProper := by
  rwa [not_hasGap_iff, Number.isNaN_eq_false_iff, Number.isNaN_eq_false_iff] at h

theorem not_hasGap_unit : ¬ (unit : Interval α).HasGap :=
  (not_hasGap_iff _).mpr ⟨Number.isNaN_zero, Number.isNaN_one⟩

theorem not_hasGap_filled (b : Interval α) : ¬ b.filled.HasGap := by
  rw [not_hasGap_iff, filled]
  constructor
  · cases hlower : Number.isNaN b.lower with
    | true => exact Number.isNaN_zero
    | false => exact hlower
  · cases hupper : Number.isNaN b.upper with
    | true => exact Number.isNaN_one
    | false => exact hupper

/-- The cut passes over a gap, so it makes no difference what is put there. -/
theorem intersect_unit_filled (b : Interval α) : b.filled.intersect unit = b.intersect unit := by
  have hmax : Number.max b.filled.lower 0 = Number.max b.lower 0 := by
    rw [filled]
    cases hlower : Number.isNaN b.lower with
    | false => rfl
    | true =>
      rw [Number.max_eq_right_of_isNaN hlower Number.isNaN_zero]
      exact ite_self (0 : α)
  have hmin : Number.min b.filled.upper 1 = Number.min b.upper 1 := by
    rw [filled]
    cases hupper : Number.isNaN b.upper with
    | false => rfl
    | true =>
      rw [Number.min_eq_right_of_isNaN hupper Number.isNaN_one]
      exact ite_self (1 : α)
  rw [intersect, intersect, unit, hmax, hmin]

end Unital

end Interval

/-! ## Which bounds are taken -/

namespace VariableKind

/-- Bounds that a variable of a kind may have. They are numbers, and there is a finite number
between them, which for a binary variable also lies between zero and one. -/
structure Fits (kind : VariableKind) (b : Interval α) : Prop where
  numbers : ¬ b.HasGap
  finite : ∃ v, Number.isFinite v = true ∧ b.Has v ∧ (kind = .binary → Interval.unit.Has v)

/-- Bounds that are let pass for a variable of a kind: those that it may have, and for a binary
variable those with gaps that it may have once they are filled. -/
def Takes (kind : VariableKind) (b : Interval α) : Prop :=
  kind.Fits b ∨ kind = .binary ∧ b.HasGap ∧ kind.Fits b.filled

theorem takes_binary_iff (b : Interval α) :
    VariableKind.binary.Takes b ↔ VariableKind.binary.Fits b.filled := by
  by_cases hgap : b.HasGap
  · constructor
    · rintro (fits | ⟨-, -, fits⟩)
      · exact absurd hgap fits.numbers
      · exact fits
    · intro fits
      exact .inr ⟨rfl, hgap, fits⟩
  · rw [Takes, Interval.filled_eq_self hgap]
    constructor
    · rintro (fits | ⟨-, -, fits⟩) <;> exact fits
    · exact .inl

section Unital

variable [Unital α]

/-- For the other kinds than binary a gap is never filled. -/
theorem takes_iff_isValid {kind : VariableKind} (other : kind ≠ .binary) (b : Interval α) :
    kind.Takes b ↔ b.isValid = true := by
  rw [Interval.isValid_iff]
  constructor
  · rintro (⟨-, v, finite, has, -⟩ | ⟨hbinary, -⟩)
    · exact ⟨v, finite, has⟩
    · exact absurd hbinary other
  · rintro ⟨v, finite, has⟩
    refine .inl ⟨?_, v, finite, has, fun hbinary => absurd hbinary other⟩
    rw [Interval.not_hasGap_iff, Number.isNaN_eq_false_iff, Number.isNaN_eq_false_iff]
    exact Interval.isProper_of_has has

theorem fits_binary_iff_isValid {b : Interval α} (h : ¬ b.HasGap) :
    VariableKind.binary.Fits b ↔ (b.intersect .unit).isValid = true := by
  have hcommon := Interval.has_intersect_iff (Interval.isProper_of_not_hasGap h)
    (Interval.isProper_of_not_hasGap Interval.not_hasGap_unit)
  -- a common number of both intervals is one of the intersection
  rw [Interval.isValid_iff]
  constructor
  · rintro ⟨-, v, finite, has, hunit⟩
    exact ⟨v, finite, (hcommon v).mpr ⟨has, hunit rfl⟩⟩
  · rintro ⟨v, finite, hboth⟩
    obtain ⟨has, hunit⟩ := (hcommon v).mp hboth
    exact ⟨h, v, finite, has, fun _ => hunit⟩

/-- **What the test of the effective bounds lets pass.** -/
theorem isValid_effectiveBounds_iff (kind : VariableKind) (b : Interval α) :
    (kind.effectiveBounds b).isValid = true ↔ kind.Takes b := by
  cases kind with
  | continuous => exact (takes_iff_isValid (by decide) b).symm
  | integer => exact (takes_iff_isValid (by decide) b).symm
  | binary =>
    rw [takes_binary_iff, fits_binary_iff_isValid b.not_hasGap_filled,
      Interval.intersect_unit_filled]
    rfl

end Unital

end VariableKind

/-! ## Which declarations are taken -/

namespace Model

/-- **What becomes of a declaration.** It adds a variable with the effective bounds exactly if
its name is new and its bounds are taken. A name that is known is refused as such, and all
other refusals are of the bounds. -/
structure Decides (m : Model α) (name : String) (kind : VariableKind) (bounds : Interval α) :
    Prop where
  taken : m.declare name kind bounds = .ok (⟨m.id, m.vars.length⟩,
        m.withVariable ⟨name, kind, kind.effectiveBounds bounds⟩)
      ↔ name ∉ m.vars.map (·.name) ∧ kind.Takes bounds
  known : m.declare name kind bounds = .error (.duplicateVariable name)
      ↔ name ∈ m.vars.map (·.name)
  refused : m.declare name kind bounds = .error (.invalidBounds name
        (kind.effectiveBounds bounds).lower (kind.effectiveBounds bounds).upper)
      ↔ name ∉ m.vars.map (·.name) ∧ ¬ kind.Takes bounds

section Unital

variable [Unital α]

theorem IsWellFormed.decides {m : Model α} (h : m.IsWellFormed) (name : String)
    (kind : VariableKind) (bounds : Interval α) : m.Decides name kind bounds := by
  have hknown := h.isSome_handleOf? name
  have hvalid := kind.isValid_effectiveBounds_iff bounds
  -- the name is looked at first, so bounds are an issue only if it is new
  by_cases hmem : name ∈ m.vars.map (·.name)
  · have hdeclare : m.declare name kind bounds = .error (.duplicateVariable name) := by
      rw [declare, if_pos (hknown.mpr hmem)]
    constructor <;> simp [hdeclare, hmem]
  · by_cases htakes : kind.Takes bounds
    · have hdeclare : m.declare name kind bounds = .ok (⟨m.id, m.vars.length⟩,
          m.withVariable ⟨name, kind, kind.effectiveBounds bounds⟩) := by
        rw [declare, if_neg (mt hknown.mp hmem)]
        exact if_pos (hvalid.mpr htakes)
      constructor <;> simp [hdeclare, hmem, htakes]
    · have hdeclare : m.declare name kind bounds = .error (.invalidBounds name
          (kind.effectiveBounds bounds).lower (kind.effectiveBounds bounds).upper) := by
        rw [declare, if_neg (mt hknown.mp hmem)]
        exact if_neg (mt hvalid.mp htakes)
      constructor <;> simp [hdeclare, hmem, htakes]

/-- **Every declaration is decided** by whether its name is new and its bounds are taken, in
every model that calls have led to. -/
theorem declare_decides (id : ModelId) (modelName : String) (steps : List (BuildStep α))
    (name : String) (kind : VariableKind) (bounds : Interval α) :
    ((empty id modelName).attemptAll steps).Decides name kind bounds :=
  ((isWellFormed_empty id modelName).attemptAll steps).decides name kind bounds

end Unital

/-- With a lower end that is no number a binary variable is taken and an integer one is not.
The name must be new either way. -/
theorem declare_decides_unruly :
    unruly.declare "z" .binary ⟨.nan, .fin (1 / 2)⟩
        = .ok (⟨⟨1⟩, 2⟩, unruly.withVariable ⟨"z", .binary, ⟨.fin 0, .fin (1 / 2)⟩⟩)
      ∧ unruly.declare "x" .binary ⟨.nan, .fin (1 / 2)⟩ = .error (.duplicateVariable "x")
      ∧ unruly.declare "z" .integer ⟨.nan, .fin (1 / 2)⟩
        = .error (.invalidBounds "z" .nan (.fin (1 / 2))) := by
  have hdecides := declare_decides ⟨1⟩ "" unrulySteps
  simp only [attemptAll_unrulySteps] at hdecides
  have hfits : VariableKind.binary.Fits (Interval.filled ⟨ExtRat.nan, .fin (1 / 2)⟩) :=
    ⟨Interval.not_hasGap_filled _, .fin 0, rfl, ⟨by decide +kernel, by decide +kernel⟩,
      fun _ => ⟨by decide +kernel, by decide +kernel⟩⟩
  have heffective : VariableKind.binary.effectiveBounds ⟨ExtRat.nan, .fin (1 / 2)⟩
      = ⟨.fin 0, .fin (1 / 2)⟩ := by
    with_unfolding_all rfl
  refine ⟨?_, (hdecides "x" .binary _).known.mpr (by decide),
    (hdecides "z" .integer _).refused.mpr ⟨by decide, ?_⟩⟩
  · rw [← heffective]
    exact (hdecides "z" .binary _).taken.mpr ⟨by decide, .inr ⟨rfl, .inl rfl, hfits⟩⟩
  · rintro (fits | ⟨hbinary, -⟩)
    · exact fits.numbers (.inl rfl)
    · cases hbinary

/-- It is not so that only bounds that fit are taken. -/
theorem binary_fills_gaps :
    ¬ ∀ (steps : List (BuildStep ExtRat)) (name : String) (kind : VariableKind)
      (bounds : Interval ExtRat),
      (∃ taken, ((empty ⟨1⟩ "").attemptAll steps).declare name kind bounds = .ok taken)
        ↔ name ∉ ((empty ⟨1⟩ "").attemptAll steps).vars.map (·.name) ∧ kind.Fits bounds := by
  intro h
  have hdeclare : ∃ taken, (empty ⟨1⟩ "").declare "b" .binary ⟨ExtRat.nan, .nan⟩ = .ok taken :=
    ⟨_, by with_unfolding_all rfl⟩
  obtain ⟨-, fits⟩ := (h [] "b" .binary ⟨.nan, .nan⟩).mp hdeclare
  exact fits.numbers (.inl rfl)

end Model

end Milp
