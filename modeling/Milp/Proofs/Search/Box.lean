/-
Boxes, their halves and the cuts that narrow them.

A point lies in a box if every coordinate lies in its interval. A split cuts a column at
a value that is not whole, from above and from below, and the argument for it has two
parts.

* A cut box holds exactly the points of the box that the cut keeps
  (`Cut.has_tighten_iff`).
* A whole number is on exactly one side of the value (`Number.whole_beside`). This is
  where the value must not be whole: at a whole value both halves would hold it.

`cutBox` is the second description of a subproblem: the box of the root, narrowed by
one cut after the other as the search tree lists them.
-/
import Milp.Search
import Milp.Proofs.Number.Lawful

set_option autoImplicit false

namespace Milp

open Number (exact Lawful)

/-! ## Points and intervals -/

variable {α : Type} [Number α]

/-- A number lies in an interval. -/
def Interval.Has (b : Interval α) (v : α) : Prop :=
  Number.le b.lower v = true ∧ Number.le v b.upper = true

/-- Both ends of an interval are numbers. -/
def Interval.IsProper (b : Interval α) : Prop := exact b.lower ≠ .nan ∧ exact b.upper ≠ .nan

/-- A point, listed by column, lies in a box. -/
def Box.Has (box : Box α) (x : List α) : Prop := List.Forall₂ Interval.Has box x

/-- All ends of a box are numbers. -/
def Box.IsProper (box : Box α) : Prop := ∀ b ∈ box, b.IsProper

/-- A point is whole at the columns where it should be. -/
def Program.WholeAt (p : Program α) (x : List α) : Prop :=
  ∀ i ∈ p.integerColumns, Number.isWhole (Number.valueAt x i) = true

omit [Number α] in
theorem Program.mem_integerColumns {p : Program α} {i : Nat} :
    i ∈ p.integerColumns ↔ i < p.columns.length ∧ p.isInteger i = true := by
  rw [Program.integerColumns, List.mem_filter, List.mem_range]

/-! ## Cuts -/

/-- An interval narrowed by a cut. -/
def Cut.narrow (c : Cut α) (b : Interval α) : Interval α :=
  if c.upper then ⟨b.lower, Number.min c.bound b.upper⟩
  else ⟨Number.max c.bound b.lower, b.upper⟩

/-- A box narrowed by a cut. -/
def Cut.tighten (box : Box α) (c : Cut α) : Box α :=
  box.set c.column (c.narrow (Search.boundsAt box c.column))

/-- The box of the root, narrowed by cuts from the first to the last. -/
def Search.cutBox (p : Program α) (cuts : List (Cut α)) : Box α :=
  cuts.foldl Cut.tighten (Search.rootBox p)

/-- A point is on the side of a cut that is kept. -/
def Cut.Allows (c : Cut α) (x : List α) : Prop :=
  if c.upper then Number.le (Number.valueAt x c.column) c.bound = true
  else Number.le c.bound (Number.valueAt x c.column) = true

@[simp] theorem Cut.length_tighten (box : Box α) (c : Cut α) :
    (Cut.tighten box c).length = box.length :=
  List.length_set

theorem Search.cutBox_append (p : Program α) (cuts : List (Cut α)) (c : Cut α) :
    Search.cutBox p (cuts ++ [c]) = Cut.tighten (Search.cutBox p cuts) c := by
  rw [Search.cutBox, List.foldl_append]
  rfl

@[simp] theorem Search.length_rootBox (p : Program α) :
    (Search.rootBox p).length = p.columns.length :=
  List.length_map _

theorem Search.length_cutBox (p : Program α) (cuts : List (Cut α)) :
    (Search.cutBox p cuts).length = p.columns.length := by
  induction cuts using List.reverseRecOn with
  | nil => exact Search.length_rootBox p
  | append_singleton cuts c ih => rw [Search.cutBox_append, Cut.length_tighten, ih]

theorem Search.boundsAt_of_lt {box : Box α} {i : Nat} (hi : i < box.length) :
    Search.boundsAt box i = box[i] := by
  rw [Search.boundsAt, List.getD_eq_getElem _ _ hi]

theorem Box.has_at {box : Box α} {x : List α} (h : Box.Has box x) {i : Nat}
    (hi : i < box.length) : (Search.boundsAt box i).Has (Number.valueAt x i) := by
  have hlen : i < x.length := h.length_eq ▸ hi
  rw [Search.boundsAt_of_lt hi, Number.valueAt, List.getD_eq_getElem _ _ hlen]
  exact h.get hi hlen

variable [Lawful α]

theorem Interval.isProper_of_has {b : Interval α} {v : α} (h : b.Has v) : b.IsProper :=
  ⟨(Number.exact_ne_nan_of_le h.1).1, (Number.exact_ne_nan_of_le h.2).2⟩

theorem Box.isProper_of_has {box : Box α} {x : List α} (h : Box.Has box x) :
    Box.IsProper box := by
  induction h with
  | nil => intro b hb; cases hb
  | cons hbv _ ih =>
    intro b hb
    rcases List.mem_cons.mp hb with rfl | hb
    · exact Interval.isProper_of_has hbv
    · exact ih b hb

/-! ## Values that are not whole -/

theorem Number.exact_of_gap_pos {value : α}
    (h : Number.gt (Number.integralityGap value) 0 = true) :
    ∃ q : ℚ, exact value = .fin q ∧ 0 < |q - ExtRat.nearestInt q| := by
  rw [Number.gt, Lawful.lt_eq, Lawful.exact_zero, Lawful.exact_gap] at h
  cases hv : exact value with
  | fin q =>
    rw [hv, ExtRat.integralityGap_fin] at h
    exact ⟨q, rfl, by simpa [ExtRat.lt] using h⟩
  | nan => rw [hv] at h; exact absurd h (by decide)
  | posInf => rw [hv] at h; exact absurd h (by decide)
  | negInf => rw [hv] at h; exact absurd h (by decide)

/-- Both whole neighbours of such a number are numbers. -/
theorem Number.neighbours_of_gap_pos {value : α}
    (h : Number.gt (Number.integralityGap value) 0 = true) :
    exact (Number.floor value) ≠ .nan ∧ exact (Number.ceil value) ≠ .nan := by
  obtain ⟨q, hq, -⟩ := Number.exact_of_gap_pos h
  rw [Lawful.exact_floor, Lawful.exact_ceil, hq]
  exact ⟨by simp, by simp⟩

/-- **A whole number is on exactly one side** of a number that is not whole. -/
theorem Number.whole_beside {value v : α}
    (h : Number.gt (Number.integralityGap value) 0 = true)
    (hv : Number.isWhole v = true) (hnum : exact v ≠ .nan) :
    (Number.le v (Number.floor value) = true ∧ Number.le (Number.ceil value) v = false)
      ∨ (Number.le v (Number.floor value) = false ∧ Number.le (Number.ceil value) v = true) := by
  obtain ⟨q, hq, hgap⟩ := Number.exact_of_gap_pos h
  rw [Lawful.le_eq, Lawful.le_eq, Lawful.exact_floor, Lawful.exact_ceil, hq]
  rw [Number.isWhole, Lawful.beq_eq, Lawful.exact_floor] at hv
  cases hx : exact v with
  | nan => exact absurd hx hnum
  | posInf => exact .inr ⟨rfl, rfl⟩
  | negInf => exact .inl ⟨rfl, rfl⟩
  | fin r =>
    have hwhole : ((r.floor : ℤ) : ℚ) = r := by
      rw [hx] at hv
      simpa [ExtRat.eqv] using hv
    have hne : ((q.floor : ℤ) : ℚ) ≠ q := by
      intro heq
      rw [← heq, ExtRat.nearestInt_intCast, sub_self, abs_zero] at hgap
      exact lt_irrefl _ hgap
    -- the neighbours of `q` are one apart, so no whole number lies strictly between them
    have hlt : ((q.floor : ℤ) : ℚ) < q := lt_of_le_of_ne (Rat.floor_le q) hne
    have hstep : q.floor + 1 ≤ q.ceil := by
      have : ((q.floor : ℤ) : ℚ) < q.ceil := lt_of_lt_of_le hlt Rat.le_ceil
      exact_mod_cast this
    -- both comparisons are between integers
    have hcomp : (ExtRat.le (.fin r) (Number.floor (.fin q)) = true ↔ r.floor ≤ q.floor)
        ∧ (ExtRat.le (Number.ceil (.fin q)) (.fin r) = true ↔ q.ceil ≤ r.floor) := by
      constructor
      · show Number.le (ExtRat.fin r) (Number.floor (.fin q)) = true ↔ _
        rw [ExtRat.floor_fin, ExtRat.le_fin, decide_eq_true_iff]
        nth_rewrite 1 [← hwhole]
        exact Int.cast_le
      · show Number.le (Number.ceil (.fin q)) (ExtRat.fin r) = true ↔ _
        rw [ExtRat.ceil_fin, ExtRat.le_fin, decide_eq_true_iff]
        nth_rewrite 1 [← hwhole]
        exact Int.cast_le
    have hceil : q.ceil ≤ q.floor + 1 := by
      rw [Rat.ceil_le_iff]
      push_cast
      have := Rat.lt_floor (x := q)
      linarith
    by_cases hside : r.floor ≤ q.floor
    · refine .inl ⟨hcomp.1.mpr hside, ?_⟩
      rw [← Bool.not_eq_true, hcomp.2]
      omega
    · refine .inr ⟨?_, hcomp.2.mpr (by omega)⟩
      rw [← Bool.not_eq_true, hcomp.1]
      exact hside

/-! ## Points of a tightened box -/

/-- A cut interval holds exactly the numbers of the interval that the cut keeps. -/
theorem Cut.has_narrow_iff {c : Cut α} {b : Interval α} {v : α} (hb : b.IsProper)
    (hc : exact c.bound ≠ .nan) :
    (c.narrow b).Has v ↔ b.Has v
      ∧ (if c.upper then Number.le v c.bound = true else Number.le c.bound v = true) := by
  unfold Cut.narrow Interval.Has
  cases c.upper with
  | true =>
    simp only [if_true]
    rw [Lawful.le_eq v (Number.min _ _), Number.exact_min, Lawful.le_eq v b.upper,
      Lawful.le_eq v c.bound]
    have := Number.le_min_iff_extRat (x := exact v) hc hb.2
    tauto
  | false =>
    simp only [Bool.false_eq_true, if_false]
    rw [Lawful.le_eq (Number.max _ _) v, Number.exact_max, Lawful.le_eq b.lower v,
      Lawful.le_eq c.bound v]
    have := Number.max_le_iff_extRat (x := exact v) hc hb.1
    tauto

theorem Cut.isProper_narrow {c : Cut α} {b : Interval α} (hb : b.IsProper)
    (hc : exact c.bound ≠ .nan) : (c.narrow b).IsProper := by
  unfold Cut.narrow Interval.IsProper
  cases c.upper with
  | true =>
    simp only [if_true]
    rw [Number.exact_min, Number.min]
    exact ⟨hb.1, by split <;> [exact hc; exact hb.2]⟩
  | false =>
    simp only [Bool.false_eq_true, if_false]
    rw [Number.exact_max, Number.max]
    exact ⟨by split <;> [exact hc; exact hb.1], hb.2⟩

/-- Pointwise relations and a change at one position: what is asked of the new entry is
what was asked of the old one and something more. -/
theorem forall₂_set_iff {β γ : Type} {R : β → γ → Prop} {Q : γ → Prop} {d : γ} :
    ∀ {l : List β} {x : List γ} {i : Nat} {b : β} (hi : i < l.length),
      (∀ v, R b v ↔ R l[i] v ∧ Q v) →
      (List.Forall₂ R (l.set i b) x ↔ List.Forall₂ R l x ∧ Q (x.getD i d))
  | a :: l, [], i, b, _, _ => by cases i <;> simp
  | a :: l, v :: x, 0, b, _, h => by
    simp only [List.set_cons_zero, List.forall₂_cons, List.getD_cons_zero]
    have := h v
    simp only [List.getElem_cons_zero] at this
    tauto
  | a :: l, v :: x, i + 1, b, hi, h => by
    simp only [List.set_cons_succ, List.forall₂_cons, List.getD_cons_succ]
    have := forall₂_set_iff (l := l) (x := x) (d := d) (by simpa using hi) h
    tauto

/-- A tightened box holds exactly the points of the box that the cut keeps. -/
theorem Cut.has_tighten_iff {c : Cut α} {box : Box α} {x : List α} (hbox : Box.IsProper box)
    (hc : exact c.bound ≠ .nan) (hcol : c.column < box.length) :
    Box.Has (Cut.tighten box c) x ↔ Box.Has box x ∧ c.Allows x := by
  refine forall₂_set_iff (R := Interval.Has) (d := 0)
    (Q := fun v => if c.upper then Number.le v c.bound = true else Number.le c.bound v = true)
    hcol fun v => ?_
  rw [Search.boundsAt_of_lt hcol]
  exact Cut.has_narrow_iff (hbox _ (List.getElem_mem hcol)) hc

theorem Cut.isProper_tighten {c : Cut α} {box : Box α} (hbox : Box.IsProper box)
    (hc : exact c.bound ≠ .nan) (hcol : c.column < box.length) :
    Box.IsProper (Cut.tighten box c) := by
  intro b hb
  rcases List.mem_or_eq_of_mem_set hb with hb | rfl
  · exact hbox b hb
  · rw [Search.boundsAt_of_lt hcol]
    exact Cut.isProper_narrow (hbox _ (List.getElem_mem hcol)) hc

theorem Search.isProper_cutBox {p : Program α} {cuts : List (Cut α)}
    (hroot : Box.IsProper (Search.rootBox p))
    (hcuts : ∀ c ∈ cuts, exact c.bound ≠ .nan ∧ c.column < p.columns.length) :
    Box.IsProper (Search.cutBox p cuts) := by
  induction cuts using List.reverseRecOn with
  | nil => exact hroot
  | append_singleton cuts c ih =>
    rw [Search.cutBox_append]
    have hc := hcuts c (List.mem_append_right _ (List.mem_singleton.mpr rfl))
    refine Cut.isProper_tighten (ih fun c hc => hcuts c (List.mem_append_left _ hc)) hc.1 ?_
    rw [Search.length_cutBox]
    exact hc.2

end Milp
