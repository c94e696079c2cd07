/-
Eliminating variables from linear inequalities.

A list of linear functionals cuts a cone out of a space, the points at which none of them
is negative. If the space has a first coordinate, the functionals sort into those that
rise with it, those that fall with it and those that do not depend on it. A rising and a
falling one ask for a value between two ends, and there is such a value for all of them at
once exactly if each lower end is below each upper one (`exists_between`). So the shadow of
the cone is again cut out by finitely many functionals (`cone_eliminate_iff`), and by
induction so is the shadow along any number of coordinates (`exists_project`).

That finitely many functionals are enough is what the last theorem needs. A cost that
feasible points lower without end is lowered along a direction that leaves no inequality
behind (`exists_direction`): in the plane of a scale and an amount of savings, the scale one
goes with every amount, and finitely many functionals that allow this allow savings at the
scale zero.
-/
import Mathlib

set_option autoImplicit false

namespace Milp.Polyhedron

open Module (Dual)

/-! ## Cones -/

section Cones

variable {V : Type} [AddCommGroup V] [Module ℚ V]

/-- The points at which none of some functionals is negative. -/
def Cone (bounds : List (Dual ℚ V)) (v : V) : Prop := ∀ l ∈ bounds, 0 ≤ l v

/-- How much a functional changes with the first coordinate. -/
def slope (l : Dual ℚ (ℚ × V)) : ℚ := l (1, 0)

/-- What of a functional does not depend on the first coordinate. -/
def rest (l : Dual ℚ (ℚ × V)) : Dual ℚ V := l ∘ₗ LinearMap.inr ℚ ℚ V

theorem apply_eq (l : Dual ℚ (ℚ × V)) (x : ℚ) (v : V) : l (x, v) = slope l * x + rest l v := by
  have hsum : ((x, v) : ℚ × V) = x • (1, 0) + (0, v) := by simp
  rw [hsum, map_add, map_smul, smul_eq_mul, mul_comm]
  rfl

/-- What a rising and a falling functional say together about the other coordinates. -/
def combine (rising falling : Dual ℚ (ℚ × V)) : Dual ℚ V :=
  slope rising • rest falling - slope falling • rest rising

/-- What functionals say about the other coordinates. -/
def eliminate (bounds : List (Dual ℚ (ℚ × V))) : List (Dual ℚ V) :=
  (bounds.filter fun l => slope l = 0).map rest
    ++ ((bounds.filter fun l => 0 < slope l).product (bounds.filter fun l => slope l < 0)).map
      fun pair => combine pair.1 pair.2

/-- Some value lies between finitely many lower and upper ends, if each lower end is below
each upper one. -/
theorem exists_between {lowers uppers : List ℚ} (h : ∀ a ∈ lowers, ∀ b ∈ uppers, a ≤ b) :
    ∃ x, (∀ a ∈ lowers, a ≤ x) ∧ ∀ b ∈ uppers, x ≤ b := by
  by_cases hempty : lowers = []
  · -- then any value below the upper ends will do
    obtain ⟨x, hx⟩ := uppers.toFinset.finite_toSet.bddBelow
    refine ⟨x, by simp [hempty], fun b hb => hx ?_⟩
    simpa using hb
  · have hne : lowers.toFinset.Nonempty := by simpa using hempty
    refine ⟨lowers.toFinset.max' hne, fun a ha => ?_, fun b hb => ?_⟩
    · exact Finset.le_max' _ a (List.mem_toFinset.mpr ha)
    · exact h _ (List.mem_toFinset.mp (Finset.max'_mem _ hne)) b hb

/-- The end that a functional sets to the first coordinate. -/
def limit (l : Dual ℚ (ℚ × V)) (v : V) : ℚ := -rest l v / slope l

theorem nonneg_of_rising {l : Dual ℚ (ℚ × V)} (h : 0 < slope l) (x : ℚ) (v : V) :
    0 ≤ l (x, v) ↔ limit l v ≤ x := by
  rw [apply_eq, limit, div_le_iff₀ h]
  constructor <;> intro hle <;> linarith

theorem nonneg_of_falling {l : Dual ℚ (ℚ × V)} (h : slope l < 0) (x : ℚ) (v : V) :
    0 ≤ l (x, v) ↔ x ≤ limit l v := by
  rw [apply_eq, limit, le_div_iff_of_neg h]
  constructor <;> intro hle <;> linarith

theorem nonneg_combine {rising falling : Dual ℚ (ℚ × V)} (hr : 0 < slope rising)
    (hf : slope falling < 0) (v : V) :
    0 ≤ combine rising falling v ↔ limit rising v ≤ limit falling v := by
  rw [limit, limit, div_le_iff₀ hr, div_mul_eq_mul_div, le_div_iff_of_neg hf]
  show 0 ≤ slope rising * rest falling v - slope falling * rest rising v ↔ _
  constructor <;> intro hle <;> linarith

/-- **The shadow of a cone** is cut out by what the functionals say about the other
coordinates. -/
theorem cone_eliminate_iff (bounds : List (Dual ℚ (ℚ × V))) (v : V) :
    Cone (eliminate bounds) v ↔ ∃ x, Cone bounds (x, v) := by
  constructor
  · intro h
    -- the combinations say that no lower end is above an upper one
    have hends : ∀ a ∈ (bounds.filter fun l => 0 < slope l).map (limit · v),
        ∀ b ∈ (bounds.filter fun l => slope l < 0).map (limit · v), a ≤ b := by
      intro a ha b hb
      obtain ⟨rising, hrising, rfl⟩ := List.mem_map.mp ha
      obtain ⟨falling, hfalling, rfl⟩ := List.mem_map.mp hb
      have hpair : combine rising falling ∈ eliminate bounds :=
        List.mem_append_right _
          (List.mem_map.mpr ⟨(rising, falling), List.mem_product.mpr ⟨hrising, hfalling⟩, rfl⟩)
      have hr : 0 < slope rising := by simpa using (List.mem_filter.mp hrising).2
      have hf : slope falling < 0 := by simpa using (List.mem_filter.mp hfalling).2
      exact (nonneg_combine hr hf v).mp (h _ hpair)
    obtain ⟨x, hlower, hupper⟩ := exists_between hends
    refine ⟨x, fun l hl => ?_⟩
    -- a functional of slope zero does not depend on `x`, and was kept as it is
    rcases lt_trichotomy (slope l) 0 with hslope | hslope | hslope
    · refine (nonneg_of_falling hslope x v).mpr (hupper _ (List.mem_map.mpr ⟨l, ?_, rfl⟩))
      exact List.mem_filter.mpr ⟨hl, by simpa using hslope⟩
    · rw [apply_eq, hslope, zero_mul, zero_add]
      refine h _ (List.mem_append_left _ (List.mem_map.mpr ⟨l, ?_, rfl⟩))
      exact List.mem_filter.mpr ⟨hl, by simpa using hslope⟩
    · refine (nonneg_of_rising hslope x v).mpr (hlower _ (List.mem_map.mpr ⟨l, ?_, rfl⟩))
      exact List.mem_filter.mpr ⟨hl, by simpa using hslope⟩
  · rintro ⟨x, hx⟩ l hl
    rcases List.mem_append.mp hl with hl | hl
    · obtain ⟨k, hk, rfl⟩ := List.mem_map.mp hl
      obtain ⟨hmem, hslope⟩ := List.mem_filter.mp hk
      have hnonneg := hx k hmem
      rw [apply_eq, of_decide_eq_true hslope, zero_mul, zero_add] at hnonneg
      exact hnonneg
    · obtain ⟨⟨rising, falling⟩, hpair, rfl⟩ := List.mem_map.mp hl
      obtain ⟨hrising, hfalling⟩ := List.mem_product.mp hpair
      obtain ⟨hrmem, hr⟩ := List.mem_filter.mp hrising
      obtain ⟨hfmem, hf⟩ := List.mem_filter.mp hfalling
      rw [decide_eq_true_iff] at hr hf
      refine (nonneg_combine hr hf v).mpr (le_trans (b := x) ?_ ?_)
      · exact (nonneg_of_rising hr x v).mp (hx _ hrmem)
      · exact (nonneg_of_falling hf x v).mp (hx _ hfmem)

/-- The first of several coordinates, set apart. -/
def unfirst (n : ℕ) : (ℚ × ((Fin n → ℚ) × V)) →ₗ[ℚ] ((Fin (n + 1) → ℚ) × V) where
  toFun z := (Fin.cons z.1 z.2.1, z.2.2)
  map_add' y z := Prod.ext (funext <| Fin.cases rfl fun _ => by simp) rfl
  map_smul' c z := Prod.ext (funext <| Fin.cases rfl fun _ => by simp) rfl

/-- **The shadow of a cone along any number of coordinates** is cut out by finitely many
functionals. -/
theorem exists_project (n : ℕ) (bounds : List (Dual ℚ ((Fin n → ℚ) × V))) :
    ∃ shadow : List (Dual ℚ V), ∀ v, Cone shadow v ↔ ∃ x, Cone bounds (x, v) := by
  induction n with
  | zero =>
    refine ⟨bounds.map (· ∘ₗ LinearMap.inr ℚ _ V), fun v => ?_⟩
    -- there is only one point without coordinates
    have hpoint : ∀ x : Fin 0 → ℚ, x = 0 := fun x => Subsingleton.elim _ _
    simp only [Cone, List.forall_mem_map, LinearMap.comp_apply, LinearMap.inr_apply]
    exact ⟨fun h => ⟨0, h⟩, fun ⟨x, h⟩ => hpoint x ▸ h⟩
  | succ n ih =>
    obtain ⟨shadow, hshadow⟩ := ih (eliminate (bounds.map (· ∘ₗ unfirst n)))
    refine ⟨shadow, fun v => (hshadow v).trans ?_⟩
    simp only [cone_eliminate_iff]
    constructor
    · rintro ⟨y, x, h⟩
      exact ⟨Fin.cons x y, fun l hl => h _ (List.mem_map_of_mem hl)⟩
    · rintro ⟨x, h⟩
      refine ⟨Fin.tail x, x 0, ?_⟩
      rw [Cone, List.forall_mem_map]
      intro l hl
      show 0 ≤ l (Fin.cons (x 0) (Fin.tail x), v)
      rw [Fin.cons_self_tail]
      exact h l hl

end Cones

/-! ## Directions -/

variable {n : ℕ}

/-- An inequality `a x ≤ b`. -/
abbrev Inequality (n : ℕ) := Dual ℚ (Fin n → ℚ) × ℚ

/-- The inequality at every scale: `0 ≤ b s - a x`, whatever the savings are. -/
def scaled (r : Inequality n) : Dual ℚ ((Fin n → ℚ) × ℚ × ℚ) :=
  r.2 • (LinearMap.fst ℚ ℚ ℚ ∘ₗ LinearMap.snd ℚ _ _) - r.1 ∘ₗ LinearMap.fst ℚ _ _

theorem scaled_apply (r : Inequality n) (x : Fin n → ℚ) (s t : ℚ) :
    scaled r (x, s, t) = r.2 * s - r.1 x :=
  rfl

/-- A cost with its savings: `0 ≤ -t - c x`. -/
def saving (cost : Dual ℚ (Fin n → ℚ)) : Dual ℚ ((Fin n → ℚ) × ℚ × ℚ) :=
  -(LinearMap.snd ℚ ℚ ℚ ∘ₗ LinearMap.snd ℚ _ _) - cost ∘ₗ LinearMap.fst ℚ _ _

theorem saving_apply (cost : Dual ℚ (Fin n → ℚ)) (x : Fin n → ℚ) (s t : ℚ) :
    saving cost (x, s, t) = -t - cost x :=
  rfl

/-- A functional of the plane that allows every amount at the scale one allows the amount one
at the scale zero. -/
theorem nonneg_of_unbounded {l : Dual ℚ (ℚ × ℚ)} (h : ∀ t, 0 ≤ l (1, t)) : 0 ≤ l (0, 1) := by
  by_contra hneg
  rw [not_le] at hneg
  have hsum : ∀ t : ℚ, l (1, t) = l (1, 0) + t * l (0, 1) := by
    intro t
    have hpair : ((1, t) : ℚ × ℚ) = (1, 0) + t • (0, 1) := by simp
    rw [hpair, map_add, map_smul, smul_eq_mul]
  -- at this amount it would be negative
  have hat := h ((l (1, 0) + 1) / -l (0, 1))
  rw [hsum, div_mul_eq_mul_div, div_neg, mul_div_cancel_right₀ _ hneg.ne] at hat
  linarith

/-- **What has no end has a direction.** If points that satisfy finitely many inequalities
lower a cost below every bound, some direction lowers the cost and leaves no inequality
behind. -/
theorem exists_direction (rows : List (Inequality n)) (cost : Dual ℚ (Fin n → ℚ))
    (h : ∀ bound, ∃ x, (∀ r ∈ rows, r.1 x ≤ r.2) ∧ cost x < bound) :
    ∃ d, (∀ r ∈ rows, r.1 d ≤ 0) ∧ cost d < 0 := by
  obtain ⟨shadow, hshadow⟩ := exists_project n (saving cost :: rows.map scaled)
  have hcone : ∀ (s t : ℚ) (x : Fin n → ℚ), Cone (saving cost :: rows.map scaled) (x, s, t)
      ↔ cost x ≤ -t ∧ ∀ r ∈ rows, r.1 x ≤ r.2 * s := by
    intro s t x
    rw [Cone, List.forall_mem_cons, List.forall_mem_map]
    simp only [saving_apply, scaled_apply, sub_nonneg]
  have hscaled : ∀ t : ℚ, Cone shadow (1, t) := by
    intro t
    obtain ⟨x, hx, hcost⟩ := h (-t)
    exact (hshadow _).mpr ⟨x, (hcone 1 t x).mpr ⟨hcost.le, by simpa using hx⟩⟩
  have hfree : Cone shadow (0, 1) := fun l hl => nonneg_of_unbounded fun t => hscaled t l hl
  obtain ⟨d, hd⟩ := (hshadow _).mp hfree
  obtain ⟨hcost, hrows⟩ := (hcone 0 1 d).mp hd
  refine ⟨d, by simpa using hrows, ?_⟩
  linarith

end Milp.Polyhedron
