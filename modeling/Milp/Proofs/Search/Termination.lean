/-
The search ends.

No counter in the loop says that it will. What shrinks is the room that a box leaves to
the columns that must be whole: the number of unit steps from the lower end of such a
column to its upper end, added up over these columns. Their ends are whole at the root,
because bounds are rounded inward there, and stay whole, because a column is cut at whole
numbers.

A split takes at least one unit of room from either half (`room_halves`). For that the
value of the column must lie strictly between its ends. The oracle promises no more than
to stay within the tolerance of the box, and the column was chosen in one of two ways:

* its value is farther than the tolerance from every whole number, so it cannot be
  outside of two whole ends by less than the tolerance;
* or its value is not whole, and the rule that chose it made sure that both halves are
  smaller.

A box with room `r` can then be split into no more than `2 ^ r` boxes, so the search sees
fewer than `2 ^ (r + 1)` nodes below it. The sum of this number over the stack is the
potential that every turn lowers (`Concluded.potential`). The depth of a node grows by
one where the room of its box shrinks by one, which bounds the depth.
-/
import Milp.Proofs.Search.Partition
import Milp.Proofs.Search.Turns

set_option autoImplicit false

namespace Milp

/-! ## Room -/

/-- The number of unit steps from the lower end of an interval to the upper one. -/
def Interval.room (b : Interval ExtRat) : ℕ := (b.upper.value - b.lower.value).floor.toNat

/-- An interval between whole numbers. -/
def Interval.between (l u : ℤ) : Interval ExtRat := ⟨.fin l, .fin u⟩

@[simp] theorem Interval.room_between (l u : ℤ) : (Interval.between l u).room = (u - l).toNat := by
  rw [Interval.room, Interval.between, ExtRat.value_fin, ExtRat.value_fin, ← Int.cast_sub,
    Rat.floor_intCast]

namespace Search

/-- The room that a box leaves to the whole columns. -/
def room (p : Program ExtRat) (box : Box ExtRat) : ℕ :=
  (p.integerColumns.map fun i => (boundsAt box i).room).sum

/-- A box of a program whose whole columns have whole ends. -/
structure IsLattice (p : Program ExtRat) (box : Box ExtRat) : Prop where
  length : box.length = p.columns.length
  ends : ∀ i ∈ p.integerColumns, ∃ l u : ℤ, boundsAt box i = .between l u

theorem nodup_integerColumns (p : Program ExtRat) : p.integerColumns.Nodup :=
  List.nodup_range.filter _

theorem boundsAt_set {box : Box ExtRat} {i j : Nat} {b : Interval ExtRat} (hi : i < box.length) :
    boundsAt (box.set i b) j = if j = i then b else boundsAt box j := by
  rw [boundsAt, boundsAt, List.getD_eq_getElem?_getD, List.getD_eq_getElem?_getD,
    List.getElem?_set]
  by_cases hj : j = i
  · simp [hj, hi]
  · simp [hj, Ne.symm hj]

/-- Changing one whole column changes the room by what it changes there. -/
theorem room_set {p : Program ExtRat} {box : Box ExtRat} {i : Nat} {b : Interval ExtRat}
    (hi : i ∈ p.integerColumns) (hlt : i < box.length) :
    room p (box.set i b) + (boundsAt box i).room = room p box + b.room := by
  have hold := List.sum_map_erase (fun j => (boundsAt box j).room) hi
  have hnew := List.sum_map_erase (fun j => (boundsAt (box.set i b) j).room) hi
  have hothers : ((p.integerColumns.erase i).map fun j => (boundsAt (box.set i b) j).room)
      = (p.integerColumns.erase i).map fun j => (boundsAt box j).room := by
    refine List.map_congr_left fun j hj => ?_
    have hne := (List.Nodup.mem_erase_iff (nodup_integerColumns p)).mp hj
    rw [boundsAt_set hlt, if_neg hne.1]
  have hhere : (boundsAt (box.set i b) i).room = b.room := by
    rw [boundsAt_set hlt, if_pos rfl]
  simp only [hhere, hothers] at hnew
  simp only [room]
  omega

theorem IsLattice.set {p : Program ExtRat} {box : Box ExtRat} {i : Nat} {l u : ℤ}
    (h : IsLattice p box) (hlt : i < box.length) : IsLattice p (box.set i (.between l u)) where
  length := by
    rw [List.length_set]
    exact h.length
  ends j hj := by
    rw [boundsAt_set hlt]
    by_cases hji : j = i
    · exact ⟨l, u, if_pos hji⟩
    · rw [if_neg hji]
      exact h.ends j hj

/-! ## The value of a split -/

/-- The points that an oracle gives for the boxes of a program are within a margin of
these boxes. -/
def StaysNear (p : Program ExtRat) (oracle : Oracle ExtRat) (margin : ExtRat) : Prop :=
  ∀ box values objective, box.length = p.columns.length →
    oracle box = .ok (.solved values objective) →
    List.Forall₂ (fun b v => b.contains v margin = true) box values

/-- The value at a column is within the margin of its interval. -/
theorem contains_of_near {box : Box ExtRat} {values : List ExtRat} {margin : ExtRat} {i : Nat}
    (near : List.Forall₂ (fun b v => b.contains v margin = true) box values)
    (hi : i < box.length) :
    (boundsAt box i).contains (Number.valueAt values i) margin = true := by
  have hlen : i < values.length := near.length_eq ▸ hi
  rw [boundsAt_of_lt hi, Number.valueAt, List.getD_eq_getElem _ _ hlen]
  exact near.get hi hlen

/-- A rational within a margin of whole ends. -/
theorem contains_between_iff (l u : ℤ) (q t : ℚ) :
    (Interval.between l u).contains (.fin q) (.fin t) = true
      ↔ l - q ≤ t ∧ q - u ≤ t ∧ 0 ≤ t := by
  rw [Interval.between, Interval.contains, Interval.violation, ExtRat.zero_eq]
  simp [and_assoc]

theorem splitsProperly_between_iff (l u : ℤ) (q : ℚ) :
    splitsProperly (Interval.between l u) (.fin q) = true ↔ l < q.ceil ∧ q.floor < u := by
  rw [Interval.between, splitsProperly, ExtRat.ceil_fin, ExtRat.floor_fin]
  simp

/-- The two ways in which a column can be chosen. -/
theorem splitColumn?_cases {α : Type} [Number α] {p : Program α} {tolerance : α} {box : Box α}
    {values : List α} {i : Nat} (h : splitColumn? p tolerance box values = some i) :
    Number.gt (Number.integralityGap (Number.valueAt values i)) tolerance = true
      ∨ splitsProperly (boundsAt box i) (Number.valueAt values i) = true := by
  unfold splitColumn? at h
  cases hb : branchingColumn? p tolerance values with
  | some j =>
    rw [hb, Option.some.injEq] at h
    rw [← h]
    exact .inl (branchingColumn?_some hb).2
  | none =>
    simp only [hb] at h
    by_cases hrows : p.satisfiesRows (snap p values) tolerance = true
    · simp [hrows] at h
    · rw [if_neg hrows, leastIntegralColumn?] at h
      have hmem := (List.mem_filter.mp (mem_of_greatestBy h)).2
      rw [Bool.and_eq_true] at hmem
      exact .inr hmem.1

/-- **A column is split strictly between its ends.** There is a whole number `k` such that
the lower half ends at `k`, the upper half begins at `k + 1`, and neither is the whole. -/
theorem split_between {p : Program ExtRat} {t : ℚ} (nonneg : 0 ≤ t) {box : Box ExtRat}
    {values : List ExtRat} {i : Nat} {l u : ℤ} (ends : boundsAt box i = .between l u)
    (near : (boundsAt box i).contains (Number.valueAt values i) (.fin t) = true)
    (chosen : splitColumn? p (.fin t) box values = some i) :
    ∃ k : ℤ, l ≤ k ∧ k < u
      ∧ lowerHalf (boundsAt box i) (Number.valueAt values i) = .between l k
      ∧ upperHalf (boundsAt box i) (Number.valueAt values i) = .between (k + 1) u := by
  obtain ⟨-, hgap⟩ := splitColumn?_some (ExtRat.zero_le_fin nonneg) chosen
  have hways := splitColumn?_cases chosen
  obtain ⟨q, hq, hpos⟩ := Number.exact_of_gap_pos hgap
  rw [Number.exact_extRat] at hq
  rw [ends, hq] at near hways ⊢
  have hceil := ExtRat.ceil_eq_floor_add_one hpos
  obtain ⟨hbelow, habove, -⟩ := (contains_between_iff l u q t).mp near
  have hends : l ≤ q.floor ∧ q.floor < u := by
    rcases hways with hfar | hproper
    · -- an end on the wrong side of the value would be a whole number within the tolerance
      rw [ExtRat.integralityGap_fin, ExtRat.gt_fin, decide_eq_true_iff] at hfar
      have hl := lt_of_lt_of_le hfar (ExtRat.gap_le q l)
      have hu := lt_of_lt_of_le hfar (ExtRat.gap_le q u)
      have hlq : (l : ℚ) ≤ q := by
        by_contra hnot
        rw [abs_of_neg (by linarith)] at hl
        linarith
      have hqu : q < u := by
        by_contra hnot
        rw [abs_of_nonneg (by linarith)] at hu
        linarith
      have hfloor : l ≤ q.floor := Rat.le_floor_iff.mpr hlq
      have hlast : ((q.floor : ℤ) : ℚ) < u := lt_of_le_of_lt (Rat.floor_le q) hqu
      exact ⟨hfloor, by exact_mod_cast hlast⟩
    · obtain ⟨h₁, h₂⟩ := (splitsProperly_between_iff l u q).mp hproper
      omega
  refine ⟨q.floor, hends.1, hends.2, ?_, ?_⟩
  · have hmin : min (q.floor : ℚ) u = q.floor := min_eq_left (by exact_mod_cast hends.2.le)
    rw [lowerHalf, Interval.between, ExtRat.floor_fin, ExtRat.min_fin, hmin, Interval.between]
  · have hmax : max ((q.floor : ℚ) + 1) l = (q.floor : ℚ) + 1 := by
      refine max_eq_left ?_
      have : (l : ℚ) ≤ q.floor := by exact_mod_cast hends.1
      linarith
    rw [upperHalf, Interval.between, ExtRat.ceil_fin, hceil, Int.cast_add, Int.cast_one,
      ExtRat.max_fin, hmax, Interval.between, Int.cast_add, Int.cast_one]

/-- **A split takes room from both halves.** -/
theorem room_halves {p : Program ExtRat} {t : ℚ} (nonneg : 0 ≤ t) {box : Box ExtRat}
    {values : List ExtRat} {i : Nat} (h : IsLattice p box)
    (near : List.Forall₂ (fun b v => b.contains v (.fin t) = true) box values)
    (chosen : splitColumn? p (.fin t) box values = some i) (first : Nat) :
    ∀ e ∈ halves p box i (Number.valueAt values i) first,
      IsLattice p e.box ∧ room p e.box < room p box := by
  obtain ⟨hi, -⟩ := splitColumn?_some (ExtRat.zero_le_fin nonneg) chosen
  have hlt : i < box.length := h.length ▸ (Program.mem_integerColumns.mp hi).1
  obtain ⟨l, u, hends⟩ := h.ends i hi
  obtain ⟨k, hlk, hku, hlower, hupper⟩ :=
    split_between nonneg hends (contains_of_near near hlt) chosen
  have hsmaller : ∀ l' u' : ℤ, u' - l' < u - l →
      IsLattice p (box.set i (.between l' u'))
        ∧ room p (box.set i (.between l' u')) < room p box := by
    intro l' u' hless
    refine ⟨h.set hlt, ?_⟩
    have hroom := room_set (b := .between l' u') hi hlt
    rw [hends, Interval.room_between, Interval.room_between] at hroom
    omega
  intro e he
  rw [halves, hlower, hupper] at he
  have hcases : e.box = box.set i (.between l k) ∨ e.box = box.set i (.between (k + 1) u) := by
    split at he <;> rcases List.mem_pair.mp he with rfl | rfl <;> simp
  rcases hcases with hbox | hbox
  · rw [hbox]
    exact hsmaller l k (by omega)
  · rw [hbox]
    exact hsmaller (k + 1) u (by omega)

/-! ## Depth -/

section Steps

variable {p : Program ExtRat} {t : ℚ} {s next : State ExtRat} {here : Pending ExtRat}
  {n k : Node ExtRat} {relaxation : Relaxation ExtRat} {id : Nat}

/-- Changing a node in other respects leaves all depths as they are. -/
theorem depth_of_modify {tree : SearchTree ExtRat} (change : Node ExtRat → Node ExtRat)
    (keeps : ∀ n, (change n).depth = n.depth) {node : Nat}
    (hk : (tree.modify node change).get? id = some k) :
    ∃ m, tree.get? id = some m ∧ k.depth = m.depth := by
  rw [SearchTree.get?_modify] at hk
  by_cases hid : id = node
  · rw [if_pos hid] at hk
    obtain ⟨m, hm, rfl⟩ := Option.map_eq_some_iff.mp hk
    exact ⟨m, hm, keeps m⟩
  · rw [if_neg hid] at hk
    exact ⟨k, hk, rfl⟩

theorem depth_of_marked {node : Nat} {outcome : NodeOutcome}
    (hk : (s.marked node outcome).tree.get? id = some k) :
    ∃ m, s.tree.get? id = some m ∧ k.depth = m.depth :=
  depth_of_modify (fun n => { n with outcome := outcome }) (fun _ => rfl) hk

theorem depth_of_recorded {node : Nat} {values : List ExtRat} {objective : ExtRat}
    (hk : (s.recorded node values objective).tree.get? id = some k) :
    ∃ m, s.tree.get? id = some m ∧ k.depth = m.depth :=
  depth_of_modify (fun n => { n with relaxation := some objective, values := values })
    (fun _ => rfl) hk

theorem depth_of_recorded_marked {node : Nat} {values : List ExtRat} {objective : ExtRat}
    {outcome : NodeOutcome}
    (hk : ((s.recorded node values objective).marked node outcome).tree.get? id = some k) :
    ∃ m, s.tree.get? id = some m ∧ k.depth = m.depth := by
  obtain ⟨m, hm, hdepth⟩ := depth_of_marked hk
  obtain ⟨o, ho, hdepth'⟩ := depth_of_recorded hm
  exact ⟨o, ho, hdepth.trans hdepth'⟩

/-- The nodes after a split: two that are one deeper than the one that was split, and
the others as deep as before. -/
theorem depth_of_split (there : s.tree.get? here.node = some n) (leaf : n.IsLeaf)
    {values : List ExtRat} {objective : ExtRat} {column : Nat} {value : ExtRat}
    (hk : (split p (s.recorded here.node values objective) here column value).tree.get? id
      = some k) :
    (s.tree.size ≤ id ∧ k.depth = n.depth + 1)
      ∨ ∃ m, s.tree.get? id = some m ∧ k.depth = m.depth := by
  have hrecorded := get?_recorded values objective there
  have hsize : (s.recorded here.node values objective).tree.size = s.tree.size :=
    SearchTree.size_recordRelaxation ..
  obtain ⟨tree, heq, -, hget⟩ := split_of_leaf p here column value hrecorded leaf
  rw [heq] at hk
  rw [hsize] at hget
  replace hk : tree.get? id = some k := hk
  rw [hget] at hk
  by_cases h₁ : id = s.tree.size
  · rw [if_pos h₁, Option.some.injEq] at hk
    exact .inl ⟨h₁.ge, by rw [← hk]; rfl⟩
  rw [if_neg h₁] at hk
  by_cases h₂ : id = s.tree.size + 1
  · rw [if_pos h₂, Option.some.injEq] at hk
    exact .inl ⟨by omega, by rw [← hk]; rfl⟩
  rw [if_neg h₂] at hk
  by_cases h₃ : id = here.node
  · rw [if_pos h₃, Option.some.injEq] at hk
    exact .inr ⟨n, by rw [h₃]; exact there, by rw [← hk]; rfl⟩
  rw [if_neg h₃] at hk
  exact .inr (depth_of_recorded hk)

/-- A node that is concluded leaves the stack and all depths as they are, or is split. -/
theorem Concluded.same_depths_or_branched (hc : Concluded p (.fin t) s here relaxation next) :
    (next.stack = s.stack
        ∧ ∀ id k, next.tree.get? id = some k → ∃ m, s.tree.get? id = some m ∧ k.depth = m.depth)
      ∨ ∃ values objective column, relaxation = .solved values objective
        ∧ splitColumn? p (.fin t) here.box values = some column
        ∧ next = split p (s.recorded here.node values objective) here column
            (Number.valueAt values column) := by
  cases hc with
  | infeasible => exact .inl ⟨rfl, fun _ _ => depth_of_marked⟩
  | unbounded below => exact .inl ⟨rfl, fun _ _ => depth_of_marked⟩
  | pruned values objective worse => exact .inl ⟨rfl, fun _ _ => depth_of_recorded_marked⟩
  | accepted values objective better unsplit improves =>
    exact .inl ⟨rfl, fun _ _ => depth_of_recorded_marked⟩
  | integral values objective better unsplit fails =>
    exact .inl ⟨rfl, fun _ _ => depth_of_recorded_marked⟩
  | branched values objective column better chosen =>
    exact .inr ⟨values, objective, column, rfl, chosen, rfl⟩

/-! ## The invariant -/

/-- Open boxes have whole ends, and no node is deeper than the root's box has room. The
depth of an open node and the room that is left to it share that room. -/
structure Shrinks (p : Program ExtRat) (s : State ExtRat) : Prop where
  boxes : ∀ e ∈ s.stack, IsLattice p e.box
  shared : ∀ e ∈ s.stack, ∀ n, s.tree.get? e.node = some n →
    n.depth + room p e.box ≤ room p (rootBox p)
  depth : ∀ id n, s.tree.get? id = some n → n.depth ≤ room p (rootBox p)

theorem shrinks_initial (h : IsLattice p (rootBox p)) : Shrinks p (.initial p) := by
  have hdepth : ∀ id n, (State.initial p).tree.get? id = some n → n.depth = 0 := by
    intro id n hn
    rw [(SearchTree.eq_of_get?_initial hn).2]
    rfl
  refine ⟨fun e he => ?_, fun e he n hn => ?_, fun id n hn => ?_⟩
  · obtain rfl : e = ⟨SearchTree.rootId, rootBox p⟩ := List.mem_singleton.mp he
    exact h
  · obtain rfl : e = ⟨SearchTree.rootId, rootBox p⟩ := List.mem_singleton.mp he
    have hroot := hdepth _ n hn
    show n.depth + room p (rootBox p) ≤ room p (rootBox p)
    omega
  · have := hdepth id n hn
    omega

/-- The points that the relaxation of a node may have. -/
def Relaxation.IsNear (relaxation : Relaxation ExtRat) (box : Box ExtRat) (margin : ExtRat) :
    Prop :=
  ∀ values objective, relaxation = .solved values objective →
    List.Forall₂ (fun b v => b.contains v margin = true) box values

/-- **One step** keeps the invariant. -/
theorem Concluded.shrinks (nonneg : 0 ≤ t) (h : Shrinks p s)
    (known : ∀ e ∈ s.stack, ∃ m, s.tree.get? e.node = some m)
    (hbox : IsLattice p here.box) (hroom : n.depth + room p here.box ≤ room p (rootBox p))
    (near : Relaxation.IsNear relaxation here.box (.fin t))
    (there : s.tree.get? here.node = some n) (leaf : n.IsLeaf)
    (hc : Concluded p (.fin t) s here relaxation next) : Shrinks p next := by
  rcases hc.same_depths_or_branched with
    ⟨hstack, hdepth⟩ | ⟨values, objective, column, hr, hchosen, rfl⟩
  · refine ⟨fun e he => h.boxes e (hstack ▸ he), fun e he k hk => ?_, fun id k hk => ?_⟩
    · obtain ⟨m, hm, heq⟩ := hdepth _ k hk
      rw [heq]
      exact h.shared e (hstack ▸ he) m hm
    · obtain ⟨m, hm, heq⟩ := hdepth _ k hk
      rw [heq]
      exact h.depth id m hm
  · have hhalves := room_halves nonneg hbox (near values objective hr) hchosen s.tree.size
    have hb := branches_split p here values objective column (Number.valueAt values column)
      there leaf
    -- a half has less room than the box, so the box has some
    have hpos : 0 < room p here.box := by
      have hmem := (mem_halves_iff p here.box column (Number.valueAt values column) s.tree.size
        0 0 _).mpr (.inl rfl)
      have := (hhalves _ hmem).2
      omega
    have hnode : ∀ e ∈ halves p here.box column (Number.valueAt values column) s.tree.size,
        s.tree.size ≤ e.node := by
      intro e he
      rcases (mem_halves_iff p here.box column _ s.tree.size 0 0 e).mp he with rfl | rfl
      · exact le_rfl
      · exact Nat.le_succ _
    refine ⟨fun e he => ?_, fun e he k hk => ?_, fun id k hk => ?_⟩
    · rw [hb.stack, List.mem_append] at he
      rcases he with he | he
      · exact (hhalves e he).1
      · exact h.boxes e he
    · rw [hb.stack, List.mem_append] at he
      have hcases := depth_of_split there leaf hk
      rcases he with he | he
      · -- the node of a half is new
        have hroom' := (hhalves e he).2
        have hnew := hnode e he
        rcases hcases with ⟨-, hdepth⟩ | ⟨m, hm, -⟩
        · omega
        · have := SearchTree.lt_size_of_get? hm
          omega
      · -- the node of an older entry is not
        obtain ⟨m, hm⟩ := known e he
        have hold := h.shared e he m hm
        have hlt := SearchTree.lt_size_of_get? hm
        rcases hcases with ⟨hnew, -⟩ | ⟨m', hm', hdepth⟩
        · omega
        · rw [hm, Option.some.injEq] at hm'
          rw [hm'] at hold
          omega
    · rcases depth_of_split there leaf hk with ⟨-, hdepth⟩ | ⟨m, hm, hdepth⟩
      · omega
      · rw [hdepth]
        exact h.depth id m hm

/-! ## The potential -/

/-- How many nodes a search can see from a box on: a full binary tree as high as the box
has room. -/
def weight (p : Program ExtRat) (box : Box ExtRat) : ℕ := 2 ^ (room p box + 1) - 1

/-- How many nodes a search can still see. -/
def potential (p : Program ExtRat) (s : State ExtRat) : ℕ :=
  (s.stack.map fun e => weight p e.box).sum

theorem weight_pos (p : Program ExtRat) (box : Box ExtRat) : 0 < weight p box := by
  have hone : 1 ≤ 2 ^ room p box := Nat.one_le_two_pow
  have hdouble : 2 ^ (room p box + 1) = 2 * 2 ^ room p box := by ring
  rw [weight]
  omega

/-- Two boxes with less room than a third weigh less together. -/
theorem sum_weight_halves {box : Box ExtRat} {column first : Nat} {value : ExtRat}
    (smaller : ∀ e ∈ halves p box column value first, room p e.box < room p box) :
    ((halves p box column value first).map fun e => weight p e.box).sum < weight p box := by
  have hmost : ∀ w ∈ (halves p box column value first).map fun e => weight p e.box,
      w ≤ 2 ^ room p box - 1 := by
    intro w hw
    obtain ⟨e, he, rfl⟩ := List.mem_map.mp hw
    have hpow : 2 ^ (room p e.box + 1) ≤ 2 ^ room p box :=
      Nat.pow_le_pow_right (by omega) (smaller e he)
    rw [weight]
    omega
  have hsum := List.sum_le_card_nsmul _ _ hmost
  have htwo : ((halves p box column value first).map fun e => weight p e.box).length = 2 := by
    rw [List.length_map, halves]
    split <;> rfl
  rw [htwo, smul_eq_mul] at hsum
  have hone : 1 ≤ 2 ^ room p box := Nat.one_le_two_pow
  have hdouble : 2 ^ (room p box + 1) = 2 * 2 ^ room p box := by ring
  rw [weight]
  omega

/-- **One step** lowers the potential: what comes on the stack weighs less than what was
taken. -/
theorem Concluded.potential (nonneg : 0 ≤ t) (hbox : IsLattice p here.box)
    (near : Relaxation.IsNear relaxation here.box (.fin t))
    (there : s.tree.get? here.node = some n) (leaf : n.IsLeaf)
    (hc : Concluded p (.fin t) s here relaxation next) :
    potential p next < weight p here.box + potential p s := by
  rcases hc.same_depths_or_branched with ⟨hstack, -⟩ | ⟨values, objective, column, hr, hchosen, rfl⟩
  · rw [Search.potential, hstack, ← Search.potential]
    have hpos := weight_pos p here.box
    omega
  · have hhalves := room_halves nonneg hbox (near values objective hr) hchosen s.tree.size
    have hb := branches_split p here values objective column (Number.valueAt values column)
      there leaf
    have hless := sum_weight_halves fun e he => (hhalves e he).2
    rw [Search.potential, hb.stack, List.map_append, List.sum_append, ← Search.potential]
    omega

end Steps

/-! ## Runs -/

section Runs

variable {p : Program ExtRat} {limits : Limits ExtRat} {oracle : Oracle ExtRat}
  {watch : Nat → Sighting} {t : ℚ}

/-- The box of the root has whole ends where its whole columns are bounded. -/
theorem isLattice_rootBox
    (bounded : ∀ c ∈ p.columns, c.integer = true → ∃ l u : ℚ, c.bounds = ⟨.fin l, .fin u⟩) :
    IsLattice p (rootBox p) where
  length := length_rootBox p
  ends i hi := by
    obtain ⟨hlt, hinteger⟩ := Program.mem_integerColumns.mp hi
    have hwhole : p.columns[i].integer = true := by
      simpa [Program.isInteger, hlt] using hinteger
    obtain ⟨l, u, hbounds⟩ := bounded _ (List.getElem_mem hlt) hwhole
    refine ⟨l.ceil, u.floor, ?_⟩
    rw [boundsAt_of_lt (by rw [length_rootBox]; exact hlt)]
    simp only [rootBox, List.getElem_map]
    rw [rootBounds, if_pos hwhole, hbounds]
    rfl

/-- After every number of turns the potential has fallen by at least that number. -/
theorem shrinks_of_stateAfter? (lattice : IsLattice p (rootBox p)) (nonneg : 0 ≤ t)
    (tolerance : limits.tolerance = .fin t) (near : StaysNear p oracle (.fin t))
    {k : Nat} {s : State ExtRat} (h : stateAfter? p limits oracle watch k = some s) :
    Shrinks p s ∧ potential p s + k < 2 ^ (room p (rootBox p) + 1) := by
  induction k generalizing s with
  | zero =>
    rw [stateAfter?, Option.some.injEq] at h
    rw [← h]
    refine ⟨shrinks_initial lattice, ?_⟩
    have hpos := weight_pos p (rootBox p)
    have hstack : potential p (.initial p) = weight p (rootBox p) := by
      simp [potential, State.initial]
    rw [weight] at hpos hstack
    omega
  | succ k ih =>
    obtain ⟨before, hbefore, hstep⟩ := stateAfter?_succ_eq_some_iff.mp h
    obtain ⟨hshrinks, hpotential⟩ := ih hbefore
    obtain ⟨here, rest, relaxation, hstack, -, hanswer, hc⟩ := step_proceed hstep
    rw [tolerance] at hc
    have hreached := reachable_iff.mpr ⟨k, hbefore⟩
    have htracks := (hreached.tracks_and_partitions (tolerance ▸ ExtRat.zero_le_fin nonneg)).1
    obtain ⟨n, hn, hleaf, -⟩ := htracks.top_pending hstack
    have hmem : here ∈ before.stack := hstack ▸ List.mem_cons_self
    have hrest : ∀ e ∈ rest, e ∈ before.stack := fun e he => hstack ▸ List.mem_cons_of_mem _ he
    have hbox := hshrinks.boxes here hmem
    have hnear : Relaxation.IsNear relaxation here.box (.fin t) := by
      intro values objective hr
      exact near here.box values objective hbox.length (hr ▸ hanswer)
    have htaken : Shrinks p (before.taken rest) :=
      ⟨fun e he => hshrinks.boxes e (hrest e he),
        fun e he => hshrinks.shared e (hrest e he), hshrinks.depth⟩
    have hknown : ∀ e ∈ rest, ∃ m, before.tree.get? e.node = some m := by
      intro e he
      obtain ⟨m, hm, -⟩ := (htracks.open_iff e.node).mp (List.mem_map_of_mem (hrest e he))
      exact ⟨m, hm⟩
    -- the turn takes the weight of the top off the potential and puts less back
    have hless := hc.potential (s := before.taken rest) nonneg hbox hnear hn hleaf
    have hsum : potential p before = weight p here.box + potential p (before.taken rest) := by
      simp [potential, hstack, State.taken]
    refine ⟨hc.shrinks nonneg htaken hknown hbox (hshrinks.shared here hmem n hn) hnear hn hleaf,
      ?_⟩
    omega

/-- The last turn explores no more nodes than the potential allows, and makes no node
deeper. -/
theorem Shrinks.of_finished {s last : State ExtRat} {status : Answer.Status}
    {sighting : Sighting} (h : Shrinks p s)
    (hstep : step p limits oracle sighting s = .finished last status) :
    last.explored ≤ s.explored + potential p s
      ∧ ∀ id n, last.tree.get? id = some n → n.depth ≤ room p (rootBox p) := by
  have hs := stepped p limits oracle sighting s
  rw [hstep] at hs
  cases hs with
  | exhausted empty => exact ⟨by omega, h.depth⟩
  | halted here rest status top halts => exact ⟨by omega, h.depth⟩
  | rootUnbounded here rest top goesOn answers root =>
    have hpos := weight_pos p here.box
    have hsum : potential p s = weight p here.box + (rest.map fun e => weight p e.box).sum := by
      simp [potential, top]
    refine ⟨?_, fun id n hn => ?_⟩
    · show s.explored + 1 ≤ _
      omega
    · obtain ⟨m, hm, heq⟩ := depth_of_marked hn
      rw [heq]
      exact h.depth id m hm

/-- In a box that is not empty the room is the sum of the widths. -/
theorem room_eq_sum_widths {box : Box ExtRat} (h : IsLattice p box)
    (nonempty : Program.isEmptyBox box = false) :
    (room p box : ℚ) = (p.integerColumns.map fun i =>
      (boundsAt box i).upper.value - (boundsAt box i).lower.value).sum := by
  rw [room, Nat.cast_list_sum, List.map_map]
  congr 1
  refine List.map_congr_left fun i hi => ?_
  obtain ⟨l, u, hends⟩ := h.ends i hi
  have hlt : i < box.length := h.length ▸ (Program.mem_integerColumns.mp hi).1
  have hmem : boundsAt box i ∈ box := by
    rw [boundsAt_of_lt hlt]
    exact List.getElem_mem hlt
  have hle : l ≤ u := by
    rw [Program.isEmptyBox, List.any_eq_false] at nonempty
    have := nonempty _ hmem
    rw [hends, Interval.between, ExtRat.gt_fin, decide_eq_true_iff, not_lt] at this
    exact_mod_cast this
  have hcast : (((u - l).toNat : ℤ) : ℚ) = (u : ℚ) - l := by
    rw [Int.toNat_of_nonneg (by omega)]
    push_cast
    rfl
  rw [Function.comp_apply, hends, Interval.room_between, ← Int.cast_natCast, hcast]
  rfl

end Runs

/-- **The search ends.** For every program whose whole columns are bounded, every
tolerance that is not negative and every oracle whose points are within the tolerance of
the box they are asked for, and however the search is limited and watched: there is one
ending for every bound of `2 ^ (r + 1)` steps and more, where `r` is the room of the
root's box. It is an answer after fewer nodes than that, unless the oracle failed, and no
node of its tree is deeper than `r`. If the box is not empty, `r` is the sum of the widths
of its whole columns. -/
theorem search_ends (p : Program ExtRat)
    (bounded : ∀ c ∈ p.columns, c.integer = true → ∃ l u : ℚ, c.bounds = ⟨.fin l, .fin u⟩)
    (t : ℚ) (nonneg : 0 ≤ t) (limits : Limits ExtRat) (tolerance : limits.tolerance = .fin t)
    (oracle : Oracle ExtRat) (near : StaysNear p oracle (.fin t)) (watch : Nat → Sighting) :
    (∃ ending, (∀ steps, 2 ^ (room p (rootBox p) + 1) ≤ steps →
          run p limits oracle watch steps = ending)
        ∧ ((∃ answer tree, ending = .answered answer
              ∧ answer.nodes < 2 ^ (room p (rootBox p) + 1)
              ∧ answer.tree = some tree
              ∧ ∀ id n, tree.get? id = some n → n.depth ≤ room p (rootBox p))
          ∨ ∃ fault box, ending = .failed fault ∧ oracle box = .error fault))
      ∧ (Program.isEmptyBox (rootBox p) = false →
          (room p (rootBox p) : ℚ) = (p.integerColumns.map fun i =>
            (boundsAt (rootBox p) i).upper.value - (boundsAt (rootBox p) i).lower.value).sum) := by
  have hlattice := isLattice_rootBox bounded
  refine ⟨?_, room_eq_sum_widths hlattice⟩
  set most := 2 ^ (room p (rootBox p) + 1) with hmost
  -- the potential is used up before that many turns, so one of them is the last
  have hnone : stateAfter? p limits oracle watch most = none := by
    by_contra hsome
    obtain ⟨s, hs⟩ := Option.ne_none_iff_exists'.mp hsome
    have := (shrinks_of_stateAfter? hlattice nonneg tolerance near hs).2
    omega
  refine ⟨run p limits oracle watch most, fun steps hle => run_eq_of_le hle hnone, ?_⟩
  obtain ⟨j, s, hj, hs, hlast⟩ := exists_last_turn hnone
  rw [run_of_last_turn hs hlast hj]
  obtain ⟨hshrinks, hpotential⟩ := shrinks_of_stateAfter? hlattice nonneg tolerance near hs
  have hcount := explored_of_stateAfter? hs
  cases hstep : step p limits oracle (watch s.explored) s with
  | proceed next => exact absurd hstep (hlast next)
  | finished last status =>
    obtain ⟨hnodes, hdepth⟩ := hshrinks.of_finished hstep
    refine .inl ⟨last.answer status, last.tree, rfl, ?_, rfl, hdepth⟩
    show last.explored < most
    omega
  | failed fault =>
    obtain ⟨here, rest, -, hfault⟩ := step_failed hstep
    exact .inr ⟨fault, here.box, rfl, hfault⟩

/-- One whole column from 0 to 3, and no rows. -/
def staircase : Program ExtRat :=
  ⟨[⟨"x", ⟨.fin 0, .fin 3⟩, true, .fin 1⟩], [], .maximize, .fin 0⟩

/-- An oracle that stays near the lower end of a box, and a quarter above a single point. -/
def climbing : Oracle ExtRat := fun box =>
  match box with
  | [⟨.fin l, .fin u⟩] =>
    if u < l then .ok .infeasible
    else
      let x := if l = u then l + 1 / 4 else l + min (1 / 2) (u - l)
      .ok (.solved [.fin x] (.fin x))
  | _ => .ok .infeasible

theorem climbing_staysNear : StaysNear staircase climbing (.fin (1 / 4)) := by
  intro box values objective len hanswer
  unfold climbing at hanswer
  split at hanswer
  · rename_i l u
    by_cases hempty : u < l
    · rw [if_pos hempty] at hanswer
      cases hanswer
    · rw [if_neg hempty, Except.ok.injEq, Relaxation.solved.injEq] at hanswer
      rw [← hanswer.1]
      refine .cons ?_ .nil
      rw [Interval.contains, Interval.violation, ExtRat.fin_sub, ExtRat.fin_sub, ExtRat.max_fin,
        ExtRat.zero_eq, ExtRat.max_fin, ExtRat.le_fin, decide_eq_true_iff, max_le_iff, max_le_iff]
      by_cases heq : l = u
      · rw [if_pos heq, heq]
        norm_num
      · have hlt : l < u := lt_of_le_of_ne (not_lt.mp hempty) heq
        have hmin : min (1 / 2) (u - l) ≤ u - l := min_le_right _ _
        have hpos : 0 ≤ min (1 / 2) (u - l) := le_min (by norm_num) (by linarith)
        rw [if_neg heq]
        refine ⟨⟨?_, ?_⟩, ?_⟩ <;> linarith
  · cases hanswer

/-- The tolerance is a quarter, the number of nodes is not bounded. -/
def quarterLimits : Limits ExtRat := ⟨⟨1⟩, none, .fin (1 / 4), false⟩

/-- Going up the stairs, the search ends within 15 nodes, none of them deeper than 3. -/
theorem search_ends_climbing :
    ∃ answer tree, (∀ steps, 16 ≤ steps →
          run staircase quarterLimits climbing (fun _ => ⟨false, .zero⟩) steps = .answered answer)
      ∧ answer.nodes < 16 ∧ answer.tree = some tree
      ∧ (∀ id n, tree.get? id = some n → n.depth ≤ 3)
      ∧ ((3 : ℕ) : ℚ) = (staircase.integerColumns.map fun i =>
            (boundsAt (rootBox staircase) i).upper.value
              - (boundsAt (rootBox staircase) i).lower.value).sum := by
  have hroom : room staircase (rootBox staircase) = 3 := by decide +kernel
  have hbounded : ∀ c ∈ staircase.columns, c.integer = true →
      ∃ l u : ℚ, c.bounds = ⟨.fin l, .fin u⟩ := by
    intro c hc _
    rw [List.mem_singleton.mp hc]
    exact ⟨0, 3, rfl⟩
  obtain ⟨⟨ending, hending, hcases⟩, hwidths⟩ := search_ends staircase hbounded (1 / 4)
    (by norm_num) quarterLimits rfl climbing climbing_staysNear (fun _ => ⟨false, .zero⟩)
  rw [hroom] at hending hcases hwidths
  rcases hcases with ⟨answer, tree, rfl, hnodes, htree, hdepth⟩ | ⟨fault, box, -, hfault⟩
  · exact ⟨answer, tree, hending, hnodes, htree, hdepth, hwidths (by decide +kernel)⟩
  · -- this oracle does not fail
    unfold climbing at hfault
    split at hfault
    · split at hfault <;> cases hfault
    · cases hfault

end Search

end Milp
