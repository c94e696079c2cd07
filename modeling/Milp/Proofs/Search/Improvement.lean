/-
Later incumbents are better ones.

A new incumbent has to beat the old one by more than the tolerance, and with a tolerance
that is not negative this makes it better. `Reachable.noWorse` says so for every
tolerance. One that is not a number lets nothing beat anything, so there is never more
than one incumbent. With a negative one the argument is about which points are taken at
all. Every whole column that has a rational value is farther than the tolerance from a
whole number, so the node is split; what is taken is either the point of a program without
whole columns, and then it is the only one, or a point with an infinite value, and then
its objective is infinite too. Beating an objective that is infinite is being better than
it, by whatever margin.

The two facts about the stack that this needs hold for every oracle and tolerance: after
the first turn the root is never on the stack again, and nothing at all is on it if no
column has to be whole.
-/
import Milp.Proofs.Number.Absorbing
import Milp.Proofs.Search.Incumbents
import Milp.Proofs.Search.Turns

set_option autoImplicit false

namespace Milp

open Number (exact Lawful Absorbing IsRational)

/-! ## Margins -/

namespace Sense

variable {α : Type} [Number α] [Lawful α] [Absorbing α]

/-- A margin that is not a number is never met. -/
theorem improves_of_nan (sense : Sense) (candidate other : α) {margin : α}
    (h : exact margin = .nan) : sense.improves candidate other margin = false := by
  cases sense with
  | minimize =>
    rw [improves, Lawful.lt_eq, Absorbing.sub_nan other margin h]
    cases exact candidate <;> rfl
  | maximize =>
    have hsum : exact (other + margin) = .nan := by
      have := Absorbing.add_right other margin (Number.not_isRational_of_nan h)
      rw [h] at this
      exact this.elim id id
    rw [improves, Number.gt, Lawful.lt_eq, hsum]
    rfl

/-- What beats an objective that is not finite is better, whatever the margin. -/
theorem ahead_of_improves_of_not_isRational {sense : Sense} {candidate other margin : α}
    (h : ¬ IsRational other) (hbeats : sense.improves candidate other margin = true) :
    sense.ahead candidate other = true := by
  cases sense with
  | minimize =>
    rw [improves, Lawful.lt_eq] at hbeats
    rw [ahead, Lawful.lt_eq]
    rcases Absorbing.sub_left other margin h with heq | hnan
    · rw [← heq]
      exact hbeats
    · rw [hnan] at hbeats
      cases hcandidate : exact candidate <;> rw [hcandidate] at hbeats <;> cases hbeats
  | maximize =>
    rw [improves, Number.gt, Lawful.lt_eq] at hbeats
    rw [ahead, Number.gt, Lawful.lt_eq]
    rcases Absorbing.add_left other margin h with heq | hnan
    · rw [← heq]
      exact hbeats
    · rw [hnan] at hbeats
      cases hbeats

end Sense

namespace Number

variable {α : Type} [Number α] [Lawful α]

/-- A margin is not negative, or negative, or not a number. -/
theorem margin_cases (t : α) : le 0 t = true ∨ lt t 0 = true ∨ exact t = .nan := by
  by_cases hnan : exact t = .nan
  · exact .inr (.inr hnan)
  by_cases hneg : lt t 0 = true
  · exact .inr (.inl hneg)
  · left
    rw [Lawful.lt_eq, Bool.not_eq_true] at hneg
    rw [Lawful.le_eq]
    exact le_of_not_lt_extRat hnan (by rw [Lawful.exact_zero]; simp) hneg

/-- The gap of a rational is above every negative margin. -/
theorem lt_gap_of_isRational {t x : α} (hneg : lt t 0 = true) (hx : IsRational x) :
    gt (integralityGap x) t = true := by
  obtain ⟨q, hq⟩ := hx
  rw [Lawful.lt_eq, Lawful.exact_zero] at hneg
  rw [gt, Lawful.lt_eq, Lawful.exact_gap, hq, ExtRat.integralityGap_fin]
  have hpos := abs_nonneg (q - ExtRat.nearestInt q)
  cases ht : exact t with
  | fin r =>
    rw [ht] at hneg
    have hr : r < 0 := of_decide_eq_true hneg
    exact decide_eq_true (lt_of_lt_of_le hr hpos)
  | negInf => rfl
  | posInf =>
    rw [ht] at hneg
    cases hneg
  | nan =>
    rw [ht] at hneg
    cases hneg

end Number

namespace Search

variable {α : Type} [Number α]

/-! ## The stack -/

omit [Number α] in
/-- What is added to a tree is never its root. -/
theorem mem_addOpen {tree : SearchTree α} {parent : Nat} {side : Side} {cut : Cut α}
    {box : Box α} {e : Pending α} (he : e ∈ (addOpen tree parent side cut box).2) :
    e.node ≠ SearchTree.rootId := by
  have hsize := tree.size_pos
  rw [addOpen, SearchTree.addChild?] at he
  cases hget : tree.get? parent with
  | none => simp [hget] at he
  | some above =>
    by_cases htaken : (above.childOn side).isSome = true
    · simp [hget, htaken] at he
    · simp only [hget, if_neg htaken, List.mem_singleton] at he
      rw [he]
      show tree.nodes.size ≠ 0
      omega

theorem mem_of_splitColumn? {p : Program α} {tolerance : α} {box : Box α} {values : List α}
    {i : Nat} (h : splitColumn? p tolerance box values = some i) : i ∈ p.integerColumns := by
  unfold splitColumn? at h
  cases hb : branchingColumn? p tolerance values with
  | some j =>
    rw [hb, Option.some.injEq] at h
    exact h ▸ (branchingColumn?_some hb).1
  | none =>
    simp only [hb] at h
    by_cases hrows : p.satisfiesRows (snap p values) tolerance = true
    · simp [hrows] at h
    · rw [if_neg hrows] at h
      exact (leastIntegralColumn?_some h).1

/-- What a turn puts on the stack is not the root, and comes from a whole column. -/
theorem Concluded.stack_cases {p : Program α} {tolerance : α} {s next : State α}
    {here : Pending α} {relaxation : Relaxation α}
    (hc : Concluded p tolerance s here relaxation next) {e : Pending α} (he : e ∈ next.stack) :
    e ∈ s.stack ∨ (e.node ≠ SearchTree.rootId ∧ p.integerColumns ≠ []) := by
  cases hc with
  | branched values objective column better chosen =>
    simp only [split, State.recorded, List.mem_append] at he
    have hcolumns : p.integerColumns ≠ [] := List.ne_nil_of_mem (mem_of_splitColumn? chosen)
    rcases he with he | he
    · have hnew : e.node ≠ SearchTree.rootId := by
        split at he <;> rcases List.mem_append.mp he with he | he <;> exact mem_addOpen he
      exact .inr ⟨hnew, hcolumns⟩
    · exact .inl he
  | _ => exact .inl he

/-- The search has not begun, or the root is done with, and with it everything if no
column has to be whole. -/
def PastRoot (p : Program α) (s : State α) : Prop :=
  s = .initial p
    ∨ ((∀ e ∈ s.stack, e.node ≠ SearchTree.rootId) ∧ (p.integerColumns = [] → s.stack = []))

section Runs

variable {p : Program α} {limits : Limits α} {oracle : Oracle α} {watch : Nat → Sighting}

theorem Concluded.pastRoot {s next : State α} {here : Pending α} {rest : List (Pending α)}
    {relaxation : Relaxation α} {tolerance : α} (h : PastRoot p s)
    (hstack : s.stack = here :: rest)
    (hc : Concluded p tolerance (s.taken rest) here relaxation next) :
    (∀ e ∈ next.stack, e.node ≠ SearchTree.rootId)
      ∧ (p.integerColumns = [] → next.stack = []) := by
  -- whatever was left on the stack is not the root, and is there because of whole columns
  have hrest : ∀ e ∈ rest, e.node ≠ SearchTree.rootId ∧ p.integerColumns ≠ [] := by
    intro e he
    rcases h with rfl | ⟨hroot, hnone⟩
    · have : rest = [] := by
        rw [State.initial] at hstack
        simpa using (List.cons.inj hstack).2.symm
      rw [this] at he
      cases he
    · refine ⟨hroot e (hstack ▸ List.mem_cons_of_mem _ he), fun hcolumns => ?_⟩
      have := hnone hcolumns
      rw [hstack] at this
      cases this
  have hall : ∀ e ∈ next.stack, e.node ≠ SearchTree.rootId ∧ p.integerColumns ≠ [] := by
    intro e he
    rcases hc.stack_cases he with he | hnew
    · exact hrest e he
    · exact hnew
  refine ⟨fun e he => (hall e he).1, fun hcolumns => ?_⟩
  by_contra hne
  obtain ⟨e, he⟩ := List.exists_mem_of_ne_nil _ hne
  exact (hall e he).2 hcolumns

theorem Reachable.pastRoot {s : State α} (reached : Reachable p limits oracle watch s) :
    PastRoot p s :=
  reached.turns (.inl rfl) fun _ _ _ _ _ _ ih hstack _ hc => .inr (hc.pastRoot ih hstack)

end Runs

/-! ## What is taken with a negative margin -/

section Taken

variable [Lawful α] [Absorbing α] {p : Program α} {tolerance : α} {values : List α}

/-- If a whole column is not finite, neither is the objective of the rounded point. -/
theorem not_isRational_objectiveValue {i : Nat} (hi : i ∈ p.integerColumns)
    (h : ¬ IsRational (Number.valueAt values i)) :
    ¬ IsRational (p.objectiveValue (snap p values)) := by
  obtain ⟨hlt, hinteger⟩ := Program.mem_integerColumns.mp hi
  -- beyond the end of the list the value would be zero
  have hlen : i < values.length := by
    by_contra hge
    rw [Number.valueAt, List.getD_eq_default _ _ (by omega)] at h
    exact h ⟨0, Lawful.exact_zero⟩
  rw [Number.valueAt, List.getD_eq_getElem _ _ hlen] at h
  have hwhole : p.columns[i].integer = true := by
    simpa [Program.isInteger, hlt] using hinteger
  have hsnap : i < (snap p values).length := by
    rw [snap, List.length_zipWith]
    omega
  have hget : (snap p values)[i] = Number.round values[i] := by
    simp only [snap, List.getElem_zipWith]
    exact if_pos hwhole
  have hmem : p.columns[i].objective * Number.round values[i]
      ∈ List.zipWith (fun (c : Program.Column α) v => c.objective * v) p.columns
          (snap p values) := by
    rw [List.mem_iff_getElem]
    exact ⟨i, by rw [List.length_zipWith]; omega, by rw [List.getElem_zipWith, hget]⟩
  have hterm := Absorbing.mul_right p.columns[i].objective _ (Absorbing.round values[i] h)
  exact Number.not_isRational_add_left _ (Number.not_isRational_sum hmem hterm)

/-- With a negative margin a node is left unsplit only if there is nothing to split it at,
or its objective is not finite. -/
theorem not_isRational_of_unsplit {box : Box α} (hneg : Number.lt tolerance 0 = true)
    (unsplit : splitColumn? p tolerance box values = none) :
    p.integerColumns = [] ∨ ¬ IsRational (p.objectiveValue (snap p values)) := by
  by_cases hnil : p.integerColumns = []
  · exact .inl hnil
  obtain ⟨i, hi⟩ := List.exists_mem_of_ne_nil _ hnil
  refine .inr (not_isRational_objectiveValue hi fun hrational => ?_)
  have hgap := branchingColumn?_none (splitColumn?_none unsplit).1 i hi
  rw [Number.lt_gap_of_isRational hneg hrational] at hgap
  cases hgap

/-- With a negative margin, an incumbent is the last word or not finite. -/
def Settles (tolerance : α) (s : State α) : Prop :=
  Number.lt tolerance 0 = true → ∀ best, s.incumbent = some best →
    s.stack = [] ∨ ¬ IsRational best.objective

theorem Concluded.settles {s next : State α} {here : Pending α} {rest : List (Pending α)}
    {relaxation : Relaxation α} (h : Settles tolerance s) (hpast : PastRoot p s)
    (hstack : s.stack = here :: rest)
    (hc : Concluded p tolerance (s.taken rest) here relaxation next) : Settles tolerance next := by
  intro hneg best hbest
  have hold : ∀ old, s.incumbent = some old → ¬ IsRational old.objective := by
    intro old hincumbent
    refine (h hneg old hincumbent).resolve_left fun hempty => ?_
    rw [hstack] at hempty
    cases hempty
  have hnext := (hc.pastRoot hpast hstack).2
  cases hc with
  | accepted values objective better unsplit improves =>
    obtain rfl : _ = best := Option.some.inj hbest
    rcases not_isRational_of_unsplit hneg unsplit with hnil | hinfinite
    · exact .inl (hnext hnil)
    · exact .inr hinfinite
  | branched values objective column better chosen =>
    rw [incumbent_split] at hbest
    exact .inr (hold best hbest)
  | _ => exact .inr (hold best hbest)

theorem Reachable.settles {limits : Limits α} {oracle : Oracle α} {watch : Nat → Sighting}
    {s : State α} (reached : Reachable p limits oracle watch s) : Settles limits.tolerance s := by
  refine reached.turns (fun _ best hbest => ?_)
    fun s here rest relaxation next before ih hstack _ hc => hc.settles ih before.pastRoot hstack
  cases hbest

end Taken

/-! ## Incumbents over time -/

/-- An incumbent is still there, or there is a better one. -/
def NoWorse (p : Program α) (before after : Option (Incumbent α)) : Prop :=
  ∀ old, before = some old → ∃ new, after = some new
    ∧ (new.objective = old.objective ∨ p.sense.ahead new.objective old.objective = true)

theorem NoWorse.refl (p : Program α) (incumbent : Option (Incumbent α)) :
    NoWorse p incumbent incumbent :=
  fun old h => ⟨old, h, .inl rfl⟩

variable [Lawful α]

theorem NoWorse.trans {p : Program α} {a b c : Option (Incumbent α)} (hab : NoWorse p a b)
    (hbc : NoWorse p b c) : NoWorse p a c := by
  intro old hold
  obtain ⟨middle, hmiddle, h₁⟩ := hab old hold
  obtain ⟨new, hnew, h₂⟩ := hbc middle hmiddle
  refine ⟨new, hnew, ?_⟩
  rcases h₁ with h₁ | h₁ <;> rcases h₂ with h₂ | h₂
  · exact .inl (h₂.trans h₁)
  · exact .inr (h₁ ▸ h₂)
  · exact .inr (h₂ ▸ h₁)
  · exact .inr (Sense.ahead_trans h₂ h₁)

variable [Absorbing α] {p : Program α} {limits : Limits α} {oracle : Oracle α}
  {watch : Nat → Sighting}

/-- **One turn** replaces an incumbent by a better one only. -/
theorem Concluded.noWorse {tolerance : α} {s next : State α} {here : Pending α}
    {rest : List (Pending α)} {relaxation : Relaxation α} (hsettles : Settles tolerance s)
    (hstack : s.stack = here :: rest)
    (hc : Concluded p tolerance (s.taken rest) here relaxation next) :
    NoWorse p s.incumbent next.incumbent := by
  cases hc with
  | accepted values objective better unsplit improves =>
    intro old hold
    refine ⟨_, rfl, .inr ?_⟩
    have hbeats : p.sense.improves (p.objectiveValue (snap p values)) old.objective tolerance
        = true := by
      have htaken : (s.taken rest).incumbent = some old := hold
      rw [htaken] at improves
      exact improves
    rcases Number.margin_cases tolerance with hnonneg | hneg | hnan
    · exact Sense.ahead_of_improves hnonneg hbeats
    · have hinfinite : ¬ IsRational old.objective := by
        refine (hsettles hneg old hold).resolve_left fun hempty => ?_
        rw [hstack] at hempty
        cases hempty
      exact Sense.ahead_of_improves_of_not_isRational hinfinite hbeats
    · rw [Sense.improves_of_nan _ _ _ hnan] at hbeats
      cases hbeats
  | branched values objective column better chosen =>
    rw [incumbent_split]
    exact NoWorse.refl p _
  | _ => exact NoWorse.refl p _

/-- **Incumbents get better as turns are taken**, for every oracle and every tolerance. -/
theorem noWorse_of_le {j k : Nat} (hle : j ≤ k) {s later : State α}
    (hs : stateAfter? p limits oracle watch j = some s)
    (hlater : stateAfter? p limits oracle watch k = some later) :
    NoWorse p s.incumbent later.incumbent := by
  induction k, hle using Nat.le_induction generalizing later with
  | base =>
    rw [hs, Option.some.injEq] at hlater
    rw [hlater]
    exact NoWorse.refl p _
  | succ k _ ih =>
    obtain ⟨before, hbefore, hstep⟩ := stateAfter?_succ_eq_some_iff.mp hlater
    obtain ⟨here, rest, relaxation, hstack, -, -, hc⟩ := step_proceed hstep
    have hsettles := (reachable_iff.mpr ⟨k, hbefore⟩).settles
    exact (ih hbefore).trans (hc.noWorse hsettles hstack)

end Search

end Milp
