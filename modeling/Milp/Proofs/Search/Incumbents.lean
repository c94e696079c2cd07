/-
The nodes marked as incumbents, and the one whose point is returned.

A node keeps the mark when a better point is found later, so a tree may have several of
them. `Crowns` is what the search preserves: one marked node produced the incumbent, and
every other marked node has a point that is strictly worse. The second part is a chain of
improvements. Each new incumbent beats the one before it, and a margin that is not
negative never turns a worse objective into a better one.

`SearchTree.incumbent?` looks for the last marked node of the table. The order of the
table is the order in which nodes were made, and the search does not visit them in this
order: of two halves it may visit the later one first. So the last marked node need not
be the one that produced the incumbent. It is exactly if no node marked before it stands
behind it (`incumbent?_of_answered`), and `twoIncumbents` is a run in which one does.
-/
import Milp.Proofs.Search.Partition

set_option autoImplicit false

namespace Milp

/-! ## Marked nodes of a tree -/

namespace SearchTree

variable {α : Type}

/-- The node at a position is marked as an incumbent. -/
def Crowned (t : SearchTree α) (k : Nat) (n : Node α) : Prop :=
  t.get? k = some n ∧ n.outcome = .incumbent

/-- Changing a node that is not marked, before and after, changes no mark. -/
theorem crowned_modify {t : SearchTree α} {id : Nat} {n : Node α} {change : Node α → Node α}
    (there : t.get? id = some n) (before : n.outcome ≠ .incumbent)
    (after : (change n).outcome ≠ .incumbent) (k : Nat) (m : Node α) :
    (t.modify id change).Crowned k m ↔ t.Crowned k m := by
  rw [Crowned, Crowned, get?_modify]
  by_cases hk : k = id
  · rw [if_pos hk, hk, there]
    constructor
    · rintro ⟨hm, hmark⟩
      rw [Option.map_some, Option.some.injEq] at hm
      rw [← hm] at hmark
      exact absurd hmark after
    · rintro ⟨hm, hmark⟩
      rw [Option.some.injEq] at hm
      rw [← hm] at hmark
      exact absurd hmark before
  · rw [if_neg hk]

theorem incumbent?_eq_some {t : SearchTree α} {k : Nat} {n : Node α} (h : t.Crowned k n)
    (last : ∀ j m, t.Crowned j m → j ≤ k) : t.incumbent? = some n := by
  obtain ⟨hk, rfl⟩ := Array.getElem?_eq_some_iff.mp h.1
  have hlen : k < t.nodes.toList.length := hk
  have hsplit : t.nodes.toList = t.nodes.toList.take k
      ++ t.nodes.toList[k] :: t.nodes.toList.drop (k + 1) := by
    rw [List.cons_getElem_drop_succ, List.take_append_drop]
  rw [incumbent?, hsplit, List.reverse_append, List.reverse_cons, List.find?_append,
    List.find?_append]
  -- nothing behind the node is marked
  have hbehind : ((t.nodes.toList.drop (k + 1)).reverse.find?
      fun node => node.outcome == .incumbent) = none := by
    rw [List.find?_eq_none]
    intro m hm hmark
    obtain ⟨i, hi, rfl⟩ := List.mem_iff_getElem.mp (List.mem_reverse.mp hm)
    rw [List.getElem_drop] at hmark
    have hj : k + 1 + i < t.nodes.size := by
      rw [List.length_drop, Array.length_toList] at hi
      omega
    have := last (k + 1 + i) t.nodes[k + 1 + i]
      ⟨Array.getElem?_eq_getElem hj, by simpa using hmark⟩
    omega
  have hhere : (t.nodes.toList[k].outcome == NodeOutcome.incumbent) = true := by
    simpa using h.2
  rw [hbehind, List.find?_singleton, if_pos hhere]
  rfl

/-- What is found is marked, and nothing behind it is. -/
theorem crowned_of_incumbent? {t : SearchTree α} {n : Node α} (h : t.incumbent? = some n) :
    ∃ k, t.Crowned k n ∧ ∀ j m, t.Crowned j m → j ≤ k := by
  have hmem := List.mem_of_find?_eq_some h
  have hmark := List.find?_some h
  -- the marked positions are finitely many, so one of them is the last
  have hexists : ∃ k, k ≤ t.size ∧ ∃ m, t.Crowned k m := by
    obtain ⟨k, hk, heq⟩ := List.mem_iff_getElem.mp (List.mem_reverse.mp hmem)
    rw [Array.length_toList] at hk
    refine ⟨k, hk.le, n, ?_, by simpa using hmark⟩
    show t.nodes[k]? = some n
    rw [Array.getElem?_eq_getElem hk, ← heq]
    simp
  obtain ⟨k, m, hm, hlast⟩ : ∃ k m, t.Crowned k m ∧ ∀ j o, t.Crowned j o → j ≤ k := by
    classical
    obtain ⟨k, hle, m, hm⟩ := hexists
    have hgreatest := Nat.findGreatest_spec (P := fun k => ∃ m, t.Crowned k m) hle ⟨m, hm⟩
    obtain ⟨m', hm'⟩ := hgreatest
    exact ⟨_, m', hm', fun j o ho =>
      Nat.le_findGreatest (lt_size_of_get? ho.1).le ⟨o, ho⟩⟩
  -- the search from the end of the table finds that one, so it is what was found
  have hfound := incumbent?_eq_some hm hlast
  rw [h, Option.some.injEq] at hfound
  rw [hfound]
  exact ⟨k, hm, hlast⟩

end SearchTree

/-! ## Strictly better objectives -/

/-- Whether an objective is strictly better than another one. -/
def Sense.ahead {α : Type} [Number α] (sense : Sense) (candidate other : α) : Bool :=
  match sense with
  | .minimize => Number.lt candidate other
  | .maximize => Number.gt candidate other

namespace Sense

variable {α : Type} [Number α] [Number.Lawful α]

/-- Beating by a margin that is not negative is being better. -/
theorem ahead_of_improves {sense : Sense} {candidate other margin : α}
    (nonneg : Number.le 0 margin = true) (h : sense.improves candidate other margin = true) :
    sense.ahead candidate other = true := by
  cases sense with
  | minimize => exact Number.Lawful.lt_of_lt_sub candidate other margin nonneg h
  | maximize => exact Number.Lawful.lt_of_add_lt other candidate margin nonneg h

theorem ahead_trans {sense : Sense} {a b c : α} (hab : sense.ahead a b = true)
    (hbc : sense.ahead b c = true) : sense.ahead a c = true := by
  cases sense with
  | minimize => exact Number.lt_trans_of_lawful hab hbc
  | maximize => exact Number.lt_trans_of_lawful hbc hab

theorem ahead_irrefl (sense : Sense) (a : α) : sense.ahead a a = false := by
  cases sense <;> exact Number.lt_irrefl_of_lawful a

end Sense

namespace Search

open Number (Lawful)

variable {α : Type} [Number α]

/-! ## The invariant -/

/-- One marked node produced a point, and the points of the others are worse. -/
structure Produced (p : Program α) (t : SearchTree α) (best : Incumbent α) (k : Nat)
    (n : Node α) : Prop where
  crowned : t.Crowned k n
  values : snap p n.values = best.values
  objective : best.objective = p.objectiveValue best.values
  others : ∀ j m, t.Crowned j m → j ≠ k →
    p.sense.ahead best.objective (p.objectiveValue (snap p m.values)) = true

/-- The incumbent was produced by a marked node; without one there is no mark. -/
def Crowns (p : Program α) (s : State α) : Prop :=
  match s.incumbent with
  | none => ∀ k n, ¬ s.tree.Crowned k n
  | some best => ∃ k n, Produced p s.tree best k n

theorem crowns_initial (p : Program α) : Crowns p (.initial p) := by
  rintro k n ⟨hk, hmark⟩
  rw [(SearchTree.eq_of_get?_initial hk).2] at hmark
  cases hmark

/-- A step that neither marks a node nor changes the incumbent preserves the invariant. -/
theorem Crowns.of_same {p : Program α} {s next : State α} (h : Crowns p s)
    (hincumbent : next.incumbent = s.incumbent)
    (hcrowned : ∀ k m, next.tree.Crowned k m ↔ s.tree.Crowned k m) : Crowns p next := by
  unfold Crowns at h ⊢
  rw [hincumbent]
  cases hs : s.incumbent with
  | none =>
    rw [hs] at h
    intro k n hk
    exact h k n ((hcrowned k n).mp hk)
  | some best =>
    rw [hs] at h
    obtain ⟨k, n, hp⟩ := h
    exact ⟨k, n, (hcrowned k n).mpr hp.crowned, hp.values, hp.objective,
      fun j m hj => hp.others j m ((hcrowned j m).mp hj)⟩

/-! ## The marks after a step -/

omit [Number α] in
theorem crowned_marked {s : State α} {node : Nat} {n : Node α} {outcome : NodeOutcome}
    (there : s.tree.get? node = some n) (pending : n.outcome = .pending)
    (other : outcome ≠ .incumbent) (k : Nat) (m : Node α) :
    (s.marked node outcome).tree.Crowned k m ↔ s.tree.Crowned k m :=
  SearchTree.crowned_modify there (by rw [pending]; decide) other k m

omit [Number α] in
theorem crowned_recorded {s : State α} {node : Nat} {n : Node α} (values : List α)
    (objective : α) (there : s.tree.get? node = some n) (pending : n.outcome = .pending)
    (k : Nat) (m : Node α) :
    (s.recorded node values objective).tree.Crowned k m ↔ s.tree.Crowned k m :=
  SearchTree.crowned_modify there (by rw [pending]; decide)
    (show n.outcome ≠ .incumbent by rw [pending]; decide) k m

theorem crowned_split {p : Program α} {s next : State α} {here : Pending α} {n : Node α}
    {column : Nat} {value : α} (there : s.tree.get? here.node = some n)
    (pending : n.outcome = .pending) (hb : Branches p s next here n column value)
    (k : Nat) (m : Node α) : next.tree.Crowned k m ↔ s.tree.Crowned k m := by
  constructor
  · rintro ⟨hk, hmark⟩
    rcases hb.node_cases hk with ⟨-, rfl⟩ | ⟨-, rfl⟩ | ⟨-, -, -, hbranched⟩ | ⟨-, hold⟩
    · cases hmark
    · cases hmark
    · rw [hbranched] at hmark
      cases hmark
    · exact ⟨hold, hmark⟩
  · rintro ⟨hk, hmark⟩
    have hne : k ≠ here.node := by
      rintro rfl
      rw [there, Option.some.injEq] at hk
      rw [← hk, pending] at hmark
      cases hmark
    exact ⟨hb.get?_old hne hk, hmark⟩

omit [Number α] in
/-- A node that is accepted is marked, and it is the only new mark. -/
theorem crowned_accepted {s : State α} {node : Nat} {n : Node α} (values : List α)
    (objective : α) (there : s.tree.get? node = some n) (pending : n.outcome = .pending)
    (k : Nat) (m : Node α) :
    ((s.recorded node values objective).marked node .incumbent).tree.Crowned k m
      ↔ (k = node
          ∧ m = { n with relaxation := some objective, values := values, outcome := .incumbent })
        ∨ (k ≠ node ∧ s.tree.Crowned k m) := by
  rw [SearchTree.Crowned]
  show ((s.recorded node values objective).tree.mark node .incumbent).get? k = some m ∧ _ ↔ _
  rw [SearchTree.get?_mark]
  by_cases hk : k = node
  · subst hk
    rw [if_pos rfl, get?_recorded values objective there, Option.map_some, Option.some.injEq]
    constructor
    · rintro ⟨rfl, -⟩
      exact .inl ⟨rfl, rfl⟩
    · rintro (⟨-, rfl⟩ | ⟨hne, -⟩)
      · exact ⟨rfl, rfl⟩
      · exact absurd rfl hne
  · rw [if_neg hk]
    have hold := crowned_recorded values objective there pending k m
    rw [SearchTree.Crowned] at hold
    rw [hold]
    tauto

/-- **One step.** The incumbent stays the best of the marked nodes. -/
theorem Concluded.crowns [Lawful α] {p : Program α} {tolerance : α} {s next : State α}
    {here : Pending α} {relaxation : Relaxation α} {n : Node α}
    (nonneg : Number.le 0 tolerance = true) (h : Crowns p s)
    (there : s.tree.get? here.node = some n) (leaf : n.IsLeaf) (pending : n.outcome = .pending)
    (hc : Concluded p tolerance s here relaxation next) : Crowns p next := by
  cases hc with
  | infeasible => exact h.of_same rfl (crowned_marked there pending (by decide))
  | unbounded below => exact h.of_same rfl (crowned_marked there pending (by decide))
  | pruned values objective worse =>
    refine h.of_same rfl fun k m => ?_
    rw [crowned_marked (get?_recorded values objective there) pending (by decide),
      crowned_recorded values objective there pending]
  | integral values objective better unsplit fails =>
    refine h.of_same rfl fun k m => ?_
    rw [crowned_marked (get?_recorded values objective there) pending (by decide),
      crowned_recorded values objective there pending]
  | branched values objective column better chosen =>
    refine h.of_same (incumbent_split ..) ?_
    exact crowned_split there pending
      (branches_split p here values objective column (Number.valueAt values column) there leaf)
  | accepted values objective better unsplit improves =>
    have hcrowned := crowned_accepted values objective there pending
    refine ⟨here.node, _, (hcrowned _ _).mpr (.inl ⟨rfl, rfl⟩), rfl, rfl, fun j m hj hne => ?_⟩
    have hold : s.tree.Crowned j m := by
      rcases (hcrowned j m).mp hj with hj | hj
      · exact absurd hj.1 hne
      · exact hj.2
    unfold Crowns at h
    cases hs : s.incumbent with
    | none =>
      rw [hs] at h
      exact absurd hold (h j m)
    | some best =>
      rw [hs] at h
      obtain ⟨k, o, hp⟩ := h
      rw [hs] at improves
      -- the old incumbent is beaten, and the other marked points were worse than it already
      have hahead := Sense.ahead_of_improves nonneg improves
      by_cases hjk : j = k
      · have hsame : m = o := by
          have := hold.1
          rw [hjk, hp.crowned.1, Option.some.injEq] at this
          exact this.symm
        rw [hsame, hp.values, ← hp.objective]
        exact hahead
      · exact Sense.ahead_trans hahead (hp.others j m hold hjk)

theorem Reachable.crowns [Lawful α] {p : Program α} {limits : Limits α} {oracle : Oracle α}
    {watch : Nat → Sighting} (nonneg : Number.le 0 limits.tolerance = true) {s : State α}
    (reached : Reachable p limits oracle watch s) : Crowns p s := by
  refine reached.turns (crowns_initial p)
    fun s here rest relaxation next before ih hstack _ hc => ?_
  obtain ⟨n, hn, hleaf, hpending⟩ := (before.tracks_and_partitions nonneg).1.top_pending hstack
  exact hc.crowns (s := s.taken rest) nonneg ih hn hleaf hpending

/-! ## Runs -/

/-- **Which marked node is returned, and when it is the one the tree names.** A returned
point was produced by a marked node, and the point of every other marked node is strictly
worse. The tree names a node with the returned point exactly if no marked node stands
behind that one. -/
theorem incumbent?_of_answered [Lawful α] (p : Program α) (limits : Limits α)
    (oracle : Oracle α) (watch : Nat → Sighting) (steps : Nat)
    (nonneg : Number.le 0 limits.tolerance = true) (answer : Answer α) (values : List α)
    (answered : run p limits oracle watch steps = .answered answer)
    (solution : answer.values = some values) :
    ∃ t k n, answer.tree = some t ∧ t.Crowned k n ∧ snap p n.values = values
      ∧ answer.objective = some (p.objectiveValue values)
      ∧ (∀ j m, t.Crowned j m → j ≠ k →
          p.sense.ahead (p.objectiveValue values) (p.objectiveValue (snap p m.values)) = true)
      ∧ ((∃ named, t.incumbent? = some named ∧ snap p named.values = values)
          ↔ ∀ j m, t.Crowned j m → j ≤ k) := by
  obtain ⟨s, best, reached, hbest, rfl, hobj, htree⟩ := values_of_answered answered solution
  have hcrowns := reached.crowns nonneg
  rw [Crowns, hbest] at hcrowns
  obtain ⟨k, n, hp⟩ := hcrowns
  have hothers := hp.others
  rw [hp.objective] at hobj hothers
  refine ⟨s.tree, k, n, htree, hp.crowned, hp.values, hobj, hothers, ?_, ?_⟩
  · rintro ⟨named, hnamed, hsnap⟩
    obtain ⟨j, hj, hlast⟩ := SearchTree.crowned_of_incumbent? hnamed
    by_cases hjk : j = k
    · exact hjk ▸ hlast
    · -- another node with the returned point would be strictly worse than itself
      have := hothers j named hj hjk
      rw [hsnap, Sense.ahead_irrefl] at this
      cases this
  · intro hlast
    exact ⟨n, SearchTree.incumbent?_eq_some hp.crowned hlast, hp.values⟩

/-- Maximize `x + y` for a whole `x` from 0 to 1 and a `y` from -2 to 2, where
`y - x ≤ 1` and `4 x + y ≤ 3`. -/
def twoIncumbents : Program ExtRat where
  columns := [⟨"x", ⟨.fin 0, .fin 1⟩, true, .fin 1⟩, ⟨"y", ⟨.fin (-2), .fin 2⟩, false, .fin 1⟩]
  rows := [⟨"c0", [(0, .fin (-1)), (1, .fin 1)], .atMost, .fin 1⟩,
    ⟨"c1", [(0, .fin 4), (1, .fin 1)], .atMost, .fin 3⟩]
  sense := .maximize
  constant := .fin 0

/-- The right half of the root is visited first and gives `(1, -1)`; the left half then
gives `(0, 1)`, which is returned. The tree names the node of `(1, -1)`. -/
theorem incumbent?_twoIncumbents :
    ∃ answer t named,
      run twoIncumbents exactLimits (twoIncumbents.relax 0) (fun _ => ⟨false, .zero⟩) 4
        = .answered answer
      ∧ answer.status = .optimal ∧ answer.values = some [.fin 0, .fin 1] ∧ answer.tree = some t
      ∧ t.incumbent? = some named ∧ snap twoIncumbents named.values = [.fin 1, .fin (-1)] := by
  have hrun : (run twoIncumbents exactLimits (twoIncumbents.relax 0)
      (fun _ => ⟨false, .zero⟩) 4).answer?.map (fun answer => (answer.status, answer.values,
        answer.tree.bind fun t => t.incumbent?.map fun named => snap twoIncumbents named.values))
      = some (.optimal, some [.fin 0, .fin 1], some [.fin 1, .fin (-1)]) := by decide +kernel
  obtain ⟨answer, hanswer, heq⟩ := Option.map_eq_some_iff.mp hrun
  simp only [Prod.mk.injEq] at heq
  obtain ⟨hstatus, hvalues, hnamed⟩ := heq
  obtain ⟨t, ht, hnamed⟩ := Option.bind_eq_some_iff.mp hnamed
  obtain ⟨named, hfound, hsnap⟩ := Option.map_eq_some_iff.mp hnamed
  exact ⟨answer, t, named, Run.eq_answered_of_answer? hanswer, hstatus, hvalues, ht, hfound, hsnap⟩

/-- In this run the produced node has a marked node behind it. -/
theorem incumbent?_of_answered_twoIncumbents :
    ∃ answer t k n,
      run twoIncumbents exactLimits (twoIncumbents.relax 0) (fun _ => ⟨false, .zero⟩) 4
        = .answered answer
      ∧ answer.tree = some t ∧ t.Crowned k n
      ∧ snap twoIncumbents n.values = [ExtRat.fin 0, .fin 1]
      ∧ ((∃ named, t.incumbent? = some named
            ∧ snap twoIncumbents named.values = [ExtRat.fin 0, .fin 1])
          ↔ ∀ j m, t.Crowned j m → j ≤ k) := by
  have hrun : (run twoIncumbents exactLimits (twoIncumbents.relax 0)
      (fun _ => ⟨false, .zero⟩) 4).answer?.map (·.values) = some (some [.fin 0, .fin 1]) := by
    decide +kernel
  obtain ⟨answer, hanswer, hvalues⟩ := Option.map_eq_some_iff.mp hrun
  have hrun := Run.eq_answered_of_answer? hanswer
  obtain ⟨t, k, n, ht, hk, hsnap, -, -, hiff⟩ := incumbent?_of_answered twoIncumbents exactLimits
    (twoIncumbents.relax 0) _ 4 (by decide +kernel) answer _ hrun hvalues
  exact ⟨answer, t, k, n, hrun, ht, hk, hsnap, hiff⟩

end Search

end Milp
