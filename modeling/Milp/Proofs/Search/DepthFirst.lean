/-
The search goes down first, and into the half that the objective prefers.

The order comes about in several places. A split puts its two halves on the stack, the
preferred one above the other; a turn takes the top; and the halves of that node come to
lie where it was. Two invariants of the stack say what this amounts to over a whole run.

* `Before`: what is pending below the first half lies above the second half, as long as
  the second half is there. So when the second half is taken, nothing is pending below the
  first one. From then on nothing is added below it either, since children are added below
  pending nodes only (`searchedFirst`).
* `Steep`: below the top, no two nodes on the stack have the same depth, and none is deeper
  than the top. So below a node of depth `d` there are at most `d` others
  (`Steep.length_le`), however large the tree is.

Both hold for every oracle and every tolerance, and wherever the search is stopped.
-/
import Milp.Proofs.Search.Order

set_option autoImplicit false

namespace Milp

/-- The depth of the node at a position. -/
def SearchTree.depthAt {α : Type} (t : SearchTree α) (i : Nat) : Nat :=
  ((t.get? i).map (·.depth)).getD 0

namespace SearchTree

variable {α : Type} {t t' : SearchTree α} {i : Nat} {n : Node α}

theorem depthAt_eq (hn : t.get? i = some n) : t.depthAt i = n.depth := by
  rw [depthAt, hn]
  rfl

theorem Extends.depthAt_eq (h : t.Extends t') (hn : t.get? i = some n) :
    t'.depthAt i = t.depthAt i := by
  obtain ⟨m, hm, hbecomes⟩ := h i n hn
  rw [SearchTree.depthAt_eq hm, SearchTree.depthAt_eq hn, hbecomes.depth]

/-- A node is split at a column: the lower half is on its left, the upper one on its
right. -/
structure Halved (t : SearchTree α) (i column left right : Nat) : Prop where
  node : ∃ n, t.get? i = some n ∧ n.left = some left ∧ n.right = some right
  lower : ∃ n c, t.get? left = some n ∧ n.parent = some i ∧ n.lastCut? = some c
    ∧ c.column = column ∧ c.upper = true
  upper : ∃ n c, t.get? right = some n ∧ n.parent = some i ∧ n.lastCut? = some c
    ∧ c.column = column ∧ c.upper = false

end SearchTree

namespace Search

/-! ## Depths on a stack -/

/-- Depths from the top of a stack down. Below the top they fall strictly, and they are
neither zero nor larger than that of the top. -/
def Steep : List Nat → Prop
  | [] => True
  | depth :: below => below.Pairwise (· > ·) ∧ ∀ d ∈ below, 0 < d ∧ d ≤ depth

section Steep

variable {depth : Nat} {below : List Nat}

/-- So many different depths there are. -/
theorem length_le_of_pairwise_gt {depths : List Nat} (falls : depths.Pairwise (· > ·))
    (within : ∀ d ∈ depths, 0 < d ∧ d ≤ depth) : depths.length ≤ depth := by
  induction depths generalizing depth with
  | nil => exact Nat.zero_le depth
  | cons d depths ih =>
    obtain ⟨hless, hfalls⟩ := List.pairwise_cons.mp falls
    have hd := within d List.mem_cons_self
    have hrest : ∀ e ∈ depths, 0 < e ∧ e ≤ d - 1 := by
      intro e he
      have hpos := (within e (List.mem_cons_of_mem d he)).1
      have hlt := hless e he
      omega
    have hlen := ih hfalls hrest
    rw [List.length_cons]
    omega

theorem Steep.length_le (h : Steep (depth :: below)) : below.length ≤ depth :=
  length_le_of_pairwise_gt h.1 h.2

theorem Steep.pop (h : Steep (depth :: below)) : Steep below := by
  unfold Steep at h
  cases below with
  | nil => trivial
  | cons d below =>
    obtain ⟨hless, hfalls⟩ := List.pairwise_cons.mp h.1
    refine ⟨hfalls, fun e he => ?_⟩
    have hpos := (h.2 e (List.mem_cons_of_mem d he)).1
    have hlt := hless e he
    omega

/-- Two nodes that are one deeper take the place of the top. -/
theorem Steep.push (h : Steep (depth :: below)) :
    Steep ((depth + 1) :: (depth + 1) :: below) := by
  unfold Steep at h
  refine ⟨List.pairwise_cons.mpr ⟨fun d hd => ?_, h.1⟩, fun d hd => ?_⟩
  · have hle := (h.2 d hd).2
    omega
  · rcases List.mem_cons.mp hd with heq | hmem
    · omega
    · have hd := h.2 d hmem
      omega

end Steep

variable {α : Type} [Number α]

/-- The depths of the nodes on the stack. -/
def State.depths (s : State α) : List Nat := s.stack.map fun e => s.tree.depthAt e.node

/-! ## What a turn does to the stack -/

section Turn

variable {p : Program α} {tolerance : α} {s next : State α} {here : Pending α}
  {rest : List (Pending α)} {relaxation : Relaxation α} {n m : Node α}

theorem map_node_halves (p : Program α) (box : Box α) (column : Nat) (value : α) (first : Nat) :
    (halves p box column value first).map (·.node)
      = if prefersUp p column then [first + 1, first] else [first, first + 1] := by
  rw [halves]
  by_cases hup : prefersUp p column = true
  · rw [if_pos hup, if_pos hup]
    rfl
  · rw [if_neg hup, if_neg hup]
    rfl

/-- After a split the half that the objective prefers is on top, and the other one is next. -/
theorem SplitBy.map_node_stack {column : Nat} {value : α}
    (hb : SplitBy p s next here n m column value) :
    next.stack.map (·.node)
      = (if prefersUp p column then [s.tree.size + 1, s.tree.size]
          else [s.tree.size, s.tree.size + 1]) ++ s.stack.map (·.node) := by
  rw [hb.stack, List.map_append, map_node_halves]

theorem SplitBy.halved {column : Nat} {value : α}
    (hb : SplitBy p s next here n m column value) :
    next.tree.Halved here.node column s.tree.size (s.tree.size + 1) where
  node := ⟨m, hb.replaces.get?_itself, hb.splitsInto.left, hb.splitsInto.right⟩
  lower := ⟨_, _, hb.replaces.get?_first, rfl, List.getLast?_concat, rfl, rfl⟩
  upper := ⟨_, _, hb.replaces.get?_second, rfl, List.getLast?_concat, rfl, rfl⟩

/-- Everything behind the old table hangs below the node that was split. -/
theorem SplitBy.parent_of_le {column : Nat} {value : α}
    (hb : SplitBy p s next here n m column value) {i : Nat} {k : Node α}
    (hk : next.tree.get? i = some k) (hle : s.tree.size ≤ i) : k.parent = some here.node := by
  have hhere := SearchTree.lt_size_of_get? hb.replaces.there
  rcases hb.replaces.split_cases hk with ⟨-, rfl⟩ | ⟨-, rfl⟩ | ⟨hi, -⟩ | ⟨-, hold⟩
  · rfl
  · rfl
  · omega
  · have hlt := SearchTree.lt_size_of_get? hold
    omega

/-- **The nodes after a turn.** New ones are children of the node that was taken, and lie
on top of the stack. Of the others the same ones are pending, but for the one that was
taken. -/
theorem Concluded.node_cases (h : Books p s) (hstack : s.stack = here :: rest)
    (hc : Concluded p tolerance (s.taken rest) here relaxation next) :
    ∃ new : List Nat, next.stack.map (·.node) = new ++ rest.map (·.node)
      ∧ ∀ i k, next.tree.get? i = some k →
        (i ∈ new ∧ s.tree.size ≤ i ∧ k.parent = some here.node)
          ∨ ∃ n, s.tree.get? i = some n
            ∧ (k.outcome = .pending → i ≠ here.node ∧ n.outcome = .pending) := by
  obtain ⟨n, hn, hpending, hleaf, hunsolved⟩ := h.top hstack
  rcases hc.closedBy_or_splitBy (s := s.taken rest) hn hleaf hunsolved with
    ⟨m, hclosed⟩ | ⟨m, column, value, hsplit⟩
  · refine ⟨[], by rw [hclosed.stack]; rfl, fun i k hk => .inr ?_⟩
    rcases hclosed.replaces.node_cases hk with ⟨-, hnone⟩ | ⟨hi, hkm⟩ | ⟨hi, hold⟩
    · cases hnone
    · exact ⟨n, hi ▸ hn, fun hout => absurd (hkm ▸ hout) hclosed.concludes.pending⟩
    · exact ⟨k, hold, fun hout => ⟨hi, hout⟩⟩
  · have hhalves := (halves_nodes p here.box column value (s.taken rest).tree.size).2
    refine ⟨(halves p here.box column value (s.taken rest).tree.size).map (·.node), ?_, ?_⟩
    · rw [hsplit.stack, List.map_append]
      rfl
    intro i k hk
    rcases hsplit.replaces.split_cases hk with ⟨hi, rfl⟩ | ⟨hi, rfl⟩ | ⟨hi, hkm⟩ | ⟨hi, hold⟩
    · have hle : s.tree.size ≤ i := hi.ge
      exact .inl ⟨(hhalves i).mpr (.inl hi), hle, rfl⟩
    · have hle : s.tree.size ≤ i := Nat.le_of_succ_le hi.ge
      exact .inl ⟨(hhalves i).mpr (.inr hi), hle, rfl⟩
    · refine .inr ⟨n, hi ▸ hn, fun hout => ?_⟩
      rw [hkm, hsplit.splitsInto.outcome] at hout
      cases hout
    · exact .inr ⟨k, hold, fun hout => ⟨hi, hout⟩⟩

/-- **The depths after a turn.** The top is gone, or two nodes that are one deeper are in
its place. -/
theorem Concluded.depths (h : Books p s) (hstack : s.stack = here :: rest)
    (hn : s.tree.get? here.node = some n)
    (hc : Concluded p tolerance (s.taken rest) here relaxation next) :
    next.depths = rest.map (fun e => s.tree.depthAt e.node)
      ∨ next.depths
        = (n.depth + 1) :: (n.depth + 1) :: rest.map fun e => s.tree.depthAt e.node := by
  obtain ⟨n', hn', hpending, hleaf, hunsolved⟩ := h.top hstack
  obtain rfl : n' = n := Option.some.inj (hn'.symm.trans hn)
  -- what stays on the stack keeps its depth
  have hext : s.tree.Extends next.tree := hc.extends
  have hrest : rest.map (fun e => next.tree.depthAt e.node)
      = rest.map fun e => s.tree.depthAt e.node := by
    apply List.map_congr_left
    intro e he
    obtain ⟨-, k, hk, -⟩ := (h.rest_iff hstack e.node).mp (List.mem_map_of_mem he)
    exact hext.depthAt_eq hk
  rcases hc.closedBy_or_splitBy (s := s.taken rest) hn hleaf hunsolved with
    ⟨m, hclosed⟩ | ⟨m, column, value, hsplit⟩
  · refine .inl ?_
    rw [State.depths, hclosed.stack]
    exact hrest
  · refine .inr ?_
    have hfirst := SearchTree.depthAt_eq hsplit.replaces.get?_first
    have hsecond := SearchTree.depthAt_eq hsplit.replaces.get?_second
    rw [State.depths, hsplit.stack, List.map_append, halves]
    by_cases hup : prefersUp p column = true
    · rw [if_pos hup, List.map_cons, List.map_cons, hfirst, hsecond]
      exact congrArg (fun l => (n'.depth + 1) :: (n'.depth + 1) :: l) hrest
    · rw [if_neg hup, List.map_cons, List.map_cons, hfirst, hsecond]
      exact congrArg (fun l => (n'.depth + 1) :: (n'.depth + 1) :: l) hrest

/-! ## The first half before the second -/

/-- What is pending below the first of two nodes lies above the second one. -/
def Before (s : State α) (first second : Nat) : Prop :=
  ∀ i n, s.tree.get? i = some n → n.outcome = .pending → s.tree.IsBelow first i →
    [i, second].Sublist (s.stack.map (·.node))

/-- It is so right after a split, when both are on top of the stack. -/
theorem SplitBy.before {column : Nat} {value : α} (hb : SplitBy p s next here n m column value)
    (hl : next.tree.Linked) {first second : Nat} {below : List Nat}
    (hnodes : next.stack.map (·.node) = first :: second :: below)
    (new : s.tree.size ≤ first) : Before next first second := by
  intro i k hk _ hbelow
  have hle := hl.le_of_isBelow hk hbelow
  have hhere := SearchTree.lt_size_of_get? hb.replaces.there
  by_cases hi : i = first
  · rw [hi, hnodes]
    simp
  · -- a node that is not older has a parent that is, and that one is not below the first
    have hparent := hb.parent_of_le hk (by omega)
    rcases (hl.isBelow_iff hk first).mp hbelow with heq | ⟨parent, hup, hbelow'⟩
    · exact absurd heq hi
    · rw [hparent, Option.some.injEq] at hup
      have hle' := hl.le_of_isBelow hb.replaces.get?_itself (hup ▸ hbelow')
      omega

/-- **Every turn keeps the order**, whichever node it takes. -/
theorem Before.turn {first second : Nat} (hb : Before s first second) (h : Books p s)
    (hl : s.tree.Linked) (hstack : s.stack = here :: rest) (old : first < s.tree.size)
    (hc : Concluded p tolerance (s.taken rest) here relaxation next) :
    Before next first second := by
  have hext : s.tree.Extends next.tree := hc.extends
  have hl' : next.tree.Linked := hc.linked (s := s.taken rest) hl
  obtain ⟨new, hnodes, hcases⟩ := hc.node_cases h hstack
  intro i k hk hpending hbelow
  rw [hnodes]
  rcases hcases i k hk with ⟨hnew, hle, hparent⟩ | ⟨n, hn, hout⟩
  · -- a new node is below the first one because the node that was taken is
    rcases (hl'.isBelow_iff hk first).mp hbelow with heq | ⟨parent, hup, hbelow'⟩
    · omega
    · rw [hparent, Option.some.injEq] at hup
      obtain ⟨n, hn, hopen, -, -⟩ := h.top hstack
      have hthere := hb here.node n hn hopen
        ((hl.isBelow_extends hl' hext hn).mp (hup ▸ hbelow'))
      rw [hstack, List.map_cons, List.cons_sublist_cons, List.singleton_sublist] at hthere
      exact (List.singleton_sublist.mpr hnew).append (List.singleton_sublist.mpr hthere)
  · obtain ⟨hne, hopen⟩ := hout hpending
    have hthere := hb i n hn hopen ((hl.isBelow_extends hl' hext hn).mp hbelow)
    rw [hstack, List.map_cons] at hthere
    have hrest : [i, second].Sublist (rest.map (·.node)) :=
      (List.sublist_cons_iff.mp hthere).resolve_right fun ⟨_, heq, _⟩ =>
        hne (List.cons.inj heq).1
    exact hrest.trans (List.sublist_append_right ..)

/-- When the second node is on top, nothing is pending below the first one. -/
theorem Before.nothing_pending {first second : Nat} (hb : Before s first second)
    (h : Books p s) (hstack : s.stack = here :: rest) (hhere : here.node = second) {i : Nat}
    (hn : s.tree.get? i = some n) (hbelow : s.tree.IsBelow first i) : n.outcome ≠ .pending := by
  intro hpending
  have hthere := hb i n hn hpending hbelow
  rw [hstack, List.map_cons, hhere] at hthere
  -- then the second node would be on the stack twice
  have hfresh := (h.top_fresh hstack).1
  rw [hhere] at hfresh
  apply hfresh
  rcases List.sublist_cons_iff.mp hthere with hrest | ⟨_, heq, hrest⟩
  · exact hrest.subset (by simp)
  · rw [← (List.cons.inj heq).2] at hrest
    exact List.singleton_sublist.mp hrest

end Turn

/-! ## Runs -/

section Run

variable {p : Program α} {limits : Limits α} {oracle : Oracle α} {watch : Nat → Sighting}
  {s next : State α} {here : Pending α} {turn first second : Nat}

theorem Reachable.steep (reached : Reachable p limits oracle watch s) : Steep s.depths := by
  apply reached.turns (P := fun s => Steep s.depths)
  · exact ⟨List.Pairwise.nil, fun d hd => by cases hd⟩
  · intro s here rest relaxation next before ih hstack _ hc
    obtain ⟨n, hn, -⟩ := before.books.top hstack
    rw [State.depths, hstack, List.map_cons, SearchTree.depthAt_eq hn] at ih
    rcases hc.depths before.books hstack hn with hclosed | hsplit
    · rw [hclosed]
      exact ih.pop
    · rw [hsplit]
      exact ih.push

/-- Of two children of a node the first is searched whole before the second. -/
structure SearchedFirst (p : Program α) (limits : Limits α) (oracle : Oracle α)
    (watch : Nat → Sighting) (turn first second : Nat) : Prop where
  /-- After the turn both are on top of the stack, so the first is taken first. -/
  top : ∀ next, stateAfter? p limits oracle watch (turn + 1) = some next →
    ∃ below, next.stack.map (·.node) = first :: second :: below
  /-- When the second is solved, all that is ever created below the first has been
  solved. -/
  whole : ∀ later there, solved? p limits oracle watch later = some there →
    there.node = second → ∀ k s i n, stateAfter? p limits oracle watch k = some s →
      s.tree.get? i = some n → s.tree.IsBelow first i →
      ∃ earlier here, earlier < later ∧ solved? p limits oracle watch earlier = some here
        ∧ here.node = i

/-- The order is kept from one turn on. -/
theorem before_of_le {k later : Nat} {last : State α}
    (hs : stateAfter? p limits oracle watch k = some s) (old : first < s.tree.size)
    (hb : Before s first second) (hle : k ≤ later)
    (hlast : stateAfter? p limits oracle watch later = some last) :
    Before last first second := by
  induction later, hle using Nat.le_induction generalizing last with
  | base =>
    rw [hs, Option.some.injEq] at hlast
    rw [← hlast]
    exact hb
  | succ later hle ih =>
    obtain ⟨s', here, rest, relaxation, hs', -, hstack, hc⟩ := exists_concluded hlast
    have hreached := reachable_of_stateAfter? hs'
    obtain ⟨n, hn, -⟩ := extends_of_le hle hs hs' first _ (Array.getElem?_eq_getElem old)
    exact (ih hs').turn hreached.books hreached.linked hstack (SearchTree.lt_size_of_get? hn) hc

/-- **Once nothing is pending below a node, nothing more is created there.** -/
theorem solved_below {k later i : Nat} {last : State α} {n : Node α}
    (hlast : stateAfter? p limits oracle watch later = some last) (old : first < last.tree.size)
    (done : ∀ i n, last.tree.get? i = some n → last.tree.IsBelow first i → n.outcome ≠ .pending)
    (hs : stateAfter? p limits oracle watch k = some s) (hn : s.tree.get? i = some n)
    (hbelow : s.tree.IsBelow first i) : i ∈ solvedIn p limits oracle watch later := by
  have hllast := (reachable_of_stateAfter? hlast).linked
  rcases Nat.le_total k later with hle | hle
  · have hext := extends_of_le hle hs hlast
    have hl := (reachable_of_stateAfter? hs).linked
    obtain ⟨m, hm, -⟩ := hext i n hn
    rw [mem_solvedIn_iff hlast]
    exact ⟨m, hm, done i m hm ((hl.isBelow_extends hllast hext hn).mpr hbelow)⟩
  · -- a new node below the first one would have a parent there, and that one is solved
    induction k, hle using Nat.le_induction generalizing s i n with
    | base =>
      rw [hlast, Option.some.injEq] at hs
      rw [← hs] at hn hbelow
      rw [mem_solvedIn_iff hlast]
      exact ⟨n, hn, done i n hn hbelow⟩
    | succ k hle ih =>
      obtain ⟨s', here, rest, relaxation, hs', hsolved, hstack, hc⟩ := exists_concluded hs
      have hreached := reachable_of_stateAfter? hs'
      have hl := hreached.linked
      have hl' := (reachable_of_stateAfter? hs).linked
      have hext : s'.tree.Extends s.tree := hc.extends
      obtain ⟨_, -, hcases⟩ := hc.node_cases hreached.books hstack
      rcases hcases i n hn with ⟨-, hge, hparent⟩ | ⟨m, hm, -⟩
      · obtain ⟨f, hf, -⟩ := extends_of_le hle hlast hs' first _ (Array.getElem?_eq_getElem old)
        have hfirst := SearchTree.lt_size_of_get? hf
        obtain ⟨m, hm, hpending⟩ := pending_of_solved? hs' hsolved
        rcases (hl'.isBelow_iff hn first).mp hbelow with heq | ⟨parent, hup, hbelow'⟩
        · omega
        · rw [hparent, Option.some.injEq] at hup
          have hmem := ih hs' hm ((hl.isBelow_extends hl' hext hm).mp (hup ▸ hbelow'))
          obtain ⟨earlier, hearlier, hwhich⟩ := (mem_solvedIn later here.node).mp hmem
          have hsooner : here.node ∈ solvedIn p limits oracle watch k :=
            (mem_solvedIn k here.node).mpr ⟨earlier, by omega, hwhich⟩
          obtain ⟨m', hm', hout⟩ := (mem_solvedIn_iff hs' here.node).mp hsooner
          rw [hm, Option.some.injEq] at hm'
          exact absurd (hm' ▸ hpending) hout
      · exact ih hs' hm ((hl.isBelow_extends hl' hext hm).mp hbelow)

/-- **The second of two children waits for all that is below the first.** -/
theorem searchedFirst {below : List Nat} (hs : stateAfter? p limits oracle watch turn = some s)
    (hnext : stateAfter? p limits oracle watch (turn + 1) = some next)
    (hnodes : next.stack.map (·.node) = first :: second :: below)
    (new : s.tree.size ≤ second) (old : first < next.tree.size)
    (hb : Before next first second) : SearchedFirst p limits oracle watch turn first second := by
  constructor
  case top =>
    intro next' hnext'
    obtain rfl : next = next' := Option.some.inj (hnext.symm.trans hnext')
    exact ⟨below, hnodes⟩
  case whole =>
    intro later there hsolved hthere k s' i n hs' hn hbelow
    obtain ⟨last, hlast⟩ := exists_state_of_solved? (Option.isSome_of_eq_some hsolved)
    have hreached := reachable_of_stateAfter? hlast
    obtain ⟨rest, hstack⟩ :=
      List.head?_eq_some_iff.mp ((solved?_eq_some_iff hlast).mp hsolved).2
    -- the second child is not there before the turn
    have hlater : turn + 1 ≤ later := by
      by_contra hlt
      obtain ⟨m, hm, -⟩ := pending_of_solved? hlast hsolved
      obtain ⟨m', hm', -⟩ := extends_of_le (by omega) hlast hs there.node m hm
      have hsize := SearchTree.lt_size_of_get? hm'
      omega
    have hbefore := before_of_le hnext old hb hlater hlast
    obtain ⟨f, hf, -⟩ := extends_of_le hlater hnext hlast first _ (Array.getElem?_eq_getElem old)
    have hmem := solved_below hlast (SearchTree.lt_size_of_get? hf)
      (fun i n hn hbelow => hbefore.nothing_pending hreached.books hstack hthere hn hbelow)
      hs' hn hbelow
    obtain ⟨earlier, hless, here, hsolved', hhere⟩ := (mem_solvedIn later i).mp hmem
    exact ⟨earlier, here, hless, hsolved', hhere⟩

/-- A larger value of a column is better: the objective grows with it and is to be
maximized, or does not grow with it and is to be minimized. -/
def UpperFirst (p : Program α) (column : Nat) : Prop :=
  (p.sense = .maximize ∧ Number.gt (p.objectiveAt column) 0 = true)
    ∨ (p.sense = .minimize ∧ ¬ Number.gt (p.objectiveAt column) 0 = true)

theorem prefersUp_iff (p : Program α) (column : Nat) :
    prefersUp p column = true ↔ UpperFirst p column := by
  rw [prefersUp, UpperFirst]
  cases p.sense <;> simp

/-- What a turn does that solves a node: its stack is bounded by the depth of the node,
and if it splits the node it puts the preferred half first. -/
structure DepthFirst (p : Program α) (limits : Limits α) (oracle : Oracle α)
    (watch : Nat → Sighting) (turn : Nat) (s : State α) (here : Pending α) (n : Node α) :
    Prop where
  node : s.tree.get? here.node = some n
  stack : ∀ next, (step p limits oracle (watch s.explored) s = .proceed next
      ∨ ∃ status, step p limits oracle (watch s.explored) s = .finished next status) →
    next.stack.length ≤ n.depth + 2
  halved : ∀ next m, stateAfter? p limits oracle watch (turn + 1) = some next →
    next.tree.get? here.node = some m → m.outcome = .branched →
    ∃ column left right, next.tree.Halved here.node column left right
      ∧ (UpperFirst p column → SearchedFirst p limits oracle watch turn right left)
      ∧ (¬ UpperFirst p column → SearchedFirst p limits oracle watch turn left right)

/-- After a turn there are at most two nodes more on the stack than the top was deep. -/
theorem length_stack_le (reached : Reachable p limits oracle watch s) {rest : List (Pending α)}
    {n : Node α} (hstack : s.stack = here :: rest) (hn : s.tree.get? here.node = some n)
    (hstep : step p limits oracle (watch s.explored) s = .proceed next
      ∨ ∃ status, step p limits oracle (watch s.explored) s = .finished next status) :
    next.stack.length ≤ n.depth + 2 := by
  -- below the top all depths are different, and none is greater
  have hsteep := reached.steep
  rw [State.depths, hstack, List.map_cons, SearchTree.depthAt_eq hn] at hsteep
  have hrest := hsteep.length_le
  rw [List.length_map] at hrest
  have hs := stepped p limits oracle (watch s.explored) s
  rcases hstep with hproceed | ⟨status, hfinished⟩
  · obtain ⟨here', rest', relaxation, hstack', -, -, hc⟩ := step_proceed hproceed
    obtain ⟨rfl, rfl⟩ := List.cons.inj (hstack.symm.trans hstack')
    have hlen : next.stack.length = next.depths.length := (List.length_map _).symm
    rcases hc.depths reached.books hstack hn with hclosed | hsplit
    · rw [hlen, hclosed, List.length_map]
      omega
    · rw [hlen, hsplit, List.length_cons, List.length_cons, List.length_map]
      omega
  · rw [hfinished] at hs
    cases hs with
    | exhausted empty => simp [empty]
    | halted here' rest' status' top halts =>
      rw [hstack, List.length_cons]
      omega
    | rootUnbounded here' rest' top goesOn answers root =>
      obtain ⟨-, rfl⟩ := List.cons.inj (hstack.symm.trans top)
      show rest.length ≤ _
      omega

/-- **The search is depth first, in the preferred direction.** Whatever the oracle says and
the limits are, every turn that solves a node of depth `d` leaves at most `d + 2` nodes on
the stack. If it splits the node at a column, the upper half is the first of the two to be
taken exactly if the objective prefers a larger value, and the other half is not solved
until everything that is ever created below the first has been. -/
theorem depthFirst (p : Program α) (limits : Limits α) (oracle : Oracle α)
    (watch : Nat → Sighting) (turn : Nat) (s : State α) (here : Pending α)
    (reached : stateAfter? p limits oracle watch turn = some s)
    (taken : solved? p limits oracle watch turn = some here) :
    ∃ n, DepthFirst p limits oracle watch turn s here n := by
  have hreached := reachable_of_stateAfter? reached
  obtain ⟨rest, hstack⟩ := List.head?_eq_some_iff.mp ((solved?_eq_some_iff reached).mp taken).2
  obtain ⟨n, hn, hpending, hleaf, hunsolved⟩ := hreached.books.top hstack
  refine ⟨n, hn, fun next hstep => length_stack_le hreached hstack hn hstep, ?_⟩
  intro next m hnext hm hbranched
  obtain ⟨s', here', rest', relaxation, hs', -, hstack', hc⟩ := exists_concluded hnext
  obtain rfl : s = s' := Option.some.inj (reached.symm.trans hs')
  obtain ⟨rfl, rfl⟩ := List.cons.inj (hstack.symm.trans hstack')
  rcases hc.closedBy_or_splitBy (s := s.taken rest) hn hleaf hunsolved with
    ⟨m', hclosed⟩ | ⟨m', column, value, hsplit⟩
  · obtain rfl : m' = m := Option.some.inj (hclosed.replaces.get?_itself.symm.trans hm)
    exact absurd hbranched hclosed.concludes.branched
  have hl' : next.tree.Linked := hc.linked (s := s.taken rest) hreached.linked
  have hsize : next.tree.size = s.tree.size + 2 := hsplit.replaces.size
  -- whichever half is on top, it waits for nothing, and the other one waits for it
  have hordered : ∀ first second, s.tree.size ≤ first → first < next.tree.size →
      s.tree.size ≤ second →
      next.stack.map (·.node) = first :: second :: rest.map (·.node) →
      SearchedFirst p limits oracle watch turn first second := by
    intro first second hfirst hlt hsecond hnodes
    exact searchedFirst reached hnext hnodes hsecond hlt (hsplit.before hl' hnodes hfirst)
  have hnodes := hsplit.map_node_stack
  refine ⟨column, s.tree.size, s.tree.size + 1, hsplit.halved, fun hup => ?_, fun hdown => ?_⟩
  · rw [if_pos ((prefersUp_iff p column).mpr hup)] at hnodes
    exact hordered _ _ (by omega) (by omega) (by omega) hnodes
  · rw [if_neg (fun h => hdown ((prefersUp_iff p column).mp h))] at hnodes
    exact hordered _ _ (by omega) (by omega) (by omega) hnodes

/-- The root of a problem whose objective grows with its column: the upper half, node 2, is
searched first, and the lower half is the other node on the stack. -/
theorem depthFirst_twoIncumbents :
    solved? twoIncumbents exactLimits (twoIncumbents.relax 0) (fun _ => ⟨false, .zero⟩) 0
        = some ⟨SearchTree.rootId, rootBox twoIncumbents⟩
      ∧ ∃ next, stateAfter? twoIncumbents exactLimits (twoIncumbents.relax 0)
          (fun _ => ⟨false, .zero⟩) 1 = some next
        ∧ next.stack.length ≤ 2 ∧ next.tree.Halved 0 0 1 2
        ∧ SearchedFirst twoIncumbents exactLimits (twoIncumbents.relax 0)
            (fun _ => ⟨false, .zero⟩) 0 2 1 := by
  have htaken : solved? twoIncumbents exactLimits (twoIncumbents.relax 0)
      (fun _ => ⟨false, .zero⟩) 0 = some ⟨SearchTree.rootId, rootBox twoIncumbents⟩ := by
    rw [solved?_eq_some_iff (s := .initial twoIncumbents) rfl]
    exact ⟨by decide, rfl⟩
  obtain ⟨n, h⟩ := depthFirst twoIncumbents exactLimits (twoIncumbents.relax 0)
    (fun _ => ⟨false, .zero⟩) 0 (.initial twoIncumbents) _ rfl htaken
  have hrun : (stateAfter? twoIncumbents exactLimits (twoIncumbents.relax 0)
      (fun _ => ⟨false, .zero⟩) 1).bind (fun next => (next.tree.get? 0).bind fun m =>
        (next.tree.get? 1).bind fun left => left.lastCut?.map fun c =>
          (m.outcome, m.left, m.right, c.column)) = some (.branched, some 1, some 2, 0) := by
    decide +kernel
  obtain ⟨next, hnext, hnode⟩ := Option.bind_eq_some_iff.mp hrun
  obtain ⟨m, hm, hleft⟩ := Option.bind_eq_some_iff.mp hnode
  obtain ⟨left, hthere, hcut⟩ := Option.bind_eq_some_iff.mp hleft
  obtain ⟨c, hc, hfacts⟩ := Option.map_eq_some_iff.mp hcut
  simp only [Prod.mk.injEq] at hfacts
  obtain ⟨hout, h₁, h₂, hcolumn⟩ := hfacts
  obtain ⟨column, l, r, hhalved, hup, -⟩ := h.halved next m hnext hm hout
  -- the node, its children and its column are the ones that were computed
  obtain ⟨m', hm', hl, hr⟩ := hhalved.node
  obtain rfl : m' = m := Option.some.inj (hm'.symm.trans hm)
  obtain rfl : l = 1 := Option.some.inj (hl.symm.trans h₁)
  obtain rfl : r = 2 := Option.some.inj (hr.symm.trans h₂)
  obtain ⟨left', c', hleft', -, hc', hcol, -⟩ := hhalved.lower
  obtain rfl : left' = left := Option.some.inj (hleft'.symm.trans hthere)
  obtain rfl : c' = c := Option.some.inj (hc'.symm.trans hc)
  obtain rfl : column = 0 := hcol.symm.trans hcolumn
  obtain ⟨before, hbefore, hstep⟩ := stateAfter?_succ_eq_some_iff.mp hnext
  obtain rfl : State.initial twoIncumbents = before := Option.some.inj hbefore
  have hroot : n = Node.fresh SearchTree.rootId none 0 [] := (Option.some.inj h.node).symm
  have hlength := h.stack next (.inl hstep)
  rw [hroot] at hlength
  exact ⟨htaken, next, hnext, hlength, hhalved, hup (.inl ⟨rfl, by decide +kernel⟩)⟩

end Run

end Search

end Milp
