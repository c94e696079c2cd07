/-
The books of a search tree.

A search changes a tree in two ways only. It closes a leaf, which gives the leaf an
outcome, or it splits one, which gives it two children at the end of the table. Either way
the table afterwards is the old one with one node replaced and none or two nodes more
(`Replaces`), so counting nodes of a kind is arithmetic (`Replaces.count_eq`).

`WellKept` is what both changes preserve: nodes know their positions, children come in
pairs and below branched nodes only, relaxations are recorded for solved nodes only, and
every node but the root hangs below its parent on the side of its last cut. The size of a
well-kept tree follows from the number of its branched nodes.
-/
import Milp.Proofs.SearchTree.Growth

set_option autoImplicit false

namespace Milp

/-- Whether a node with this outcome had a relaxation that was solved. -/
def NodeOutcome.isSolved : NodeOutcome → Bool
  | .branched | .incumbent | .integral | .pruned => true
  | .pending | .infeasible | .unbounded => false

/-- A leaf has no child on either side. -/
theorem Node.childOn_of_isLeaf {α : Type} {k : Node α} (h : k.IsLeaf) (side : Side) :
    k.childOn side = none := by
  cases side with
  | left => exact h.1
  | right => exact h.2

namespace SearchTree

variable {α : Type} {t t' : SearchTree α} {id : Nat} {n m : Node α} {more : List (Node α)}

/-! ## Counting nodes -/

/-- The number of nodes of a kind. -/
def count (t : SearchTree α) (kind : Node α → Bool) : Nat := t.nodes.toList.countP kind

theorem count_initial (kind : Node α → Bool) :
    (initial : SearchTree α).count kind
      = if kind (Node.fresh rootId none 0 []) = true then 1 else 0 :=
  List.countP_singleton

/-- What stands where in a table with one node replaced and others added. -/
theorem getElem?_set_append (hid : id < t.size) (m : Node α) (more : List (Node α)) (j : Nat) :
    (t.nodes.toList.set id m ++ more)[j]?
      = if t.size ≤ j then more[j - t.size]? else if j = id then some m else t.get? j := by
  have hlen : (t.nodes.toList.set id m).length = t.size := by
    rw [List.length_set, Array.length_toList]
    rfl
  by_cases hj : t.size ≤ j
  · rw [if_pos hj, List.getElem?_append_right (by omega), hlen]
  · rw [if_neg hj, List.getElem?_append_left (by omega), List.getElem?_set]
    by_cases heq : j = id
    · rw [if_pos heq.symm, if_pos heq, if_pos (by rw [Array.length_toList]; exact hid)]
    · rw [if_neg (Ne.symm heq), if_neg heq, Array.getElem?_toList]
      rfl

/-- The node at a position is replaced, and others are added behind all nodes. -/
structure Replaces (t t' : SearchTree α) (id : Nat) (n m : Node α) (more : List (Node α)) :
    Prop where
  there : t.get? id = some n
  table : t'.nodes.toList = t.nodes.toList.set id m ++ more

namespace Replaces

theorem size (h : Replaces t t' id n m more) : t'.size = t.size + more.length := by
  rw [SearchTree.size, ← Array.length_toList, h.table, List.length_append, List.length_set,
    Array.length_toList]
  rfl

/-- The nodes afterwards: the new ones, the one that was replaced, and the old ones. -/
theorem get?_eq (h : Replaces t t' id n m more) (j : Nat) :
    t'.get? j = if t.size ≤ j then more[j - t.size]? else if j = id then some m else t.get? j := by
  rw [SearchTree.get?, ← Array.getElem?_toList, h.table]
  exact getElem?_set_append (lt_size_of_get? h.there) m more j

theorem get?_itself (h : Replaces t t' id n m more) : t'.get? id = some m := by
  have hid := lt_size_of_get? h.there
  rw [h.get?_eq, if_neg (by omega), if_pos rfl]

theorem get?_old (h : Replaces t t' id n m more) {j : Nat} {k : Node α} (hj : j ≠ id)
    (hk : t.get? j = some k) : t'.get? j = some k := by
  have hlt := lt_size_of_get? hk
  rw [h.get?_eq, if_neg (by omega), if_neg hj]
  exact hk

theorem get?_first {a : Node α} (h : Replaces t t' id n m (a :: more)) :
    t'.get? t.size = some a := by
  rw [h.get?_eq, if_pos le_rfl, Nat.sub_self]
  rfl

theorem get?_second {a b : Node α} (h : Replaces t t' id n m (a :: b :: more)) :
    t'.get? (t.size + 1) = some b := by
  rw [h.get?_eq, if_pos (Nat.le_succ _), Nat.add_sub_cancel_left]
  rfl

/-- Every node afterwards is a new one, the one that was replaced, or an old one. -/
theorem node_cases (h : Replaces t t' id n m more) {j : Nat} {k : Node α}
    (hk : t'.get? j = some k) :
    (t.size ≤ j ∧ more[j - t.size]? = some k) ∨ (j = id ∧ k = m)
      ∨ (j ≠ id ∧ t.get? j = some k) := by
  rw [h.get?_eq] at hk
  split at hk
  · next hj => exact .inl ⟨hj, hk⟩
  split at hk
  · next heq => exact .inr (.inl ⟨heq, (Option.some.inj hk).symm⟩)
  · next hne => exact .inr (.inr ⟨hne, hk⟩)

/-- **Counting after a change**: the replaced node leaves, its successor and the new nodes
come. -/
theorem count_eq (h : Replaces t t' id n m more) (kind : Node α → Bool) :
    t'.count kind + (if kind n = true then 1 else 0)
      = t.count kind + (if kind m = true then 1 else 0) + more.countP kind := by
  have hid : id < t.nodes.toList.length := by
    rw [Array.length_toList]
    exact lt_size_of_get? h.there
  have hn : t.nodes.toList[id] = n := by
    rw [← Option.some.injEq, ← List.getElem?_eq_getElem, Array.getElem?_toList]
    exact h.there
  have hset := List.countP_set (p := kind) (a := m) hid
  -- the replaced node is one of those counted, so the subtraction is exact
  have hle : (if kind n = true then 1 else 0) ≤ t.nodes.toList.countP kind := by
    split
    · next hkind =>
      exact List.countP_pos_iff.mpr ⟨n, hn ▸ List.getElem_mem hid, hkind⟩
    · exact Nat.zero_le _
  rw [hn] at hset
  rw [count, count, h.table, List.countP_append, hset]
  omega

end Replaces

/-- A change that is known position by position. -/
theorem replaces_of_get? (there : t.get? id = some n)
    (h : ∀ j, t'.get? j
      = if t.size ≤ j then more[j - t.size]? else if j = id then some m else t.get? j) :
    Replaces t t' id n m more := by
  refine ⟨there, List.ext_getElem? fun j => ?_⟩
  rw [Array.getElem?_toList, getElem?_set_append (lt_size_of_get? there)]
  exact h j

/-- A change of one node that adds none. -/
theorem replaces_one_of_get? (there : t.get? id = some n)
    (h : ∀ j, t'.get? j = if j = id then some m else t.get? j) : Replaces t t' id n m [] := by
  have hid := lt_size_of_get? there
  refine replaces_of_get? there fun j => ?_
  rw [h j]
  by_cases hj : t.size ≤ j
  · rw [if_pos hj, if_neg (by omega)]
    exact Array.getElem?_eq_none hj
  · rw [if_neg hj]

theorem replaces_mark (there : t.get? id = some n) (outcome : NodeOutcome) :
    Replaces t (t.mark id outcome) id n { n with outcome := outcome } [] := by
  refine replaces_one_of_get? there fun j => ?_
  rw [get?_mark]
  split
  · next hj => rw [hj, there, Option.map_some]
  · rfl

theorem replaces_recordRelaxation_mark (there : t.get? id = some n) (values : List α)
    (optimum : α) (outcome : NodeOutcome) :
    Replaces t ((t.recordRelaxation id values optimum).mark id outcome) id n
      { n with relaxation := some optimum, values := values, outcome := outcome } [] := by
  refine replaces_one_of_get? there fun j => ?_
  rw [get?_mark, get?_recordRelaxation]
  split
  · next hj => rw [hj, there, Option.map_some, Option.map_some]
  · rfl

/-! ## Well-kept trees -/

/-- The node at a position hangs below a parent, on the side of its last cut. -/
def Hangs (t : SearchTree α) (j : Nat) (k : Node α) : Prop :=
  ∃ c parent above, k.lastCut? = some c ∧ c.id = j
    ∧ k.parent = some parent ∧ t.get? parent = some above
    ∧ above.childOn (if c.upper then .left else .right) = some j

/-- What holds of the tree of a search at all times. -/
structure WellKept (t : SearchTree α) : Prop where
  /-- A node knows its position. -/
  id : ∀ j k, t.get? j = some k → k.id = j
  /-- Branched nodes have both children. -/
  branched : ∀ j k, t.get? j = some k → k.outcome = .branched →
    ∃ left right, k.left = some left ∧ k.right = some right
  /-- Other nodes have none. -/
  leaf : ∀ j k, t.get? j = some k → k.outcome ≠ .branched → k.IsLeaf
  /-- Solved nodes have their relaxation, and only they. -/
  relaxed : ∀ j k, t.get? j = some k → k.relaxation.isSome = k.outcome.isSolved
  /-- Every node but the root hangs below its parent. -/
  hangs : ∀ j k, t.get? j = some k → j ≠ rootId → Hangs t j k
  /-- What is referred to as a child is one, on its side. -/
  child : ∀ j k side child, t.get? j = some k → k.childOn side = some child →
    ∃ below c, t.get? child = some below ∧ below.lastCut? = some c
      ∧ c.upper = decide (side = .left)
  /-- The table has the root and two nodes for every branched one. -/
  size : t.size = 1 + 2 * t.count fun k => k.outcome == .branched

theorem wellKept_initial : (initial : SearchTree α).WellKept := by
  have hroot : ∀ j k, (initial : SearchTree α).get? j = some k →
      j = rootId ∧ k = Node.fresh rootId none 0 [] :=
    fun _ _ hk => eq_of_get?_initial hk
  constructor
  case id =>
    intro j k hk
    obtain ⟨rfl, rfl⟩ := hroot j k hk
    rfl
  case branched =>
    intro j k hk hout
    obtain ⟨-, rfl⟩ := hroot j k hk
    cases hout
  case leaf =>
    intro j k hk _
    obtain ⟨-, rfl⟩ := hroot j k hk
    exact Node.isLeaf_fresh _ _ _ _
  case relaxed =>
    intro j k hk
    obtain ⟨-, rfl⟩ := hroot j k hk
    rfl
  case hangs => exact fun j k hk hj => absurd (hroot j k hk).1 hj
  case child =>
    intro j k side child hk hchild
    obtain ⟨-, rfl⟩ := hroot j k hk
    cases side <;> cases hchild
  case size =>
    rw [count_initial]
    rfl

/-! ### What a change keeps -/

/-- A node hangs where it hung before if the change leaves it its parent and its cuts, and
takes no child away. -/
theorem Hangs.replaces (h : Replaces t t' id n m more)
    (keeps : ∀ side child, n.childOn side = some child → m.childOn side = some child)
    {j : Nat} {k k' : Node α} (hcuts : k'.cuts = k.cuts) (hparent : k'.parent = k.parent)
    (hangs : Hangs t j k) : Hangs t' j k' := by
  obtain ⟨c, parent, above, hcut, hid, hup, habove, hchild⟩ := hangs
  rw [Node.lastCut?, ← hcuts] at hcut
  rw [← hparent] at hup
  by_cases hpid : parent = id
  · -- the parent is the node that was replaced
    rw [hpid, h.there, Option.some.injEq] at habove
    rw [← habove] at hchild
    exact ⟨c, parent, m, hcut, hid, hup, hpid ▸ h.get?_itself, keeps _ _ hchild⟩
  · exact ⟨c, parent, above, hcut, hid, hup, h.get?_old hpid habove, hchild⟩

/-- Where a node was, there is one with the same last cut. -/
theorem Replaces.exists_lastCut (h : Replaces t t' id n m more) (cuts : m.cuts = n.cuts) {j : Nat}
    {k : Node α} (hk : t.get? j = some k) :
    ∃ k', t'.get? j = some k' ∧ k'.lastCut? = k.lastCut? := by
  by_cases hj : j = id
  · rw [hj, h.there, Option.some.injEq] at hk
    refine ⟨m, hj ▸ h.get?_itself, ?_⟩
    rw [Node.lastCut?, cuts, hk]
    rfl
  · exact ⟨k, h.get?_old hj hk, rfl⟩

/-! ### Closing a leaf -/

/-- A leaf with an outcome and, if it was solved, what its relaxation had to say. -/
structure Concludes (n m : Node α) : Prop where
  frame : m = { n with relaxation := m.relaxation, values := m.values, outcome := m.outcome }
  pending : m.outcome ≠ .pending
  branched : m.outcome ≠ .branched
  relaxed : m.relaxation.isSome = m.outcome.isSolved

/-- **Closing a pending leaf keeps the books.** -/
theorem WellKept.close (hk : t.WellKept) (h : Replaces t t' id n m []) (hc : Concludes n m)
    (pending : n.outcome = .pending) : t'.WellKept := by
  have hleaf : n.IsLeaf := hk.leaf id n h.there (by rw [pending]; decide)
  -- nothing is added, so every node is the closed one or an old one
  have hcases : ∀ j k, t'.get? j = some k → (j = id ∧ k = m) ∨ (j ≠ id ∧ t.get? j = some k) := by
    intro j k hj
    rcases h.node_cases hj with ⟨-, hnone⟩ | hcase
    · cases hnone
    · exact hcase
  have hmleaf : m.IsLeaf := by
    rw [hc.frame]
    exact hleaf
  constructor
  case id =>
    intro j k hj
    rcases hcases j k hj with ⟨rfl, rfl⟩ | ⟨-, hold⟩
    · rw [hc.frame]
      exact hk.id _ n h.there
    · exact hk.id j k hold
  case branched =>
    intro j k hj hout
    rcases hcases j k hj with ⟨-, rfl⟩ | ⟨-, hold⟩
    · exact absurd hout hc.branched
    · exact hk.branched j k hold hout
  case leaf =>
    intro j k hj hout
    rcases hcases j k hj with ⟨-, rfl⟩ | ⟨-, hold⟩
    · exact hmleaf
    · exact hk.leaf j k hold hout
  case relaxed =>
    intro j k hj
    rcases hcases j k hj with ⟨-, rfl⟩ | ⟨-, hold⟩
    · exact hc.relaxed
    · exact hk.relaxed j k hold
  case hangs =>
    intro j k hj hroot
    have hkeeps : ∀ side child, n.childOn side = some child → m.childOn side = some child := by
      intro side child hchild
      rw [hc.frame]
      exact hchild
    rcases hcases j k hj with ⟨rfl, rfl⟩ | ⟨-, hold⟩
    · refine (hk.hangs _ n h.there hroot).replaces h hkeeps ?_ ?_
      · rw [hc.frame]
      · rw [hc.frame]
    · exact (hk.hangs j k hold hroot).replaces h hkeeps rfl rfl
  case child =>
    intro j k side child hj hchild
    rcases hcases j k hj with ⟨-, rfl⟩ | ⟨-, hold⟩
    · rw [Node.childOn_of_isLeaf hmleaf] at hchild
      cases hchild
    · obtain ⟨below, c, hbelow, hcut, hside⟩ := hk.child j k side child hold hchild
      obtain ⟨below', hbelow', hsame⟩ := h.exists_lastCut (by rw [hc.frame]) hbelow
      exact ⟨below', c, hbelow', hsame.trans hcut, hside⟩
  case size =>
    have hcount := h.count_eq fun k => k.outcome == .branched
    have hbefore : (n.outcome == NodeOutcome.branched) = false := by rw [pending]; rfl
    have hafter : (m.outcome == NodeOutcome.branched) = false := by simpa using hc.branched
    rw [h.size, hk.size]
    simp only [hbefore, hafter, Bool.false_eq_true, if_false, List.countP_nil] at hcount
    rw [List.length_nil]
    omega

/-! ### Splitting a leaf -/

/-- A leaf after it was split, with what its relaxation had to say. -/
structure SplitsInto (n m : Node α) (first : Nat) : Prop where
  id : m.id = n.id
  parent : m.parent = n.parent
  cuts : m.cuts = n.cuts
  left : m.left = some first
  right : m.right = some (first + 1)
  outcome : m.outcome = .branched
  relaxed : m.relaxation.isSome = true

section Split

variable {depth : Nat} {lower upper : Cut α}

/-- After a split, a node is the lower half, the upper half, the node itself or an old one. -/
theorem Replaces.split_cases
    (h : Replaces t t' id n m
      [Node.fresh t.size (some id) depth (n.cuts ++ [lower]),
        Node.fresh (t.size + 1) (some id) depth (n.cuts ++ [upper])])
    {j : Nat} {k : Node α} (hj : t'.get? j = some k) :
    (j = t.size ∧ k = Node.fresh t.size (some id) depth (n.cuts ++ [lower]))
      ∨ (j = t.size + 1 ∧ k = Node.fresh (t.size + 1) (some id) depth (n.cuts ++ [upper]))
      ∨ (j = id ∧ k = m) ∨ (j ≠ id ∧ t.get? j = some k) := by
  rcases h.node_cases hj with ⟨hle, -⟩ | hcase
  · have hlt := lt_size_of_get? hj
    rw [h.size, List.length_cons, List.length_singleton] at hlt
    by_cases heq : j = t.size
    · rw [heq, h.get?_first, Option.some.injEq] at hj
      exact .inl ⟨heq, hj.symm⟩
    · have heq : j = t.size + 1 := by omega
      rw [heq, h.get?_second, Option.some.injEq] at hj
      exact .inr (.inl ⟨heq, hj.symm⟩)
  · exact .inr (.inr hcase)

/-- A split makes one branched node and two nodes more. -/
theorem WellKept.size_split (hk : t.WellKept)
    (h : Replaces t t' id n m
      [Node.fresh t.size (some id) depth (n.cuts ++ [lower]),
        Node.fresh (t.size + 1) (some id) depth (n.cuts ++ [upper])])
    (pending : n.outcome = .pending) (branched : m.outcome = .branched) :
    t'.size = 1 + 2 * t'.count fun k => k.outcome == .branched := by
  have hcount := h.count_eq fun k => k.outcome == .branched
  have hbefore : (n.outcome == NodeOutcome.branched) = false := by rw [pending]; rfl
  have hafter : (m.outcome == NodeOutcome.branched) = true := by rw [branched]; rfl
  have hnew : List.countP (fun k : Node α => k.outcome == .branched)
      [Node.fresh t.size (some id) depth (n.cuts ++ [lower]),
        Node.fresh (t.size + 1) (some id) depth (n.cuts ++ [upper])] = 0 := rfl
  rw [h.size, hk.size]
  simp only [hbefore, hafter, Bool.false_eq_true, if_false, if_true, hnew] at hcount
  rw [List.length_cons, List.length_singleton]
  omega

/-- **Splitting a leaf keeps the books**, if the cuts are numbered like the nodes. -/
theorem WellKept.split (hk : t.WellKept)
    (h : Replaces t t' id n m
      [Node.fresh t.size (some id) depth (n.cuts ++ [lower]),
        Node.fresh (t.size + 1) (some id) depth (n.cuts ++ [upper])])
    (hm : SplitsInto n m t.size) (pending : n.outcome = .pending)
    (hlower : lower.id = t.size ∧ lower.upper = true)
    (hupper : upper.id = t.size + 1 ∧ upper.upper = false) : t'.WellKept := by
  have hleaf : n.IsLeaf := hk.leaf id n h.there (by rw [pending]; decide)
  have hcases := fun j k => h.split_cases (j := j) (k := k)
  -- the split node had no children that it could lose
  have hkeeps : ∀ side child, n.childOn side = some child → m.childOn side = some child := by
    intro side child hchild
    rw [Node.childOn_of_isLeaf hleaf] at hchild
    cases hchild
  constructor
  case id =>
    intro j k hj
    rcases hcases j k hj with ⟨rfl, rfl⟩ | ⟨rfl, rfl⟩ | ⟨rfl, rfl⟩ | ⟨-, hj⟩
    · rfl
    · rfl
    · exact hm.id.trans (hk.id _ n h.there)
    · exact hk.id j k hj
  case branched =>
    intro j k hj hout
    rcases hcases j k hj with ⟨-, rfl⟩ | ⟨-, rfl⟩ | ⟨-, rfl⟩ | ⟨-, hj⟩
    · cases hout
    · cases hout
    · exact ⟨_, _, hm.left, hm.right⟩
    · exact hk.branched j k hj hout
  case leaf =>
    intro j k hj hout
    rcases hcases j k hj with ⟨-, rfl⟩ | ⟨-, rfl⟩ | ⟨-, rfl⟩ | ⟨-, hj⟩
    · exact Node.isLeaf_fresh _ _ _ _
    · exact Node.isLeaf_fresh _ _ _ _
    · exact absurd hm.outcome hout
    · exact hk.leaf j k hj hout
  case relaxed =>
    intro j k hj
    rcases hcases j k hj with ⟨-, rfl⟩ | ⟨-, rfl⟩ | ⟨-, rfl⟩ | ⟨-, hj⟩
    · rfl
    · rfl
    · rw [hm.relaxed, hm.outcome]
      rfl
    · exact hk.relaxed j k hj
  case hangs =>
    intro j k hj hroot
    rcases hcases j k hj with ⟨rfl, rfl⟩ | ⟨rfl, rfl⟩ | ⟨rfl, rfl⟩ | ⟨-, hj⟩
    · refine ⟨lower, id, m, List.getLast?_concat, hlower.1, rfl, h.get?_itself, ?_⟩
      rw [if_pos hlower.2]
      exact hm.left
    · refine ⟨upper, id, m, List.getLast?_concat, hupper.1, rfl, h.get?_itself, ?_⟩
      rw [if_neg (by rw [hupper.2]; decide)]
      exact hm.right
    · exact (hk.hangs _ n h.there hroot).replaces h hkeeps hm.cuts hm.parent
    · exact (hk.hangs j k hj hroot).replaces h hkeeps rfl rfl
  case child =>
    intro j k side child hj hchild
    rcases hcases j k hj with ⟨-, rfl⟩ | ⟨-, rfl⟩ | ⟨-, rfl⟩ | ⟨-, hj⟩
    · rw [Node.childOn_of_isLeaf (Node.isLeaf_fresh _ _ _ _)] at hchild
      cases hchild
    · rw [Node.childOn_of_isLeaf (Node.isLeaf_fresh _ _ _ _)] at hchild
      cases hchild
    · cases side with
      | left =>
        obtain rfl : t.size = child := Option.some.inj (hm.left.symm.trans hchild)
        exact ⟨_, lower, h.get?_first, List.getLast?_concat, hlower.2⟩
      | right =>
        obtain rfl : t.size + 1 = child := Option.some.inj (hm.right.symm.trans hchild)
        exact ⟨_, upper, h.get?_second, List.getLast?_concat, hupper.2⟩
    · obtain ⟨below, c, hbelow, hcut, hside⟩ := hk.child j k side child hj hchild
      obtain ⟨below', hbelow', hsame⟩ := h.exists_lastCut hm.cuts hbelow
      exact ⟨below', c, hbelow', hsame.trans hcut, hside⟩
  case size => exact hk.size_split h pending hm.outcome

end Split

end SearchTree

end Milp
