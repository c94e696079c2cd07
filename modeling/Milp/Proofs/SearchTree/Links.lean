/-
The links of a search tree.

A node names its parent and its children by their positions, and repeats its parent's
depth and cuts with one more of each. All of this is written twice, once at either end of
a link, and nothing in the table keeps the two ends in step. This file proves that they
are in step, whichever children are asked for and in whatever order.

* `Linked` is what a request preserves (`Linked.after`), also one that is refused. What is
  found out at a node does not touch it (`Linked.modify`).
* `Extends` is what later requests leave of earlier nodes: all that a node was made with,
  and every child it has.
* Parents stand before their children, so the walk up from a node comes to an end, and
  `ancestors` finds all of it with the steps it is given (`Linked.ancestors_of_parent`).

`isBinary_grow` puts this together for every list of requests.
-/
import Milp.Proofs.SearchTree.Growth

set_option autoImplicit false

namespace Milp

variable {α : Type}

/-! ## Nodes -/

namespace Node

@[simp] theorem childOn_withChild (n : Node α) (side other : Side) (child : Nat) :
    (n.withChild side child).childOn other
      = if other = side then some child else n.childOn other := by
  cases side <;> cases other <;> rfl

@[simp] theorem childOn_fresh (id : Nat) (parent : Option Nat) (depth : Nat)
    (cuts : List (Cut α)) (side : Side) : (fresh id parent depth cuts).childOn side = none := by
  cases side <;> rfl

/-- A node later on: what it was made with stays, and so do the children it has. -/
structure Becomes (n m : Node α) : Prop where
  id : m.id = n.id
  parent : m.parent = n.parent
  depth : m.depth = n.depth
  cuts : m.cuts = n.cuts
  child : ∀ side child, n.childOn side = some child → m.childOn side = some child

theorem Becomes.refl (n : Node α) : n.Becomes n := ⟨rfl, rfl, rfl, rfl, fun _ _ h => h⟩

theorem Becomes.trans {n m k : Node α} (h : n.Becomes m) (h' : m.Becomes k) : n.Becomes k where
  id := h'.id.trans h.id
  parent := h'.parent.trans h.parent
  depth := h'.depth.trans h.depth
  cuts := h'.cuts.trans h.cuts
  child side child hchild := h'.child side child (h.child side child hchild)

/-- A side that is free can be taken. -/
theorem becomes_withChild {n : Node α} {side : Side} (free : n.childOn side = none)
    (child : Nat) : n.Becomes (n.withChild side child) := by
  refine ⟨?_, ?_, ?_, ?_, fun other old hold => ?_⟩
  case refine_5 =>
    have hne : other ≠ side := by
      intro heq
      rw [heq, free] at hold
      cases hold
    rw [childOn_withChild, if_neg hne, hold]
  all_goals cases side <;> rfl

/-- A node without what the search found out at it. -/
def bare (n : Node α) : Node α :=
  { n with relaxation := none, values := [], outcome := .pending }

theorem childOn_bare (n : Node α) (side : Side) : n.bare.childOn side = n.childOn side := by
  cases side <;> rfl

theorem childOn_eq_of_bare {n m : Node α} (h : m.bare = n.bare) (side : Side) :
    m.childOn side = n.childOn side := by
  rw [← childOn_bare m, h, childOn_bare]

theorem becomes_of_bare {n m : Node α} (h : m.bare = n.bare) : n.Becomes m := by
  have hid : m.bare.id = n.bare.id := by rw [h]
  have hparent : m.bare.parent = n.bare.parent := by rw [h]
  have hdepth : m.bare.depth = n.bare.depth := by rw [h]
  have hcuts : m.bare.cuts = n.bare.cuts := by rw [h]
  exact ⟨hid, hparent, hdepth, hcuts, fun side child hchild =>
    (childOn_eq_of_bare h side).trans hchild⟩

end Node

namespace SearchTree

variable {t t' : SearchTree α}

theorem get?_rootId (t : SearchTree α) : t.get? rootId = some t.root :=
  Array.getElem?_eq_getElem t.size_pos

/-! ## Requests -/

/-- A request for a child. -/
structure Addition (α : Type) where
  parent : Nat
  side : Side
  cut : Cut α

/-- The tree after a request; one that is refused leaves it as it is. -/
def after (t : SearchTree α) (a : Addition α) : SearchTree α :=
  match t.addChild? a.parent a.side a.cut with
  | some (_, grown) => grown
  | none => t

/-- The tree after several requests. -/
def grow (additions : List (Addition α)) : SearchTree α := additions.foldl after .initial

theorem grow_append (before later : List (Addition α)) :
    grow (before ++ later) = later.foldl after (grow before) :=
  List.foldl_append

theorem grow_concat (additions : List (Addition α)) (a : Addition α) :
    grow (additions ++ [a]) = (grow additions).after a :=
  grow_append additions [a]

/-- What a request does that is granted. -/
structure Adds (t t' : SearchTree α) (a : Addition α) (above : Node α) : Prop where
  there : t.get? a.parent = some above
  free : above.childOn a.side = none
  size : t'.size = t.size + 1
  get?_eq : ∀ j, t'.get? j
    = if j = t.size then
        some (Node.fresh t.size (some a.parent) (above.depth + 1) (above.cuts ++ [a.cut]))
      else if j = a.parent then some (above.withChild a.side t.size) else t.get? j

/-- **A request is refused** exactly if its parent is unknown or the side is taken. -/
theorem addChild?_eq_none_iff (t : SearchTree α) (a : Addition α) :
    t.addChild? a.parent a.side a.cut = none
      ↔ t.get? a.parent = none
        ∨ ∃ above, t.get? a.parent = some above ∧ (above.childOn a.side).isSome = true := by
  cases there : t.get? a.parent with
  | none => simp [addChild?, there]
  | some above =>
    by_cases taken : (above.childOn a.side).isSome = true
    · simp [addChild?, there, taken]
    · obtain ⟨grown, hgrown, -, -⟩ :=
        addChild?_of_free a.side a.cut there (Option.not_isSome_iff_eq_none.mp taken)
      simp [hgrown, taken]

/-- **A request that is not refused** is granted, and answered with the next position. -/
theorem addChild?_eq_some {a : Addition α} {id : Nat}
    (h : t.addChild? a.parent a.side a.cut = some (id, t')) :
    id = t.size ∧ t.after a = t' ∧ ∃ above, Adds t t' a above := by
  have hgranted : ¬ (t.get? a.parent = none
      ∨ ∃ above, t.get? a.parent = some above ∧ (above.childOn a.side).isSome = true) := by
    rw [← addChild?_eq_none_iff, h]
    simp
  obtain ⟨hknown, hfree⟩ := not_or.mp hgranted
  obtain ⟨above, there⟩ := Option.ne_none_iff_exists'.mp hknown
  have free : above.childOn a.side = none := by
    rw [← Option.not_isSome_iff_eq_none]
    exact fun taken => hfree ⟨above, there, taken⟩
  obtain ⟨grown, hgrown, hsize, hget⟩ := addChild?_of_free a.side a.cut there free
  have hsame : t.size = id ∧ grown = t' := by simpa [hgrown] using h
  have hafter : t.after a = t' := by simp only [after, h]
  exact ⟨hsame.1.symm, hafter, above, there, free, hsame.2 ▸ hsize, hsame.2 ▸ hget⟩

theorem after_of_refused {a : Addition α} (h : t.addChild? a.parent a.side a.cut = none) :
    t.after a = t := by
  simp only [after, h]

/-- A request leaves the tree as it is, or adds a child. -/
theorem after_eq_or_adds (t : SearchTree α) (a : Addition α) :
    t.after a = t ∨ ∃ above, Adds t (t.after a) a above := by
  cases h : t.addChild? a.parent a.side a.cut with
  | none => exact .inl (after_of_refused h)
  | some answer =>
    obtain ⟨-, hafter, hadds⟩ := addChild?_eq_some h
    exact .inr (hafter ▸ hadds)

namespace Adds

variable {a : Addition α} {above : Node α}

theorem parent_lt (h : Adds t t' a above) : a.parent < t.size := lt_size_of_get? h.there

theorem get?_new (h : Adds t t' a above) :
    t'.get? t.size
      = some (Node.fresh t.size (some a.parent) (above.depth + 1) (above.cuts ++ [a.cut])) := by
  rw [h.get?_eq, if_pos rfl]

theorem get?_parent (h : Adds t t' a above) :
    t'.get? a.parent = some (above.withChild a.side t.size) := by
  have hlt := h.parent_lt
  rw [h.get?_eq, if_neg (by omega), if_pos rfl]

theorem get?_other (h : Adds t t' a above) {j : Nat} {n : Node α} (hn : t.get? j = some n)
    (hne : j ≠ a.parent) : t'.get? j = some n := by
  have hlt := lt_size_of_get? hn
  rw [h.get?_eq, if_neg (by omega), if_neg hne, hn]

/-- Every node afterwards is the new one, the parent of the new one, or an old one. -/
theorem node_cases (h : Adds t t' a above) {j : Nat} {n : Node α} (hn : t'.get? j = some n) :
    (j = t.size
        ∧ n = Node.fresh t.size (some a.parent) (above.depth + 1) (above.cuts ++ [a.cut]))
      ∨ (j = a.parent ∧ n = above.withChild a.side t.size)
      ∨ (j ≠ a.parent ∧ t.get? j = some n) := by
  rw [h.get?_eq] at hn
  by_cases hnew : j = t.size
  · rw [if_pos hnew, Option.some.injEq] at hn
    exact .inl ⟨hnew, hn.symm⟩
  · rw [if_neg hnew] at hn
    by_cases hparent : j = a.parent
    · rw [if_pos hparent, Option.some.injEq] at hn
      exact .inr (.inl ⟨hparent, hn.symm⟩)
    · rw [if_neg hparent] at hn
      exact .inr (.inr ⟨hparent, hn⟩)

end Adds

/-! ## Later trees -/

/-- A tree later on: every node is where it was, with what it was made with. -/
def Extends (t t' : SearchTree α) : Prop :=
  ∀ i n, t.get? i = some n → ∃ m, t'.get? i = some m ∧ n.Becomes m

theorem Extends.refl (t : SearchTree α) : t.Extends t := fun _ n hn => ⟨n, hn, .refl n⟩

theorem Extends.trans {later : SearchTree α} (h : t.Extends t') (h' : t'.Extends later) :
    t.Extends later := by
  intro i n hn
  obtain ⟨m, hm, hbecomes⟩ := h i n hn
  obtain ⟨k, hk, hbecomes'⟩ := h' i m hm
  exact ⟨k, hk, hbecomes.trans hbecomes'⟩

theorem Adds.extends {a : Addition α} {above : Node α} (h : Adds t t' a above) :
    t.Extends t' := by
  intro i n hn
  by_cases hparent : i = a.parent
  · have hsame : n = above := by
      rw [hparent, h.there, Option.some.injEq] at hn
      exact hn.symm
    rw [hsame, hparent]
    exact ⟨_, h.get?_parent, Node.becomes_withChild h.free _⟩
  · exact ⟨n, h.get?_other hn hparent, .refl n⟩

theorem extends_after (t : SearchTree α) (a : Addition α) : t.Extends (t.after a) := by
  rcases after_eq_or_adds t a with hsame | ⟨above, hadds⟩
  · rw [hsame]
    exact .refl t
  · exact hadds.extends

theorem extends_foldl_after (t : SearchTree α) (additions : List (Addition α)) :
    t.Extends (additions.foldl after t) := by
  induction additions generalizing t with
  | nil => exact .refl t
  | cons a additions ih => exact (extends_after t a).trans (ih (t.after a))

/-- What was found out at a node is no part of what it was made with. -/
theorem get?_modify_bare {change : Node α → Node α} (keeps : ∀ n, (change n).bare = n.bare)
    (id i : Nat) :
    ((t.modify id change).get? i).map Node.bare = (t.get? i).map Node.bare := by
  rw [get?_modify]
  by_cases hi : i = id
  · rw [if_pos hi, Option.map_map]
    exact Option.map_congr fun n _ => keeps n
  · rw [if_neg hi]

theorem extends_modify {change : Node α → Node α} (keeps : ∀ n, (change n).bare = n.bare)
    (id : Nat) : t.Extends (t.modify id change) := by
  intro i n hn
  have hbare := get?_modify_bare (t := t) keeps id i
  rw [hn, Option.map_some, Option.map_eq_some_iff] at hbare
  obtain ⟨m, hm, hsame⟩ := hbare
  exact ⟨m, hm, Node.becomes_of_bare hsame⟩

/-! ## Linked trees -/

/-- A node has a parent, which stands before it and lists it. -/
def Placed (t : SearchTree α) (i : Nat) (n : Node α) : Prop :=
  ∃ parent above side cut, n.parent = some parent ∧ parent < i
    ∧ t.get? parent = some above ∧ above.childOn side = some i
    ∧ n.depth = above.depth + 1 ∧ n.cuts = above.cuts ++ [cut]

/-- A place that was found once is kept. -/
theorem Placed.extends {i : Nat} {n m : Node α} (h : t.Placed i n) (hext : t.Extends t')
    (hm : n.Becomes m) : t'.Placed i m := by
  obtain ⟨parent, above, side, cut, hparent, hless, habove, hside, hdepth, hcuts⟩ := h
  obtain ⟨above', habove', hbecomes⟩ := hext parent above habove
  refine ⟨parent, above', side, cut, hm.parent.trans hparent, hless, habove',
    hbecomes.child side i hside, ?_, ?_⟩
  · rw [hm.depth, hdepth, hbecomes.depth]
  · rw [hm.cuts, hcuts, hbecomes.cuts]

/-- A node that has a parent keeps it. -/
theorem Extends.exists_child {i child : Nat} (hext : t.Extends t')
    (h : ∃ below, t.get? child = some below ∧ below.parent = some i) :
    ∃ below, t'.get? child = some below ∧ below.parent = some i := by
  obtain ⟨below, hbelow, hparent⟩ := h
  obtain ⟨below', hbelow', hbecomes⟩ := hext child below hbelow
  exact ⟨below', hbelow', hbecomes.parent.trans hparent⟩

/-- What the nodes of a tree say about each other. -/
structure Linked (t : SearchTree α) : Prop where
  id : ∀ i n, t.get? i = some n → n.id = i
  root : ∀ n, t.get? rootId = some n → n.parent = none ∧ n.depth = 0 ∧ n.cuts = []
  placed : ∀ i n, t.get? i = some n → i ≠ rootId → t.Placed i n
  /-- What is listed as a child has the node as its parent. -/
  child : ∀ i n side child, t.get? i = some n → n.childOn side = some child →
    ∃ below, t.get? child = some below ∧ below.parent = some i
  /-- No child is listed twice. -/
  apart : ∀ i n one other child, t.get? i = some n → n.childOn one = some child →
    n.childOn other = some child → one = other

theorem linked_initial : (initial : SearchTree α).Linked := by
  have hroot : ∀ i n, (initial : SearchTree α).get? i = some n →
      i = rootId ∧ n = Node.fresh rootId none 0 [] :=
    fun i n hn => eq_of_get?_initial hn
  constructor
  case id =>
    intro i n hn
    rw [(hroot i n hn).1, (hroot i n hn).2]
    rfl
  case root =>
    intro n hn
    rw [(hroot _ n hn).2]
    exact ⟨rfl, rfl, rfl⟩
  case placed => exact fun i n hn hi => absurd (hroot i n hn).1 hi
  case child =>
    intro i n side child hn hchild
    rw [(hroot i n hn).2, Node.childOn_fresh] at hchild
    cases hchild
  case apart =>
    intro i n one other child hn hchild
    rw [(hroot i n hn).2, Node.childOn_fresh] at hchild
    cases hchild

namespace Linked

/-- **A new child keeps the links.** -/
theorem adds {a : Addition α} {above : Node α} (hl : t.Linked) (h : Adds t t' a above) :
    t'.Linked := by
  have hlt := h.parent_lt
  have habove := Node.becomes_withChild h.free t.size
  have hlisted : ∀ i n side child, t.get? i = some n → n.childOn side = some child →
      child < t.size := by
    intro i n side child hn hchild
    obtain ⟨below, hbelow, -⟩ := hl.child i n side child hn hchild
    exact lt_size_of_get? hbelow
  constructor
  case id =>
    intro i n hn
    rcases h.node_cases hn with ⟨hi, rfl⟩ | ⟨hi, rfl⟩ | ⟨-, hn⟩
    · exact hi.symm
    · rw [habove.id, hi]
      exact hl.id _ above h.there
    · exact hl.id i n hn
  case root =>
    intro n hn
    rcases h.node_cases hn with ⟨hi, -⟩ | ⟨hi, rfl⟩ | ⟨-, hn⟩
    · have hpos : rootId < t.size := t.size_pos
      omega
    · rw [habove.parent, habove.depth, habove.cuts]
      exact hl.root above (hi ▸ h.there)
    · exact hl.root n hn
  case placed =>
    intro i n hn hi
    rcases h.node_cases hn with ⟨rfl, rfl⟩ | ⟨rfl, rfl⟩ | ⟨-, hn⟩
    · refine ⟨a.parent, _, a.side, a.cut, rfl, hlt, h.get?_parent, ?_, ?_, ?_⟩
      · rw [Node.childOn_withChild, if_pos rfl]
      · rw [habove.depth]
        rfl
      · rw [habove.cuts]
        rfl
    · exact (hl.placed _ above h.there hi).extends h.extends habove
    · exact (hl.placed i n hn hi).extends h.extends (.refl n)
  case child =>
    intro i n side child hn hchild
    rcases h.node_cases hn with ⟨-, rfl⟩ | ⟨rfl, rfl⟩ | ⟨-, hn⟩
    · rw [Node.childOn_fresh] at hchild
      cases hchild
    · rw [Node.childOn_withChild] at hchild
      by_cases hside : side = a.side
      · rw [if_pos hside, Option.some.injEq] at hchild
        exact ⟨_, hchild ▸ h.get?_new, rfl⟩
      · rw [if_neg hside] at hchild
        exact h.extends.exists_child (hl.child _ above side child h.there hchild)
    · exact h.extends.exists_child (hl.child i n side child hn hchild)
  case apart =>
    intro i n one other child hn hone hother
    rcases h.node_cases hn with ⟨-, rfl⟩ | ⟨rfl, rfl⟩ | ⟨-, hn⟩
    · rw [Node.childOn_fresh] at hone
      cases hone
    · rw [Node.childOn_withChild] at hone hother
      -- the new child is behind every position that was listed before
      by_cases h₁ : one = a.side <;> by_cases h₂ : other = a.side
      · rw [h₁, h₂]
      · rw [if_pos h₁, Option.some.injEq] at hone
        rw [if_neg h₂] at hother
        have := hlisted _ above other child h.there hother
        omega
      · rw [if_neg h₁] at hone
        rw [if_pos h₂, Option.some.injEq] at hother
        have := hlisted _ above one child h.there hone
        omega
      · rw [if_neg h₁] at hone
        rw [if_neg h₂] at hother
        exact hl.apart _ above one other child h.there hone hother
    · exact hl.apart i n one other child hn hone hother

/-- **A request keeps the links**, granted or not. -/
theorem after (hl : t.Linked) (a : Addition α) : (t.after a).Linked := by
  rcases after_eq_or_adds t a with hsame | ⟨above, hadds⟩
  · rw [hsame]
    exact hl
  · exact hl.adds hadds

/-- What is found out at a node does not touch the links. -/
theorem modify {change : Node α → Node α} (hl : t.Linked)
    (keeps : ∀ n, (change n).bare = n.bare) (id : Nat) : (t.modify id change).Linked := by
  have hnew : ∀ i n, (t.modify id change).get? i = some n →
      ∃ old, t.get? i = some old ∧ n.bare = old.bare := by
    intro i n hn
    have hbare := get?_modify_bare (t := t) keeps id i
    rw [hn, Option.map_some] at hbare
    obtain ⟨old, hold, hsame⟩ := Option.map_eq_some_iff.mp hbare.symm
    exact ⟨old, hold, hsame.symm⟩
  constructor
  case id =>
    intro i n hn
    obtain ⟨old, ho, hsame⟩ := hnew i n hn
    exact (Node.becomes_of_bare hsame).id.trans (hl.id i old ho)
  case root =>
    intro n hn
    obtain ⟨old, ho, hsame⟩ := hnew _ n hn
    have hbecomes := Node.becomes_of_bare hsame
    rw [hbecomes.parent, hbecomes.depth, hbecomes.cuts]
    exact hl.root old ho
  case placed =>
    intro i n hn hi
    obtain ⟨old, ho, hsame⟩ := hnew i n hn
    exact (hl.placed i old ho hi).extends (extends_modify keeps id) (Node.becomes_of_bare hsame)
  case child =>
    intro i n side child hn hchild
    obtain ⟨old, ho, hsame⟩ := hnew i n hn
    rw [Node.childOn_eq_of_bare hsame] at hchild
    exact (extends_modify keeps id).exists_child (hl.child i old side child ho hchild)
  case apart =>
    intro i n one other child hn hone hother
    obtain ⟨old, ho, hsame⟩ := hnew i n hn
    rw [Node.childOn_eq_of_bare hsame] at hone hother
    exact hl.apart i old one other child ho hone hother

/-! ### Reading the links -/

section Reading

variable {i parent : Nat} {n : Node α}

theorem parent_eq_none_iff (hl : t.Linked) (hn : t.get? i = some n) :
    n.parent = none ↔ i = rootId := by
  by_cases hi : i = rootId
  · have hroot := hl.root n (hi ▸ hn)
    simp [hi, hroot.1]
  · obtain ⟨parent, -, -, -, hparent, -⟩ := hl.placed i n hn hi
    simp [hi, hparent]

/-- A node with a parent stands behind it, and is listed there on one side. -/
theorem of_parent (hl : t.Linked) (hn : t.get? i = some n) (hparent : n.parent = some parent) :
    parent < i ∧ ∃ above side cut, t.get? parent = some above ∧ above.childOn side = some i
      ∧ n.depth = above.depth + 1 ∧ n.cuts = above.cuts ++ [cut] := by
  have hi : i ≠ rootId := by
    intro hroot
    rw [← hl.parent_eq_none_iff hn, hparent] at hroot
    cases hroot
  obtain ⟨parent', above, side, cut, hparent', hless, habove, hside, hdepth, hcuts⟩ :=
    hl.placed i n hn hi
  obtain rfl : parent' = parent := Option.some.inj (hparent'.symm.trans hparent)
  exact ⟨hless, above, side, cut, habove, hside, hdepth, hcuts⟩

/-- A node has as many cuts as it is deep. -/
theorem depth_eq (hl : t.Linked) (hn : t.get? i = some n) : n.depth = n.cuts.length := by
  induction i using Nat.strong_induction_on generalizing n with
  | _ i ih =>
    by_cases hi : i = rootId
    · have hroot := hl.root n (hi ▸ hn)
      rw [hroot.2.1, hroot.2.2, List.length_nil]
    · obtain ⟨parent, above, -, cut, -, hless, habove, -, hdepth, hcuts⟩ := hl.placed i n hn hi
      have hparent := ih parent hless habove
      rw [hdepth, hcuts, List.length_append, List.length_singleton, hparent]

/-- **A child is found** below a node exactly if that is its parent. -/
theorem child?_eq_some_iff (hl : t.Linked) (i j : Nat) (m : Node α) :
    t.child? i j = some m ↔ t.get? j = some m ∧ m.parent = some i := by
  rw [child?]
  constructor
  · intro h
    obtain ⟨n, hn, h⟩ := Option.bind_eq_some_iff.mp h
    by_cases hlisted : (n.left == some j || n.right == some j) = true
    · rw [if_pos hlisted] at h
      -- on whichever side it is listed, its parent is the node that lists it
      have hside : ∃ side, n.childOn side = some j := by
        rw [Bool.or_eq_true, beq_iff_eq, beq_iff_eq] at hlisted
        rcases hlisted with hleft | hright
        · exact ⟨.left, hleft⟩
        · exact ⟨.right, hright⟩
      obtain ⟨side, hchild⟩ := hside
      obtain ⟨below, hbelow, hparent⟩ := hl.child i n side j hn hchild
      rw [h, Option.some.injEq] at hbelow
      exact ⟨h, hbelow ▸ hparent⟩
    · rw [if_neg hlisted] at h
      cases h
  · rintro ⟨hm, hparent⟩
    obtain ⟨-, above, side, -, habove, hchild, -, -⟩ := hl.of_parent hm hparent
    have hlisted : (above.left == some j || above.right == some j) = true := by
      cases side with
      | left =>
        have hleft : above.left = some j := hchild
        simp [hleft]
      | right =>
        have hright : above.right = some j := hchild
        simp [hright]
    rw [habove]
    exact (if_pos hlisted).trans hm

/-! ### The way up -/

/-- With more steps than its position, a walk up from a node has all it needs. -/
theorem ancestorsWithin_eq (hl : t.Linked) {steps steps' : Nat} (h : i < steps)
    (h' : i < steps') : t.ancestorsWithin steps i = t.ancestorsWithin steps' i := by
  -- the parent has a smaller position, so one step less is enough for it
  induction i using Nat.strong_induction_on generalizing steps steps' with
  | _ i ih =>
    obtain ⟨few, rfl⟩ : ∃ few, steps = few + 1 := ⟨steps - 1, by omega⟩
    obtain ⟨many, rfl⟩ : ∃ many, steps' = many + 1 := ⟨steps' - 1, by omega⟩
    rw [ancestorsWithin, ancestorsWithin]
    cases hn : t.get? i with
    | none => rfl
    | some n =>
      cases hparent : n.parent with
      | none => simp only [hparent]
      | some parent =>
        have hless := (hl.of_parent hn hparent).1
        have hsame : t.ancestorsWithin few parent = t.ancestorsWithin many parent :=
          ih parent hless (by omega) (by omega)
        simp only [hparent, hsame]

/-- A walk that may take more steps than there are nodes finds nothing more. -/
theorem ancestorsWithin_of_le (hl : t.Linked) {steps : Nat} (hle : t.size ≤ steps) (i : Nat) :
    t.ancestorsWithin steps i = t.ancestors i := by
  by_cases hi : i < t.size
  · exact hl.ancestorsWithin_eq (by omega) hi
  · have hnone : t.get? i = none := Array.getElem?_eq_none (Nat.not_lt.mp hi)
    have hpos : 0 < t.size := t.size_pos
    obtain ⟨few, hfew⟩ : ∃ few, t.size = few + 1 := ⟨t.size - 1, by omega⟩
    obtain ⟨many, rfl⟩ : ∃ many, steps = many + 1 := ⟨steps - 1, by omega⟩
    rw [ancestors, hfew]
    simp only [ancestorsWithin, hnone]

theorem ancestors_of_root (hn : t.get? i = some n) (hparent : n.parent = none) :
    t.ancestors i = [n] := by
  have hpos : 0 < t.size := t.size_pos
  obtain ⟨few, hfew⟩ : ∃ few, t.size = few + 1 := ⟨t.size - 1, by omega⟩
  rw [ancestors, hfew]
  simp only [ancestorsWithin, hn, hparent]

/-- **The way up from a node** is the node and the way up from its parent. -/
theorem ancestors_of_parent (hl : t.Linked) (hn : t.get? i = some n)
    (hparent : n.parent = some parent) : t.ancestors i = n :: t.ancestors parent := by
  have hi := lt_size_of_get? hn
  have hless := (hl.of_parent hn hparent).1
  obtain ⟨few, hfew⟩ : ∃ few, t.size = few + 1 := ⟨t.size - 1, by omega⟩
  have hrest : t.ancestorsWithin few parent = t.ancestors parent :=
    hl.ancestorsWithin_eq (by omega) (by omega)
  rw [← hrest, ancestors, hfew, ancestorsWithin]
  simp only [hn, hparent]

/-- What there is to know about the way up from a node: it begins with the node, goes from
each node to its parent, and ends at the root after as many steps as the node is deep. -/
structure WayUp (t : SearchTree α) (n : Node α) (way : List (Node α)) : Prop where
  head : way.head? = some n
  parents : way.IsChain fun below above => below.parent = some above.id
  last : way.getLast? = some t.root
  length : way.length = n.depth + 1

/-- **The way up** from every node leads to the root. -/
theorem wayUp_ancestors (hl : t.Linked) (hn : t.get? i = some n) :
    WayUp t n (t.ancestors i) := by
  induction i using Nat.strong_induction_on generalizing n with
  | _ i ih =>
    by_cases hi : i = rootId
    · have hroot := hl.root n (hi ▸ hn)
      have hnode : t.root = n := by
        have hthere := t.get?_rootId
        rw [← hi, hn, Option.some.injEq] at hthere
        exact hthere.symm
      rw [ancestors_of_root hn hroot.1]
      exact ⟨rfl, List.isChain_singleton n, by rw [hnode]; rfl, by rw [hroot.2.1]; rfl⟩
    · obtain ⟨parent, above, -, -, hparent, hless, habove, -, hdepth, -⟩ := hl.placed i n hn hi
      have hrest := ih parent hless habove
      rw [hl.ancestors_of_parent hn hparent]
      -- the way up from the parent is not empty, since it begins with the parent
      obtain ⟨rest, hway⟩ : ∃ rest, t.ancestors parent = above :: rest :=
        List.head?_eq_some_iff.mp hrest.head
      refine ⟨rfl, ?_, ?_, ?_⟩
      · have hchain := hrest.parents
        rw [hway] at hchain ⊢
        rw [List.isChain_cons_cons]
        exact ⟨by rw [hparent, hl.id parent above habove], hchain⟩
      · have hlast := hrest.last
        rw [hway] at hlast ⊢
        rw [List.getLast?_cons_cons]
        exact hlast
      · rw [List.length_cons, hrest.length, hdepth]

end Reading

end Linked

theorem linked_grow (additions : List (Addition α)) : (grow additions).Linked := by
  induction additions using List.reverseRecOn with
  | nil => exact linked_initial
  | append_singleton additions a ih =>
    rw [grow_concat]
    exact ih.after a

/-! ## Where a node comes from -/

/-- A request of a list added the node at a position: it was answered with it. -/
def Added (additions : List (Addition α)) (i : Nat) (a : Addition α) : Prop :=
  ∃ before later grown, additions = before ++ a :: later
    ∧ (grow before).addChild? a.parent a.side a.cut = some (i, grown)

/-- Every node but the root was added by a request. -/
theorem exists_added (additions : List (Addition α)) {i : Nat} {n : Node α}
    (hn : (grow additions).get? i = some n) (hi : i ≠ rootId) : ∃ a, Added additions i a := by
  induction additions using List.reverseRecOn generalizing n with
  | nil => exact absurd (eq_of_get?_initial hn).1 hi
  | append_singleton additions a ih =>
    have hearlier : ∀ m, (grow additions).get? i = some m →
        ∃ b, Added (additions ++ [a]) i b := by
      intro m hm
      obtain ⟨b, before, later, grown, rfl, hb⟩ := ih hm
      exact ⟨b, before, later ++ [a], grown, by simp, hb⟩
    rw [grow_concat] at hn
    cases h : (grow additions).addChild? a.parent a.side a.cut with
    | none =>
      rw [after_of_refused h] at hn
      exact hearlier n hn
    | some answer =>
      obtain ⟨hid, hafter, above, hadds⟩ := addChild?_eq_some h
      rw [hafter] at hn
      rcases hadds.node_cases hn with ⟨hnew, -⟩ | ⟨hparent, -⟩ | ⟨-, hm⟩
      · refine ⟨a, additions, [], answer.2, rfl, ?_⟩
        rw [h, hnew, ← hid]
      · exact hearlier above (hparent ▸ hadds.there)
      · exact hearlier n hm

/-- **A node is what was asked for**: it is below the parent of the request, on its side,
and has the parent's cuts and then the one of the request. -/
theorem of_added {additions : List (Addition α)} {i : Nat} {a : Addition α} {n : Node α}
    (hn : (grow additions).get? i = some n) (h : Added additions i a) :
    n.parent = some a.parent ∧ ∃ above, (grow additions).get? a.parent = some above
      ∧ above.childOn a.side = some i ∧ n.cuts = above.cuts ++ [a.cut] := by
  obtain ⟨before, later, grown, rfl, hgranted⟩ := h
  obtain ⟨rfl, hafter, above, hadds⟩ := addChild?_eq_some hgranted
  -- the node and its parent are right when the request is granted, and later trees extend
  -- that one
  have hlater : grown.Extends (grow (before ++ a :: later)) := by
    rw [grow_append, List.foldl_cons, hafter]
    exact extends_foldl_after grown later
  obtain ⟨n', hn', hnode⟩ := hlater _ _ hadds.get?_new
  obtain ⟨above', habove', hparent⟩ := hlater _ _ hadds.get?_parent
  obtain rfl : n' = n := Option.some.inj (hn'.symm.trans hn)
  have hbecomes := Node.becomes_withChild hadds.free (grow before).size
  refine ⟨hnode.parent, above', habove', hparent.child a.side _ ?_, ?_⟩
  · rw [Node.childOn_withChild, if_pos rfl]
  · rw [hnode.cuts, hparent.cuts, hbecomes.cuts]
    rfl

/-! ## Binary trees -/

/-- A tree is the binary tree that a list of requests describes. -/
structure IsBinary (additions : List (Addition α)) (t : SearchTree α) : Prop where
  id : ∀ i n, t.get? i = some n → n.id = i
  /-- There is a root, and it is the only node without a parent. -/
  root : t.get? rootId = some t.root
    ∧ ∀ i n, t.get? i = some n → (n.parent = none ↔ i = rootId)
  /-- A parent stands before its child and lists it on exactly one side. -/
  above : ∀ i n parent, t.get? i = some n → n.parent = some parent →
    parent < i ∧ ∃ above, t.get? parent = some above
      ∧ (∃! side, above.childOn side = some i) ∧ n.depth = above.depth + 1
  /-- No node lists any other child. -/
  child : ∀ i n side child, t.get? i = some n → n.childOn side = some child →
    ∃ below, t.get? child = some below ∧ below.parent = some i
  depth : ∀ i n, t.get? i = some n → n.depth = n.cuts.length
  /-- Every node but the root was asked for, and is as it was asked for. -/
  added : ∀ i n, t.get? i = some n → i ≠ rootId → ∃ a, Added additions i a
  asked : ∀ i n a, t.get? i = some n → Added additions i a →
    n.parent = some a.parent ∧ ∃ above, t.get? a.parent = some above
      ∧ above.childOn a.side = some i ∧ n.cuts = above.cuts ++ [a.cut]
  /-- The way up ends at the root, and no walk gets further. -/
  ancestors : ∀ i n, t.get? i = some n → Linked.WayUp t n (t.ancestors i)
    ∧ ∀ steps, t.size ≤ steps → t.ancestorsWithin steps i = t.ancestors i
  /-- A child is found below its parent and nowhere else. -/
  found : ∀ i j m, t.child? i j = some m ↔ t.get? j = some m ∧ m.parent = some i
  /-- A request is refused for an unknown parent or a side that is taken, and exactly then
  the tree stays as it is. -/
  refused : ∀ a : Addition α, t.addChild? a.parent a.side a.cut = none
    ↔ t.get? a.parent = none
      ∨ ∃ above, t.get? a.parent = some above ∧ (above.childOn a.side).isSome = true
  unchanged : ∀ a : Addition α, grow (additions ++ [a]) = t
    ↔ t.addChild? a.parent a.side a.cut = none

/-- A request changes the tree exactly if it is granted. -/
theorem after_eq_self_iff (t : SearchTree α) (a : Addition α) :
    t.after a = t ↔ t.addChild? a.parent a.side a.cut = none := by
  constructor
  · intro hsame
    by_contra hgranted
    obtain ⟨answer, h⟩ := Option.ne_none_iff_exists'.mp hgranted
    obtain ⟨-, hafter, above, hadds⟩ := addChild?_eq_some h
    have hsize := hadds.size
    rw [← hafter, hsame] at hsize
    omega
  · exact after_of_refused

/-- **Whatever is asked for, the tree is a binary tree.** Nodes know their positions,
parents and children name each other, depths and cuts grow by one on the way down, and the
way up from every node ends at the root. -/
theorem isBinary_grow (additions : List (Addition α)) :
    IsBinary additions (grow additions) := by
  have hl := linked_grow additions
  constructor
  case id => exact hl.id
  case root => exact ⟨get?_rootId _, fun i n hn => hl.parent_eq_none_iff hn⟩
  case above =>
    intro i n parent hn hparent
    obtain ⟨hless, above, side, -, habove, hside, hdepth, -⟩ := hl.of_parent hn hparent
    refine ⟨hless, above, habove, ⟨side, hside, fun other hother => ?_⟩, hdepth⟩
    exact hl.apart parent above other side i habove hother hside
  case child => exact hl.child
  case depth => exact fun i n hn => hl.depth_eq hn
  case added => exact fun i n hn hi => exists_added additions hn hi
  case asked => exact fun i n a hn h => of_added hn h
  case ancestors =>
    exact fun i n hn => ⟨hl.wayUp_ancestors hn, fun steps hle => hl.ancestorsWithin_of_le hle i⟩
  case found => exact hl.child?_eq_some_iff
  case refused => exact addChild?_eq_none_iff _
  case unchanged =>
    intro a
    rw [grow_concat]
    exact after_eq_self_iff _ a

/-- The second request is refused, since the side is taken, and so is the third. -/
example : ((grow [⟨0, .left, ⟨1, 0, true, 2⟩⟩, ⟨0, .left, ⟨2, 0, true, 0⟩⟩,
    ⟨7, .left, ⟨3, 0, true, 0⟩⟩, ⟨1, .right, ⟨4, 1, false, 1⟩⟩] : SearchTree Nat).ancestors 2).map
      (fun n => (n.id, n.depth)) = [(2, 2), (1, 1), (0, 0)] := by
  decide

/-! ## What is below a node -/

/-- A node is another one or below it: the other one is on the way up. -/
def IsBelow (t : SearchTree α) (top i : Nat) : Prop := ∃ n ∈ t.ancestors i, n.id = top

namespace Linked

variable {i top : Nat} {n : Node α}

theorem isBelow_iff (hl : t.Linked) (hn : t.get? i = some n) (top : Nat) :
    t.IsBelow top i
      ↔ i = top ∨ ∃ parent, n.parent = some parent ∧ t.IsBelow top parent := by
  have hid := hl.id i n hn
  cases hparent : n.parent with
  | none =>
    rw [IsBelow, ancestors_of_root hn hparent]
    simp [hid]
  | some parent =>
    rw [IsBelow, hl.ancestors_of_parent hn hparent]
    simp [hid, IsBelow]

/-- What is below a node stands behind it. -/
theorem le_of_isBelow (hl : t.Linked) (hn : t.get? i = some n) (h : t.IsBelow top i) :
    top ≤ i := by
  induction i using Nat.strong_induction_on generalizing n with
  | _ i ih =>
    rcases (hl.isBelow_iff hn top).mp h with heq | ⟨parent, hparent, hbelow⟩
    · omega
    · obtain ⟨hless, above, -, -, habove, -⟩ := hl.of_parent hn hparent
      have hle := ih parent hless habove hbelow
      omega

/-- Whether a node is below another one does not change any more. -/
theorem isBelow_extends (hl : t.Linked) (hl' : t'.Linked) (hext : t.Extends t')
    (hn : t.get? i = some n) : t'.IsBelow top i ↔ t.IsBelow top i := by
  induction i using Nat.strong_induction_on generalizing n with
  | _ i ih =>
    obtain ⟨m, hm, hbecomes⟩ := hext i n hn
    rw [hl.isBelow_iff hn, hl'.isBelow_iff hm, hbecomes.parent]
    refine or_congr_right (exists_congr fun parent => and_congr_right fun hparent => ?_)
    obtain ⟨hless, above, -, -, habove, -⟩ := hl.of_parent hn hparent
    exact ih parent hless habove

end Linked

end SearchTree

end Milp
