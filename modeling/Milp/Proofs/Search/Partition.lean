/-
The open subproblems partition what is left to search.

A search describes a subproblem twice: as a box on the stack, and as the list of cuts
at a node of the tree. `Tracks` says that the two descriptions agree. The nodes on the
stack are the pending leaves, each once, and the box of an entry is the box of the root
narrowed by the cuts of its node.

`Partitions` says that no region is lost or held twice: every whole point of the root's
box lies in the cut box of exactly one leaf.

A step either closes the top node, which moves no boundary, or splits it. The children
of a split hold the points of their parent on either side of a value that is not whole,
so every whole point of the parent is in exactly one of them. Nothing is asked of the
oracle.
-/
import Milp.Proofs.Search.Choice
import Milp.Proofs.Search.Steps

set_option autoImplicit false

namespace Milp.Search

open Number (exact Lawful)

variable {α : Type} [Number α]

/-! ## The two invariants -/

/-- The stack and the tree describe the same open subproblems. -/
structure Tracks (p : Program α) (s : State α) : Prop where
  /-- No node is on the stack twice. -/
  nodup : (s.stack.map (·.node)).Nodup
  /-- The nodes on the stack are the pending leaves. -/
  open_iff : ∀ id, id ∈ s.stack.map (·.node)
    ↔ ∃ n, s.tree.get? id = some n ∧ n.IsLeaf ∧ n.outcome = .pending
  /-- The box of an entry is the root's, narrowed by the cuts of its node. -/
  box_eq : ∀ e ∈ s.stack, ∀ n, s.tree.get? e.node = some n → e.box = cutBox p n.cuts
  /-- Cuts bound columns that must be whole, by numbers. -/
  cuts : ∀ id n, s.tree.get? id = some n → ∀ c ∈ n.cuts,
    exact c.bound ≠ .nan ∧ c.column ∈ p.integerColumns

/-- The leaf at a position holds a point. -/
def LeafHas (p : Program α) (t : SearchTree α) (x : List α) (id : Nat) : Prop :=
  ∃ n, t.get? id = some n ∧ n.IsLeaf ∧ Box.Has (cutBox p n.cuts) x

/-- Every whole point of the root's box lies in exactly one leaf. -/
def Partitions (p : Program α) (s : State α) : Prop :=
  ∀ x, Box.Has (rootBox p) x → p.WholeAt x → ∃! id, LeafHas p s.tree x id

/-! ## The start -/

theorem tracks_initial (p : Program α) : Tracks p (.initial p) where
  nodup := List.nodup_singleton _
  open_iff id := by
    show id ∈ [SearchTree.rootId] ↔ _
    rw [List.mem_singleton]
    constructor
    · rintro rfl
      exact ⟨_, by rw [State.initial, SearchTree.get?_initial, if_pos rfl],
        Node.isLeaf_fresh _ _ _ _, rfl⟩
    · rintro ⟨n, hn, -⟩
      exact (SearchTree.eq_of_get?_initial hn).1
  box_eq e he n hn := by
    obtain rfl : e = ⟨SearchTree.rootId, rootBox p⟩ := List.mem_singleton.mp he
    rw [(SearchTree.eq_of_get?_initial hn).2]
    rfl
  cuts id n hn c hc := by
    rw [(SearchTree.eq_of_get?_initial hn).2] at hc
    cases hc

theorem partitions_initial (p : Program α) : Partitions p (.initial p) := by
  intro x hx _
  refine ⟨SearchTree.rootId, ⟨Node.fresh SearchTree.rootId none 0 [],
    by rw [State.initial, SearchTree.get?_initial, if_pos rfl],
    Node.isLeaf_fresh _ _ _ _, hx⟩, ?_⟩
  rintro id ⟨n, hn, -⟩
  exact (SearchTree.eq_of_get?_initial hn).1

/-! ## Closing a node -/

section Turns

variable {p : Program α} {s next : State α} {here : Pending α} {rest : List (Pending α)}
  {n : Node α} {column : Nat} {value : α}

theorem Tracks.top_pending (h : Tracks p s) (hstack : s.stack = here :: rest) :
    ∃ n, s.tree.get? here.node = some n ∧ n.IsLeaf ∧ n.outcome = .pending :=
  (h.open_iff here.node).mp (List.mem_map_of_mem (hstack ▸ List.mem_cons_self))

theorem Tracks.top (h : Tracks p s) (hstack : s.stack = here :: rest) :
    ∃ n, s.tree.get? here.node = some n ∧ n.IsLeaf ∧ here.box = cutBox p n.cuts := by
  obtain ⟨n, hn, hleaf, -⟩ := h.top_pending hstack
  exact ⟨n, hn, hleaf, h.box_eq here (hstack ▸ List.mem_cons_self) n hn⟩

theorem Tracks.top_ne (h : Tracks p s) (hstack : s.stack = here :: rest) :
    here.node ∉ rest.map (·.node) ∧ (rest.map (·.node)).Nodup := by
  have := h.nodup
  rw [hstack, List.map_cons] at this
  exact List.nodup_cons.mp this

/-- The nodes below the top are the other pending leaves. -/
theorem Tracks.mem_rest_iff (h : Tracks p s) (hstack : s.stack = here :: rest) (id : Nat) :
    id ∈ rest.map (·.node) ↔ id ≠ here.node
      ∧ ∃ n, s.tree.get? id = some n ∧ n.IsLeaf ∧ n.outcome = .pending := by
  rw [← h.open_iff id, hstack, List.map_cons, List.mem_cons]
  constructor
  · exact fun hid => ⟨fun heq => (h.top_ne hstack).1 (heq ▸ hid), .inr hid⟩
  · exact fun ⟨hne, hid⟩ => hid.resolve_left hne

theorem Tracks.closes (h : Tracks p s) (hstack : s.stack = here :: rest)
    (hc : Closes (s.taken rest) next here.node) : Tracks p next := by
  obtain ⟨hnot, hnodup⟩ := h.top_ne hstack
  have hrest : next.stack = rest := hc.stack
  obtain ⟨n, hn, -, -⟩ := h.top hstack
  have hothers : ∀ j, j ≠ here.node → next.tree.get? j = s.tree.get? j := hc.others
  refine ⟨hrest ▸ hnodup, fun id => ?_, fun e he k hk => ?_, fun id k hk c hcut => ?_⟩
  · rw [hrest, h.mem_rest_iff hstack]
    constructor
    · rintro ⟨hne, k, hk, hleaf, hpending⟩
      exact ⟨k, (hothers id hne).trans hk, hleaf, hpending⟩
    · rintro ⟨k, hk, hleaf, hpending⟩
      rcases hc.node_cases hn hk with ⟨-, -, -, -, hout⟩ | ⟨hne, hold⟩
      · exact absurd hpending hout
      · exact ⟨hne, k, hold, hleaf, hpending⟩
  · rw [hrest] at he
    have hne : e.node ≠ here.node := fun heq => hnot (heq ▸ List.mem_map_of_mem he)
    rw [hothers e.node hne] at hk
    exact h.box_eq e (hstack ▸ List.mem_cons_of_mem _ he) k hk
  · rcases hc.node_cases hn hk with ⟨-, -, -, hcuts, -⟩ | ⟨-, hold⟩
    · exact h.cuts here.node n hn c (hcuts ▸ hcut)
    · exact h.cuts id k hold c hcut

theorem Partitions.closes {node : Nat} (h : Partitions p s) (hn : s.tree.get? node = some n)
    (hc : Closes (s.taken rest) next node) : Partitions p next := by
  -- a closed node keeps its cuts and its children, so the leaves hold what they held
  have hleaf : ∀ x id, LeafHas p next.tree x id ↔ LeafHas p s.tree x id := by
    intro x id
    by_cases hid : id = node
    · subst hid
      obtain ⟨m, hm, hl, hr, hcuts, -⟩ := hc.itself n hn
      simp [LeafHas, hn, hm, Node.IsLeaf, hl, hr, hcuts]
    · have hget : next.tree.get? id = s.tree.get? id := hc.others id hid
      rw [LeafHas, hget, LeafHas]
  intro x hx hwhole
  simpa only [hleaf] using h x hx hwhole

/-! ## Splitting a node -/

/-- The two halves are the box tightened by the two cuts. -/
theorem mem_halves_iff (p : Program α) (box : Box α) (column : Nat) (value : α) (first : Nat)
    (lowerId upperId : Nat) (e : Pending α) :
    e ∈ halves p box column value first
      ↔ e = ⟨first, Cut.tighten box ⟨lowerId, column, true, Number.floor value⟩⟩
        ∨ e = ⟨first + 1, Cut.tighten box ⟨upperId, column, false, Number.ceil value⟩⟩ := by
  unfold halves
  split
  · exact List.mem_pair.trans or_comm
  · exact List.mem_pair

/-- The cuts of the two halves, and the boxes they make. -/
theorem halves_eq (p : Program α) {n : Node α} {box : Box α} (id : Nat) (column : Nat)
    (value : α) (first : Nat) (hbox : box = cutBox p n.cuts) :
    ∀ e ∈ halves p box column value first,
      (e.node = first
        ∧ e.box = cutBox p (n.cuts ++ [⟨id + 1, column, true, Number.floor value⟩]))
      ∨ (e.node = first + 1
        ∧ e.box = cutBox p (n.cuts ++ [⟨id + 2, column, false, Number.ceil value⟩])) := by
  intro e he
  rw [cutBox_append, cutBox_append, ← hbox]
  rcases (mem_halves_iff p box column value first (id + 1) (id + 2) e).mp he with rfl | rfl
  · exact .inl ⟨rfl, rfl⟩
  · exact .inr ⟨rfl, rfl⟩

theorem halves_perm (p : Program α) (box : Box α) (column : Nat) (value : α) (first : Nat) :
    ((halves p box column value first).map (·.node)).Perm [first, first + 1] := by
  unfold halves
  split
  · exact List.Perm.swap _ _ _
  · exact List.Perm.refl _

theorem has_of_mem_halves [Lawful α] {box : Box α} {first : Nat} {e : Pending α}
    {x : List α} (hbox : Box.IsProper box)
    (hcol : column < box.length) (hgap : Number.gt (Number.integralityGap value) 0 = true)
    (he : e ∈ halves p box column value first) (hx : Box.Has e.box x) : Box.Has box x := by
  obtain ⟨hfloor, hceil⟩ := Number.neighbours_of_gap_pos hgap
  rcases (mem_halves_iff p box column value first 0 0 e).mp he with rfl | rfl
  · exact ((Cut.has_tighten_iff hbox hfloor hcol).mp hx).1
  · exact ((Cut.has_tighten_iff hbox hceil hcol).mp hx).1

/-- A whole point of the box lies in one of the halves. -/
theorem exists_mem_halves [Lawful α] {box : Box α} (first : Nat) {x : List α}
    (hx : Box.Has box x) (hcol : column < box.length)
    (hgap : Number.gt (Number.integralityGap value) 0 = true)
    (hwhole : Number.isWhole (Number.valueAt x column) = true) :
    ∃ e ∈ halves p box column value first, Box.Has e.box x := by
  have hbox := Box.isProper_of_has hx
  obtain ⟨hfloor, hceil⟩ := Number.neighbours_of_gap_pos hgap
  -- the value at the column was compared with its bounds, so it is a number
  have hnum := (Number.exact_ne_nan_of_le (Box.has_at hx hcol).1).2
  have hmem := mem_halves_iff p box column value first 0 0
  rcases Number.whole_beside hgap hwhole hnum with ⟨hle, -⟩ | ⟨-, hle⟩
  · exact ⟨_, (hmem _).mpr (.inl rfl), (Cut.has_tighten_iff hbox hfloor hcol).mpr ⟨hx, hle⟩⟩
  · exact ⟨_, (hmem _).mpr (.inr rfl), (Cut.has_tighten_iff hbox hceil hcol).mpr ⟨hx, hle⟩⟩

theorem Branches.perm_nodes (hb : Branches p (s.taken rest) next here n column value) :
    (next.stack.map (·.node)).Perm ([s.tree.size, s.tree.size + 1] ++ rest.map (·.node)) := by
  rw [hb.stack, List.map_append]
  exact (halves_perm p here.box column value s.tree.size).append_right _

theorem Tracks.branches [Lawful α] (h : Tracks p s) (hstack : s.stack = here :: rest)
    (hbox : here.box = cutBox p n.cuts) (hn : s.tree.get? here.node = some n)
    (hcol : column ∈ p.integerColumns)
    (hgap : Number.gt (Number.integralityGap value) 0 = true)
    (hb : Branches p (s.taken rest) next here n column value) : Tracks p next := by
  obtain ⟨-, hnodup⟩ := h.top_ne hstack
  have hnodes := hb.perm_nodes
  have hlower : next.tree.get? s.tree.size = some _ := hb.lower
  have hupper : next.tree.get? (s.tree.size + 1) = some _ := hb.upper
  refine ⟨?_, fun id => ?_, fun e he k hk => ?_, fun id k hk => ?_⟩
  -- the children are new, so their ids are neither on the stack nor equal
  · rw [hnodes.nodup_iff, List.nodup_append]
    refine ⟨by simp, hnodup, ?_⟩
    intro a ha b hb'
    obtain ⟨-, k, hk, -⟩ := (h.mem_rest_iff hstack b).mp hb'
    have := SearchTree.lt_size_of_get? hk
    rcases List.mem_pair.mp ha with rfl | rfl <;> omega
  · rw [hnodes.mem_iff, List.mem_append, List.mem_pair, h.mem_rest_iff hstack]
    constructor
    · rintro ((rfl | rfl) | ⟨hne, k, hk, hleaf, hpending⟩)
      · exact ⟨_, hlower, Node.isLeaf_fresh _ _ _ _, rfl⟩
      · exact ⟨_, hupper, Node.isLeaf_fresh _ _ _ _, rfl⟩
      · exact ⟨k, hb.get?_old hne hk, hleaf, hpending⟩
    · rintro ⟨k, hk, hleaf, hpending⟩
      rcases hb.node_cases hk with ⟨hid, -⟩ | ⟨hid, -⟩ | ⟨-, hbranched, -⟩ | ⟨hne, hold⟩
      · exact .inl (.inl hid)
      · exact .inl (.inr hid)
      · exact absurd hleaf hbranched
      · exact .inr ⟨hne, k, hold, hleaf, hpending⟩
  -- a half is the box tightened by the cut that its node has one more of
  · rw [hb.stack, List.mem_append] at he
    rcases he with he | he
    · rcases halves_eq p s.cuts column value s.tree.size hbox e he with
        ⟨hnode, hebox⟩ | ⟨hnode, hebox⟩
      · rw [hnode, hlower, Option.some.injEq] at hk
        rw [← hk]
        exact hebox
      · rw [hnode, hupper, Option.some.injEq] at hk
        rw [← hk]
        exact hebox
    · obtain ⟨hne, k', hk', -⟩ := (h.mem_rest_iff hstack e.node).mp (List.mem_map_of_mem he)
      rw [hb.get?_old hne hk', Option.some.injEq] at hk
      exact h.box_eq e (hstack ▸ List.mem_cons_of_mem _ he) k (hk ▸ hk')
  · obtain ⟨hfloor, hceil⟩ := Number.neighbours_of_gap_pos hgap
    have hparent := h.cuts here.node n hn
    rcases hb.node_cases hk with ⟨-, rfl⟩ | ⟨-, rfl⟩ | ⟨-, -, hcuts, -⟩ | ⟨-, hk⟩
    · exact List.forall_mem_append.mpr ⟨hparent, List.forall_mem_singleton.mpr ⟨hfloor, hcol⟩⟩
    · exact List.forall_mem_append.mpr ⟨hparent, List.forall_mem_singleton.mpr ⟨hceil, hcol⟩⟩
    · rw [hcuts]
      exact hparent
    · exact h.cuts id k hk

/-- The leaves after a split that hold a point: a half of the split node, or another leaf. -/
theorem leafHas_branches (hb : Branches p (s.taken rest) next here n column value)
    (x : List α) (id : Nat) :
    LeafHas p next.tree x id
      ↔ (id = s.tree.size
          ∧ Box.Has (cutBox p (n.cuts ++ [⟨s.cuts + 1, column, true, Number.floor value⟩])) x)
        ∨ (id = s.tree.size + 1
          ∧ Box.Has (cutBox p (n.cuts ++ [⟨s.cuts + 2, column, false, Number.ceil value⟩])) x)
        ∨ (id ≠ here.node ∧ LeafHas p s.tree x id) := by
  constructor
  · rintro ⟨k, hk, hleaf, hbox⟩
    rcases hb.node_cases hk with ⟨hid, rfl⟩ | ⟨hid, rfl⟩ | ⟨-, hbranched, -⟩ | ⟨hne, hold⟩
    · exact .inl ⟨hid, hbox⟩
    · exact .inr (.inl ⟨hid, hbox⟩)
    · exact absurd hleaf hbranched
    · exact .inr (.inr ⟨hne, k, hold, hleaf, hbox⟩)
  · rintro (⟨rfl, hbox⟩ | ⟨rfl, hbox⟩ | ⟨hne, k, hk, hleaf, hbox⟩)
    · exact ⟨_, hb.lower, Node.isLeaf_fresh _ _ _ _, hbox⟩
    · exact ⟨_, hb.upper, Node.isLeaf_fresh _ _ _ _, hbox⟩
    · exact ⟨k, hb.get?_old hne hk, hleaf, hbox⟩

theorem Partitions.branches [Lawful α]
    (h : Partitions p s) (ht : Tracks p s) (hn : s.tree.get? here.node = some n)
    (leaf : n.IsLeaf) (hcol : column ∈ p.integerColumns)
    (hgap : Number.gt (Number.integralityGap value) 0 = true)
    (hb : Branches p (s.taken rest) next here n column value) : Partitions p next := by
  intro x hx hwhole
  obtain ⟨id, hid, hunique⟩ := h x hx hwhole
  have hlt : column < p.columns.length := (Program.mem_integerColumns.mp hcol).1
  have hparent : Box.IsProper (cutBox p n.cuts) := by
    refine isProper_cutBox (Box.isProper_of_has hx) fun c hc => ?_
    obtain ⟨hbound, hc⟩ := ht.cuts here.node n hn c hc
    exact ⟨hbound, (Program.mem_integerColumns.mp hc).1⟩
  have hnum : exact (Number.valueAt x column) ≠ .nan := by
    have := Box.has_at hx (i := column) (by rw [length_rootBox]; exact hlt)
    exact (Number.exact_ne_nan_of_le this.1).2
  obtain ⟨hfloor, hceil⟩ := Number.neighbours_of_gap_pos hgap
  have hhere : LeafHas p s.tree x here.node ↔ Box.Has (cutBox p n.cuts) x := by
    simp [LeafHas, hn, leaf]
  -- each half holds the points of the parent on its side of the value
  have hlower : Box.Has (cutBox p (n.cuts ++ [⟨s.cuts + 1, column, true, Number.floor value⟩])) x
      ↔ LeafHas p s.tree x here.node
        ∧ Number.le (Number.valueAt x column) (Number.floor value) = true := by
    rw [cutBox_append, hhere]
    exact Cut.has_tighten_iff hparent hfloor (by rw [length_cutBox]; exact hlt)
  have hupper : Box.Has (cutBox p (n.cuts ++ [⟨s.cuts + 2, column, false, Number.ceil value⟩])) x
      ↔ LeafHas p s.tree x here.node
        ∧ Number.le (Number.ceil value) (Number.valueAt x column) = true := by
    rw [cutBox_append, hhere]
    exact Cut.has_tighten_iff hparent hceil (by rw [length_cutBox]; exact hlt)
  have hleaves := leafHas_branches hb x
  rw [hlower, hupper] at hleaves
  have hbeside := Number.whole_beside hgap (hwhole column hcol) hnum
  by_cases hin : LeafHas p s.tree x here.node
  -- a point of the split node goes to the half on its side of the value
  · obtain rfl := hunique _ hin
    rcases hbeside with ⟨hle, hnot⟩ | ⟨hnot, hle⟩
    · refine ⟨s.tree.size, (hleaves _).mpr (.inl ⟨rfl, hin, hle⟩), fun j hj => ?_⟩
      rcases (hleaves j).mp hj with hj | hj | hj
      · exact hj.1
      · rw [hnot] at hj
        exact absurd hj.2.2 Bool.false_ne_true
      · exact absurd (hunique j hj.2) hj.1
    · refine ⟨s.tree.size + 1, (hleaves _).mpr (.inr (.inl ⟨rfl, hin, hle⟩)), fun j hj => ?_⟩
      rcases (hleaves j).mp hj with hj | hj | hj
      · rw [hnot] at hj
        exact absurd hj.2.2 Bool.false_ne_true
      · exact hj.1
      · exact absurd (hunique j hj.2) hj.1
  -- any other point stays in its leaf
  · refine ⟨id, (hleaves id).mpr (.inr (.inr ⟨fun heq => hin (heq ▸ hid), hid⟩)), fun j hj => ?_⟩
    rcases (hleaves j).mp hj with hj | hj | hj
    · exact absurd hj.2.1 hin
    · exact absurd hj.2.1 hin
    · exact hunique j hj.2

end Turns

/-! ## Every reachable state -/

/-- Both invariants hold at the head of the loop, whatever the oracle answers. -/
theorem Reachable.tracks_and_partitions [Lawful α] {p : Program α} {limits : Limits α}
    {oracle : Oracle α} {watch : Nat → Sighting}
    (nonneg : Number.le 0 limits.tolerance = true) {s : State α}
    (reached : Reachable p limits oracle watch s) : Tracks p s ∧ Partitions p s := by
  refine reached.turns (P := fun s => Tracks p s ∧ Partitions p s)
    ⟨tracks_initial p, partitions_initial p⟩
    fun s here rest relaxation next _ ih hstack _ hc => ?_
  obtain ⟨ht, hp⟩ := ih
  obtain ⟨n, hn, hleaf, hbox⟩ := ht.top hstack
  rcases hc.closes_or_branched with hcloses | ⟨values, objective, column, hchosen, rfl⟩
  · exact ⟨ht.closes hstack hcloses, hp.closes hn hcloses⟩
  · obtain ⟨hcol, hgap⟩ := splitColumn?_some nonneg hchosen
    have hb := branches_split p here values objective column
      (Number.valueAt values column) (s := State.taken s rest) hn hleaf
    exact ⟨ht.branches hstack hbox hn hcol hgap hb, hp.branches ht hn hleaf hcol hgap hb⟩

/-- **No region is lost and none is searched twice.** At the head of every turn of the
loop the box of a stack entry is the root's, narrowed by the cuts of its node; the nodes
on the stack are the pending leaves, each once; and every whole point of the root's box
lies in the cut box of exactly one leaf. -/
theorem open_subproblems_partition [Lawful α] (p : Program α) (limits : Limits α)
    (oracle : Oracle α) (watch : Nat → Sighting)
    (nonneg : Number.le 0 limits.tolerance = true) (s : State α)
    (reached : Reachable p limits oracle watch s) :
    (∀ e ∈ s.stack, ∃ n, s.tree.get? e.node = some n ∧ e.box = cutBox p n.cuts)
      ∧ (s.stack.map (·.node)).Nodup
      ∧ (∀ id, id ∈ s.stack.map (·.node)
          ↔ ∃ n, s.tree.get? id = some n ∧ n.IsLeaf ∧ n.outcome = .pending)
      ∧ ∀ x, Box.Has (rootBox p) x → p.WholeAt x →
          ∃! id, ∃ n, s.tree.get? id = some n ∧ n.IsLeaf ∧ Box.Has (cutBox p n.cuts) x := by
  obtain ⟨ht, hp⟩ := reached.tracks_and_partitions nonneg
  refine ⟨fun e he => ?_, ht.nodup, ht.open_iff, hp⟩
  obtain ⟨n, hn, -⟩ := (ht.open_iff e.node).mp (List.mem_map_of_mem he)
  exact ⟨n, hn, ht.box_eq e he n hn⟩

/-- One whole column from 0 to 10, and no rows. -/
def oneColumn : Program ExtRat :=
  ⟨[⟨"x", ⟨.fin 0, .fin 10⟩, true, .fin 1⟩], [], .maximize, .fin 0⟩

/-- An oracle that has the same answer for every box. -/
def stubborn : Oracle ExtRat := fun _ => .ok (.solved [.fin (5 / 2)] (.fin (5 / 2)))

/-- No bound on the number of nodes, no tolerance. -/
def exactLimits : Limits ExtRat := ⟨⟨1⟩, none, .fin 0, false⟩

/-- The second split is at a value outside the box, and leaves an empty half. -/
theorem open_subproblems_partition_stubborn :
    ∃ s, Reachable oneColumn exactLimits stubborn (fun _ => ⟨false, .zero⟩) s
      ∧ s.tree.size = 5
      ∧ (∀ e ∈ s.stack, ∃ n, s.tree.get? e.node = some n ∧ e.box = cutBox oneColumn n.cuts)
      ∧ ∃! id, ∃ n, s.tree.get? id = some n ∧ n.IsLeaf
          ∧ Box.Has (cutBox oneColumn n.cuts) [ExtRat.fin 7] := by
  have hsize : (stateAfter? oneColumn exactLimits stubborn (fun _ => ⟨false, .zero⟩) 2).map
      (·.tree.size) = some 5 := by decide +kernel
  obtain ⟨s, hs, hsize⟩ := Option.map_eq_some_iff.mp hsize
  have reached := reachable_iff.mpr ⟨2, hs⟩
  obtain ⟨hboxes, -, -, hleaf⟩ := open_subproblems_partition oneColumn exactLimits stubborn _
    (by decide +kernel) s reached
  have hroot : Box.Has (rootBox oneColumn) [ExtRat.fin 7] :=
    .cons ⟨by decide +kernel, by decide +kernel⟩ .nil
  have hwhole : oneColumn.WholeAt [ExtRat.fin 7] := by
    unfold Program.WholeAt
    decide +kernel
  exact ⟨s, reached, hsize, hboxes, hleaf _ hroot hwhole⟩

end Milp.Search
